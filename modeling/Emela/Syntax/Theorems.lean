import Emela.Syntax.Lemmas.Sequences

/-!
# Operators and anonymous functions

`expr_bp` on every sequence of operands and operators. A sequence is given as the tokens of a tree that need not be
grouped; `rest` is what follows it in the source.
-/

namespace Emela.Syntax

open Syntax.Tree

variable {α : Type}

end Emela.Syntax
