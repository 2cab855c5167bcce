import Emela.Mono.Lemmas.Adapter

/-!
# Adapters at every depth

What `adapter` makes for every two types that need one: the lambda itself, and what the verifier says of it once the
value's type may be used as the other.
-/

namespace Emela.Mono

variable {α : Type}

/-- An adapter is a lambda of the target type. -/
theorem Adapted.is_lambda {table : Locals} {value e : Expr α} {src dst : Ty} (h : Adapted table value src dst e)
    (hneeds : needsAdapter src dst = true) :
    ∃ v params body suspends, e = .let_ v value (.lambda params dst body suspends) := by
  cases h with
  | same hno => simp [hneeds] at hno
  | lambda => exact ⟨_, _, _, _, rfl⟩

/-- `e` is `value` as a `dst`: a lambda of this type, made as `Adapted` says, that needs no other adapter. -/
def IsAdapter (value : Expr α) (src dst : Ty) (ls : Locals) (e : Expr α) : Prop :=
  Adapted ls value src dst e ∧ (∃ v params body suspends, e = .let_ v value (.lambda params dst body suspends)) ∧
    needsAdapter dst dst = false

/-- The verifier finds nothing wrong with `e`, for every value it accepts as a `src`: in particular each call in it has
the arguments its function value expects, the table included. -/
def CallsAsTyped (value : Expr α) (src dst : Ty) (ls : Locals) (e : Expr α) : Prop :=
  ∀ (other : α → Option Ty) (table : Locals) (t : Ty), ls <+: table → typeOf other table value = some t →
    t.compatible src = true → typeOf other table e = some dst

/-- Every two types that need an adapter get one, and it calls the value as the value's type says where the type checker
lets a `src` be used as a `dst`. -/
theorem adapter_calls (value : Expr α) (src dst : Ty) (ls : Locals) (hneeds : needsAdapter src dst = true) :
    ∃ e ls', adapter value src dst ls = some (e, ls') ∧ ls <+: ls' ∧ IsAdapter value src dst ls' e ∧
      (src.usable dst = true → CallsAsTyped value src dst ls' e) := by
  obtain ⟨e, ls', hrun, hext, had⟩ := makes_adapter src dst hneeds value ls
  refine ⟨e, ls', hrun, hext, ⟨had, had.is_lambda hneeds, needsAdapter_refl dst⟩, ?_⟩
  intro husable other table t htable hvalue hflows
  obtain ⟨t', htype, -, hdst⟩ := (had.mono htable).typed husable hvalue hflows (fun h => by simp [hneeds] at h)
  rw [htype, hdst hneeds]

/-- A function whose callback takes the table, used where callers give one that does not. -/
theorem adapter_calls_callback : ∃ src dst : Ty, needsAdapter src dst = true ∧ src.usable dst = true ∧
    ∃ e ls', adapter (.var 0 : Expr Unit) src dst [⟨"g", src⟩] = some (e, ls') ∧ [⟨"g", src⟩] <+: ls' ∧
      IsAdapter (.var 0) src dst ls' e ∧ (src.usable dst = true → CallsAsTyped (.var 0) src dst ls' e) := by
  have hneeds : needsAdapter (.fn [.fn [] .unit false false true] .unit false false true)
      (.fn [.fn [] .unit false false false] .unit false false true) = true := by
    simp [needsAdapter, anyNeedsAdapter]
  refine ⟨_, _, hneeds, ?_, adapter_calls _ _ _ _ hneeds⟩
  simp [Ty.usable, Ty.allUsable]

/-- Where `src` takes the table and `dst` does not, the value is called without it. -/
theorem not_adapter_calls : ¬ ∀ (value : Expr Unit) (src dst : Ty) (ls : Locals), needsAdapter src dst = true →
    ∃ e ls', adapter value src dst ls = some (e, ls') ∧ ls <+: ls' ∧ IsAdapter value src dst ls' e ∧
      CallsAsTyped value src dst ls' e := by
  intro h
  obtain ⟨e, ls', hrun, -, -, hcalls⟩ := h (.var 0) (.fn [.fn [] .unit false false true] .unit false false true)
    (.fn [.fn [] .unit false false false] .unit false false false)
    [⟨"g", .fn [.fn [] .unit false false true] .unit false false true⟩] (by simp [needsAdapter, anyNeedsAdapter])
  simp [adapter, adaptArgs, needsAdapter, anyNeedsAdapter, newLocal, newLocals] at hrun
  obtain ⟨rfl, rfl⟩ := hrun
  have htype := hcalls (fun _ => none) _ _ List.prefix_rfl rfl (Ty.compatible_refl _)
  simp [typeOf, typesOf, Ty.allCompatible, lambdaFits, List.mapM_cons] at htype

end Emela.Mono
