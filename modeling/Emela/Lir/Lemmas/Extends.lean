import Emela.Lir.Lemmas.RcCheck
import Emela.Lir.Paths

/-!
# What a check keeps

Checking more code adds messages, defines variables and sets the references of join points that had
none; a message once found, a reference once set and an enclosing label stay.
-/

namespace Emela.Lir

variable {m : Module} {f : Function}

/-- There is one number for each variable in scope at the join point. -/
def Slot.Fits (s : Slot) : Prop := ∀ x, s.expected = some x → x.length = s.mark

/-- The references of a join point stay once they are set. -/
structure Slot.Extends (s s' : Slot) : Prop where
  mark : s'.mark = s.mark
  expected : ∀ x, s.expected = some x → s'.expected = some x
  fits : s.Fits → s'.Fits

theorem Slot.Extends.refl (s : Slot) : s.Extends s := ⟨rfl, fun _ h => h, id⟩

theorem Slot.Extends.trans {s s' s'' : Slot} (h : s.Extends s') (h' : s'.Extends s'') : s.Extends s'' :=
  ⟨h'.mark.trans h.mark, fun x hx => h'.expected x (h.expected x hx), fun hf => h'.fits (h.fits hf)⟩

/-- The check goes from `c` to `c'` and defines `vs`. -/
structure Check.Extends (L : Finset LabelId) (vs : List VarId) (c c' : Check) : Prop where
  errors : c'.errors = [] → c.errors = []
  scope : c'.scope = c.scope ++ vs
  slots : ∀ (i : Nat) s, c.slots[i]? = some s → ∃ s', c'.slots[i]? = some s' ∧ s.Extends s'
  labels : ∀ l ∈ L, c'.labels l = c.labels l

section
variable {L : Finset LabelId} {vs ws : List VarId} {c c' c'' : Check}

theorem Check.Extends.refl (c : Check) : Check.Extends L [] c c where
  errors h := h
  scope := (List.append_nil _).symm
  slots _ s hs := ⟨s, hs, .refl s⟩
  labels _ _ := rfl

theorem Check.Extends.trans (h : Check.Extends L vs c c') (h' : Check.Extends L ws c' c'') :
    Check.Extends L (vs ++ ws) c c'' where
  errors he := h.errors (h'.errors he)
  scope := by rw [h'.scope, h.scope, List.append_assoc]
  slots i s hs := by
    obtain ⟨s', hs', hx⟩ := h.slots i s hs
    obtain ⟨s'', hs'', hx'⟩ := h'.slots i s' hs'
    exact ⟨s'', hs'', hx.trans hx'⟩
  labels l hl := (h'.labels l hl).trans (h.labels l hl)

theorem Check.Extends.mono {L' : Finset LabelId} (h : Check.Extends L vs c c') (hl : L' ⊆ L) :
    Check.Extends L' vs c c' :=
  { h with labels := fun l hl' => h.labels l (hl hl') }

/-- Then more is checked that defines nothing. -/
theorem Check.Extends.then (h : Check.Extends L vs c c') (h' : Check.Extends L [] c' c'') :
    Check.Extends L vs c c'' := by
  simpa using h.trans h'

end

/-! ## Where control goes -/

/-- The slot is that of an enclosing statement. -/
def Check.Leads (c : Check) (slot : Option Nat) : Prop :=
  ∃ i s, slot = some i ∧ c.slots[i]? = some s ∧ s.mark ≤ c.scope.length ∧ s.Fits

/-- The enclosing statements have their slots. -/
structure Check.Encloses (Γ : Scope) (c : Check) (yieldTo head : Option Nat) : Prop where
  yields : Γ.yields = true → c.Leads yieldTo
  loops : Γ.inLoop = true → c.Leads head
  labels : ∀ l ∈ Γ.labels, c.Leads (c.labels l)

section
variable {Γ : Scope} {L : Finset LabelId} {vs : List VarId} {c c' : Check} {slot yieldTo head : Option Nat}

theorem Check.Leads.extends (h : c.Leads slot) (hx : Check.Extends L vs c c') : c'.Leads slot := by
  obtain ⟨i, s, rfl, hs, hmark, hfits⟩ := h
  obtain ⟨s', hs', hss⟩ := hx.slots i s hs
  refine ⟨i, s', rfl, hs', ?_, hss.fits hfits⟩
  rw [hss.mark, hx.scope, List.length_append]
  omega

theorem Check.Encloses.extends (h : c.Encloses Γ yieldTo head) (hx : Check.Extends Γ.labels vs c c') :
    c'.Encloses Γ yieldTo head where
  yields hy := (h.yields hy).extends hx
  loops hl := (h.loops hl).extends hx
  labels l hl := by
    rw [hx.labels l hl]
    exact (h.labels l hl).extends hx

theorem Check.Encloses.landing (h : c.Encloses Γ yieldTo head) : c.Encloses Γ.landing none head :=
  { h with yields := fun hy => absurd hy (by simp [Scope.landing]) }

theorem Check.Encloses.arm (h : c.Encloses Γ yieldTo head) (hs : c.Leads slot) : c.Encloses Γ.arm slot head :=
  { h with yields := fun _ => hs }

/-- A new slot, here of a statement that no edge has left yet. -/
theorem Check.newSlot_leads (c : Check) : c.newSlot.Leads (some c.slots.length) :=
  ⟨c.slots.length, ⟨c.scope.length, none⟩, rfl, by simp [Check.newSlot], le_rfl, by simp [Slot.Fits]⟩

/-- The slot of a loop head, whose references are those at the loop's start. -/
def Check.headSlot (c : Check) (t : Tokens) : Check :=
  { c with slots := c.slots ++ [⟨c.scope.length, some (c.scope.map t)⟩] }

theorem Check.headSlot_leads (c : Check) (t : Tokens) : (c.headSlot t).Leads (some c.slots.length) :=
  ⟨c.slots.length, ⟨c.scope.length, some (c.scope.map t)⟩, rfl, by simp [Check.headSlot], le_rfl,
    by simp [Slot.Fits]⟩

theorem Check.Encloses.block (h : c.Encloses Γ yieldTo head) (hs : c.Leads slot) (label : LabelId) :
    Check.Encloses (Γ.block label) { c with labels := Function.update c.labels label slot } slot head where
  yields _ := hs
  loops hl := h.loops hl
  labels l hl := by
    by_cases hll : l = label
    · subst hll
      simp only [Function.update_self]
      exact hs
    · simp only [Function.update_of_ne hll]
      exact h.labels l (Finset.mem_of_mem_insert_of_ne hl hll)

theorem Check.Encloses.loop (h : c.Encloses Γ yieldTo head) {exit head' : Option Nat} (he : c.Leads exit)
    (hh : c.Leads head') (vars : List VarId) : c.Encloses (Γ.loop vars) exit head' where
  yields _ := he
  loops _ := hh
  labels := h.labels

end

/-! ## Parts of statements -/

section
variable {L : Finset LabelId}

theorem extends_error (c : Check) (message : String) : Check.Extends L [] c (c.error message) :=
  { Check.Extends.refl c with errors := fun h => (List.append_eq_nil_iff.mp h).1 }

theorem extends_foldl {α : Type*} {g : Check → α → Check} (hg : ∀ c x, Check.Extends L [] c (g c x))
    (c : Check) (xs : List α) : Check.Extends L [] c (xs.foldl g c) := by
  induction xs generalizing c with
  | nil => exact .refl c
  | cons x xs ih => exact (hg c x).then (ih _)

theorem extends_take (what : String) (t : Tokens) (c : Check) (v : VarId) :
    Check.Extends L [] c (Check.take f what (t, c) v).2 := by
  simp only [Check.take]
  split
  · exact extends_error c _
  · exact .refl c

theorem extends_takeAll (what : String) (c : Check) (t : Tokens) (vs : List VarId) :
    Check.Extends L [] c (c.takeAll f what t vs).2 := by
  rw [Check.takeAll]
  induction vs generalizing c t with
  | nil => exact .refl c
  | cons v vs ih => exact (extends_take what t c v).then (ih _ _)

theorem extends_borrow (t : Tokens) (c : Check) (v : VarId) : Check.Extends L [] c (Check.borrow f t c v) := by
  rw [Check.borrow]
  split
  · exact extends_error c _
  · exact .refl c

theorem extends_leave (t : Tokens) (c : Check) (v : VarId) : Check.Extends L [] c (Check.leave f t c v) := by
  rw [Check.leave]
  split
  · exact extends_error c _
  · exact .refl c

/-- The first edge into a join point sets its references. -/
theorem extends_set {c : Check} {i mark : Nat} {x : List Nat} (hi : c.slots[i]? = some ⟨mark, none⟩)
    (hx : x.length = mark) :
    Check.Extends L [] c { c with slots := c.slots.set i ⟨mark, some x⟩ } :=
  { Check.Extends.refl c with
    slots := by
      intro j s hs
      by_cases hj : i = j
      · subst hj
        rw [hi] at hs
        obtain rfl := Option.some.inj hs
        have lt := (List.getElem?_eq_some_iff.mp hi).1
        exact ⟨⟨mark, some x⟩, by simp [lt], rfl, by simp, by simp [Slot.Fits, hx]⟩
      · exact ⟨s, by simpa [List.getElem?_set_ne hj] using hs, .refl s⟩ }

theorem foldl_leave_slots (c : Check) (t : Tokens) (vs : List VarId) :
    (vs.foldl (Check.leave f t) c).slots = c.slots := by
  induction vs generalizing c with
  | nil => rfl
  | cons v vs ih =>
      rw [List.foldl_cons, ih, Check.leave]
      split <;> rfl

/-- An edge out of the function, or into the join point of an enclosing statement. -/
theorem extends_deliver {c : Check} {slot : Option Nat} (t : Tokens) (h : slot = none ∨ c.Leads slot) :
    Check.Extends L [] c (c.deliver f slot t) := by
  have left := extends_foldl (L := L) (extends_leave (f := f) t) c (c.scope.drop (c.mark slot))
  have same := foldl_leave_slots (f := f) c t (c.scope.drop (c.mark slot))
  simp only [Check.deliver]
  generalize (c.scope.drop (c.mark slot)).foldl (Check.leave f t) c = c' at left same ⊢
  rcases h with rfl | ⟨i, s, rfl, hs, hmark, -⟩
  · exact left
  · rw [← same] at hs
    obtain ⟨mark, expected⟩ := s
    have hmark' : c.mark (some i) = mark := by
      rw [same] at hs
      simp [Check.mark, hs]
    simp only [hs]
    cases expected with
    | none =>
        refine left.then (extends_set hs ?_)
        rw [List.length_map, List.length_take, hmark']
        exact min_eq_left hmark
    | some x => exact left.then (extends_foldl (fun c x => extends_error c _) _ _)

theorem extends_define {c : Check} {t : Tokens} {v : VarId} {n : Nat} :
    Check.Extends L ([v].filter (counted f)) c (c.define f t v n).2 := by
  rw [Check.define]
  by_cases hv : counted f v = true
  · rw [if_pos hv, List.filter_cons_of_pos hv]
    exact { Check.Extends.refl c with scope := rfl }
  · rw [if_neg hv, List.filter_cons_of_neg hv]
    exact .refl c

theorem extends_defineAll (c : Check) (t : Tokens) (defs : List (VarId × Nat)) :
    Check.Extends L ((defs.map Prod.fst).filter (counted f)) c (c.defineAll f t defs).2 := by
  induction defs generalizing c t with
  | nil => exact .refl c
  | cons d defs ih =>
      have first : Check.Extends L ([d.1].filter (counted f)) c (c.define f t d.1 d.2).2 := extends_define
      have rest := first.trans (ih (c.define f t d.1 d.2).2 (c.define f t d.1 d.2).1)
      rw [← List.filter_append] at rest
      exact rest

theorem extends_slots (c : Check) (slots : List Slot) :
    Check.Extends L [] c { c with slots := c.slots ++ slots } :=
  { Check.Extends.refl c with
    slots := fun i s hs => by
      have lt := (List.getElem?_eq_some_iff.mp hs).1
      exact ⟨s, by simpa [List.getElem?_append, lt] using hs, .refl s⟩ }

theorem extends_label (c : Check) {label : LabelId} (slot : Option Nat) (h : label ∉ L) :
    Check.Extends L [] c { c with labels := Function.update c.labels label slot } :=
  { Check.Extends.refl (L := L) c with
    labels := fun l hl => Function.update_of_ne (fun heq : l = label => h (heq ▸ hl)) _ _ }

/-- After a compound statement the destination is defined, if an edge reaches its end. -/
theorem extends_after (c : Check) (slot : Nat) (t : Tokens) (dst : Option VarId) :
    ∃ vs, Check.Extends L vs c (c.after f slot t dst).2 ∧
      ((c.after f slot t dst).1.isSome → vs = dst.toList.filter (counted f)) := by
  rw [Check.after]
  split
  · exact ⟨[], .refl c, by simp⟩
  · split
    · exact ⟨[], .refl c, by simp⟩
    · exact ⟨_, extends_define, by simp⟩

/-- Where the terminator goes once it has taken its values. -/
def Check.jump (f : Function) (c : Check) (t : Tokens) (yieldTo head : Option Nat) : Term → Check
  | .yield _ => c.deliver f yieldTo t
  | .break label _ =>
      match c.labels label with
      | some slot => c.deliver f (some slot) t
      | none => c
  | .recur _ =>
      match head with
      | some slot => c.deliver f (some slot) t
      | none => c
  | .return _ | .fail _ | .unwind => c.deliver f none t
  | .unreachable => c

theorem term_eq (c : Check) (t : Tokens) (yieldTo head : Option Nat) (term : Term) :
    c.term f t yieldTo head term =
      (c.takeAll f "the terminator consumes" t (termConsumes f term)).2.jump f
        (c.takeAll f "the terminator consumes" t (termConsumes f term)).1 yieldTo head term := by
  cases term <;> rfl

theorem extends_jump {Γ : Scope} {c : Check} {yieldTo head : Option Nat} (h : c.Encloses Γ yieldTo head) (t : Tokens)
    {term : Term} (hs : ScopedTerm Γ term) : Check.Extends Γ.labels [] c (c.jump f t yieldTo head term) := by
  cases term with
  | yield v => exact extends_deliver t (.inr (h.yields hs.2))
  | «return» | fail | unwind => exact extends_deliver t (.inl rfl)
  | «break» label v =>
      have leads := h.labels label hs.2
      obtain ⟨i, s, hi, -⟩ := id leads
      rw [hi] at leads
      simp only [Check.jump, hi]
      exact extends_deliver t (.inr leads)
  | recur args =>
      have leads := h.loops hs.2
      obtain ⟨i, s, rfl, -⟩ := id leads
      exact extends_deliver t (.inr leads)
  | unreachable => exact .refl c

theorem extends_term {Γ : Scope} {c : Check} {yieldTo head : Option Nat} (h : c.Encloses Γ yieldTo head) (t : Tokens)
    {term : Term} (hs : ScopedTerm Γ term) : Check.Extends Γ.labels [] c (c.term f t yieldTo head term) := by
  have taken := extends_takeAll (L := Γ.labels) (f := f) "the terminator consumes" c t (termConsumes f term)
  rw [term_eq]
  exact taken.then (extends_jump (h.extends taken) _ hs)

end

/-! ## Code -/

/-- The check of a suspension edge: the saved variables move into the frame, and nothing else is owned. -/
def Check.suspended (f : Function) (c : Check) (t : Tokens) : Option Suspend → Check
  | none => c
  | some edge =>
      (c.takeAll f "a suspension edge saves" t (suspendSaved f (some edge))).2.deliver f none
        (c.takeAll f "a suspension edge saves" t (suspendSaved f (some edge))).1

theorem extends_suspended {L : Finset LabelId} (c : Check) (t : Tokens) (onSuspend : Option Suspend) :
    Check.Extends L [] c (c.suspended f t onSuspend) := by
  cases onSuspend with
  | none => exact .refl c
  | some edge => exact (extends_takeAll ..).then (extends_deliver _ (.inl rfl))

/-- What is checked of a `let` once its uses are. -/
def checkLands (m : Module) (f : Function) (c : Check) (t : Tokens) (head : Option Nat)
    (onFail : Option (VarId × Seq)) (onDefect : Option Seq) (onSuspend : Option Suspend) : Check :=
  checkOption m f (checkFail m f (c.suspended f t onSuspend) t head onFail) t none head onDefect

theorem checkStmt_let {c c₁ : Check} {t t₁ : Tokens} {value : Value} (head : Option Nat) (dst : Option VarId)
    (onFail : Option (VarId × Seq)) (onDefect : Option Seq) (onSuspend : Option Suspend)
    (h : c.takeAll f "a consuming use of" t (consumed m f value) = (t₁, c₁)) :
    checkStmt m f c t head (.let dst value onFail onDefect onSuspend) =
      let c₂ := (borrowed m f value).foldl (Check.borrow f t₁) c₁
      let r := (checkLands m f c₂ t₁ head onFail onDefect onSuspend).defineAll f t₁
        (dst.toList.map (·, if !isView f value then 1 else 0))
      (some r.1, r.2) := by
  simp only [checkStmt, h, checkLands]
  cases onSuspend <;> cases dst <;> cases isView f value <;> rfl

theorem checkSeq_mk (c : Check) (t : Tokens) (defs : List (VarId × Nat)) (yieldTo head : Option Nat) (s : Seq) :
    checkSeq m f c t defs yieldTo head s =
      { runSeq m f (c.defineAll f t defs).2 (c.defineAll f t defs).1 yieldTo head s with
        scope := (runSeq m f (c.defineAll f t defs).2 (c.defineAll f t defs).1 yieldTo head s).scope.take
          c.scope.length } := by
  cases s with
  | mk stmts term => rfl

theorem runSeq_cons (c : Check) (t : Tokens) (yieldTo head : Option Nat) (s : Stmt) (stmts : List Stmt) (term : Term) :
    runSeq m f c t yieldTo head (.mk (s :: stmts) term) =
      match checkStmt m f c t head s with
      | (some t, c) => runSeq m f c t yieldTo head (.mk stmts term)
      | (none, c) => c := by
  simp only [runSeq, checkStmts]
  rcases checkStmt m f c t head s with ⟨_ | t, c⟩ <;> rfl

theorem checkStmt_loop {c c₁ : Check} {t t₁ : Tokens} {inits : List Operand} (head : Option Nat) (dst : Option VarId)
    (vars : List VarId) (body : Seq)
    (h : c.takeAll f "a loop's initial value consumes" t (operandVars f inits) = (t₁, c₁)) :
    checkStmt m f c t head (.loop dst vars inits body) =
      (checkSeq m f (c₁.newSlot.headSlot t₁) t₁ (vars.map (·, 1)) (some c₁.slots.length)
        (some c₁.newSlot.slots.length) body).after f c₁.slots.length t₁ dst := by
  simp only [checkStmt, h]
  rfl

/-- A sequence ends with the scope it started with. -/
theorem extends_checkSeq {L : Finset LabelId} (c : Check) (t : Tokens) (defs : List (VarId × Nat))
    (yieldTo head : Option Nat) {s : Seq}
    (h : ∃ vs, Check.Extends L vs (c.defineAll f t defs).2
      (runSeq m f (c.defineAll f t defs).2 (c.defineAll f t defs).1 yieldTo head s)) :
    Check.Extends L [] c (checkSeq m f c t defs yieldTo head s) := by
  obtain ⟨vs, h⟩ := h
  have whole := (extends_defineAll (f := f) c t defs).trans h
  rw [checkSeq_mk]
  exact ⟨whole.errors, by simp [whole.scope], whole.slots, whole.labels⟩

mutual

theorem extends_seq {Γ : Scope} {L : Finset LabelId} {c : Check} {yieldTo head : Option Nat}
    (h : c.Encloses Γ yieldTo head) (hL : Γ.labels = L) (t : Tokens) :
    (s : Seq) → CountedSeq f Γ s → ∃ vs, Check.Extends L vs c (runSeq m f c t yieldTo head s)
  | .mk stmts term, hs => extends_stmts h hL t term stmts hs

theorem extends_stmts {Γ : Scope} {L : Finset LabelId} {c : Check} {yieldTo head : Option Nat}
    (h : c.Encloses Γ yieldTo head) (hL : Γ.labels = L) (t : Tokens) (term : Term) :
    (stmts : List Stmt) → CountedStmts f Γ term stmts →
      ∃ vs, Check.Extends L vs c (runSeq m f c t yieldTo head (.mk stmts term))
  | [], hs => ⟨[], hL ▸ extends_term h t hs⟩
  | s :: stmts, hs => by
      obtain ⟨vs, first, -⟩ := extends_stmt h t s hs.1
      subst hL
      rw [runSeq_cons]
      generalize checkStmt m f c t head s = r at first ⊢
      obtain ⟨_ | t', c'⟩ := r
      · exact ⟨vs, first⟩
      · have h' : c'.Encloses (Γ.define s.dst) yieldTo head := { h.extends first with }
        obtain ⟨ws, rest⟩ := extends_stmts h' rfl t' term stmts hs.2.2
        exact ⟨vs ++ ws, first.trans rest⟩

theorem extends_stmt {Γ : Scope} {c : Check} {yieldTo head : Option Nat} (h : c.Encloses Γ yieldTo head)
    (t : Tokens) :
    (s : Stmt) → CountedStmt f Γ s →
      ∃ vs, Check.Extends Γ.labels vs c (checkStmt m f c t head s).2 ∧
        ((checkStmt m f c t head s).1.isSome → vs = s.dst.toList.filter (counted f))
  | .let dst value onFail onDefect onSuspend, hs => by
      obtain ⟨-, hfail, hdefect, -⟩ := hs
      have taken := extends_takeAll (L := Γ.labels) (f := f) "a consuming use of" c t (consumed m f value)
      generalize htake : c.takeAll f "a consuming use of" t (consumed m f value) = r at taken
      obtain ⟨t₁, c₁⟩ := r
      rw [checkStmt_let head dst onFail onDefect onSuspend htake]
      simp only [checkLands]
      have borrows := taken.then (extends_foldl (extends_borrow (f := f) t₁) c₁ (borrowed m f value))
      have before := borrows.then (extends_suspended (f := f) _ t₁ onSuspend)
      have fails := before.then (extends_fail (h.extends before) rfl t₁ onFail hfail)
      have lands := fails.then (extends_option (h.extends fails).landing rfl t₁ onDefect hdefect)
      refine ⟨_, lands.trans (extends_defineAll ..), fun _ => ?_⟩
      simp [Stmt.dst, Function.comp_def]
  | .dup v, _ => ⟨[], by simpa only [checkStmt] using .refl c, fun _ => rfl⟩
  | .drop v, _ => ⟨[], by simpa only [checkStmt] using extends_takeAll .., fun _ => rfl⟩
  | .if dst cond then_ else_, hs => by
      obtain ⟨-, -, hthen, helse⟩ := hs
      simp only [checkStmt]
      have slot := extends_slots (L := Γ.labels) c [⟨c.scope.length, none⟩]
      have inner := (h.extends slot).arm c.newSlot_leads
      have first := extends_checkSeq _ t [] _ _ (extends_seq inner rfl t then_ hthen)
      have second := extends_checkSeq _ t [] _ _ (extends_seq (inner.extends first) rfl t else_ helse)
      obtain ⟨vs, after, hvs⟩ := extends_after (f := f) (L := Γ.labels) _ c.slots.length t dst
      exact ⟨vs, (slot.then (first.then second)).trans after, hvs⟩
  | .switch dst on cases default, hs => by
      obtain ⟨-, hcases, hdefault⟩ := hs
      simp only [checkStmt]
      have scrutinee : Check.Extends Γ.labels [] c (if counted f on.var then c.borrow f t on.var else c) := by
        split
        · exact extends_borrow ..
        · exact .refl c
      generalize (if counted f on.var then c.borrow f t on.var else c) = c₁ at scrutinee ⊢
      have slot := scrutinee.then (extends_slots c₁ [⟨c₁.scope.length, none⟩])
      have inner := (h.extends slot).arm c₁.newSlot_leads
      have first := extends_cases inner rfl t cases hcases
      have second := extends_option (inner.extends first) rfl t default hdefault
      obtain ⟨vs, after, hvs⟩ := extends_after (f := f) (L := Γ.labels) _ c₁.slots.length t dst
      exact ⟨vs, (slot.then (first.then second)).trans after, hvs⟩
  | .block dst label body, hs => by
      obtain ⟨hlabel, hbody⟩ := hs
      simp only [checkStmt]
      have slot := extends_slots (L := Γ.labels) c [⟨c.scope.length, none⟩]
      have labelled := slot.then (extends_label _ (some c.slots.length) hlabel)
      have inner := (h.extends slot).block c.newSlot_leads label
      have arm := extends_checkSeq _ t [] _ _ (extends_seq inner rfl t body hbody)
      obtain ⟨vs, after, hvs⟩ := extends_after (f := f) (L := Γ.labels) _ c.slots.length t dst
      exact ⟨vs, (labelled.then (arm.mono (Finset.subset_insert label Γ.labels))).trans after, hvs⟩
  | .loop dst vars inits body, hs => by
      obtain ⟨-, -, hbody⟩ := hs
      have taken := extends_takeAll (L := Γ.labels) (f := f) "a loop's initial value consumes" c t (operandVars f inits)
      generalize htake : c.takeAll f "a loop's initial value consumes" t (operandVars f inits) = r at taken
      obtain ⟨t₁, c₁⟩ := r
      rw [checkStmt_loop head dst vars body htake]
      have exit := taken.then (extends_slots c₁ [⟨c₁.scope.length, none⟩])
      have atHead : Check.Extends Γ.labels [] c₁.newSlot (c₁.newSlot.headSlot t₁) := extends_slots _ _
      have inner := (h.extends (exit.then atHead)).loop (c₁.newSlot_leads.extends atHead)
        (c₁.newSlot.headSlot_leads t₁) vars
      have defined := extends_defineAll (L := Γ.labels) (f := f) (c₁.newSlot.headSlot t₁) t₁ (vars.map (·, 1))
      have arm := extends_checkSeq _ t₁ (vars.map (·, 1)) _ _ (extends_seq (inner.extends defined) rfl _ body hbody)
      obtain ⟨vs, after, hvs⟩ := extends_after (f := f) (L := Γ.labels) _ c₁.slots.length t₁ dst
      exact ⟨vs, ((exit.then atHead).then arm).trans after, hvs⟩

theorem extends_fail {Γ : Scope} {L : Finset LabelId} {c : Check} {yieldTo head : Option Nat}
    (h : c.Encloses Γ yieldTo head) (hL : Γ.labels = L) (t : Tokens) :
    (o : Option (VarId × Seq)) → CountedFail f Γ o → Check.Extends L [] c (checkFail m f c t head o)
  | none, _ => by simpa only [checkFail] using .refl c
  | some (e, body), hs => by
      subst hL
      simp only [checkFail]
      have defined := extends_defineAll (L := Γ.labels) (f := f) c t [(e, 1)]
      have inner : Check.Encloses (Γ.landing.define (some e)) (c.defineAll f t [(e, 1)]).2 none head :=
        { (h.extends defined).landing with }
      exact extends_checkSeq _ _ _ _ _ (extends_seq inner rfl _ body hs.2.2)

theorem extends_option {Γ : Scope} {L : Finset LabelId} {c : Check} {yieldTo head : Option Nat}
    (h : c.Encloses Γ yieldTo head) (hL : Γ.labels = L) (t : Tokens) :
    (o : Option Seq) → CountedOption f Γ o → Check.Extends L [] c (checkOption m f c t yieldTo head o)
  | none, _ => by simpa only [checkOption] using .refl c
  | some body, hs => by
      simp only [checkOption]
      exact extends_checkSeq _ _ _ _ _ (extends_seq h hL t body hs)

theorem extends_cases {Γ : Scope} {L : Finset LabelId} {c : Check} {yieldTo head : Option Nat}
    (h : c.Encloses Γ yieldTo head) (hL : Γ.labels = L) (t : Tokens) :
    (cases : List (CaseKey × Seq)) → CountedCases f Γ cases →
      Check.Extends L [] c (checkCases m f c t yieldTo head cases)
  | [], _ => by simpa only [checkCases] using .refl c
  | (_, body) :: cases, hs => by
      subst hL
      simp only [checkCases]
      have first := extends_checkSeq _ t [] _ _ (extends_seq h rfl t body hs.1)
      exact first.then (extends_cases (h.extends first) rfl t cases hs.2)

end

theorem extends_checkLands {Γ : Scope} {c : Check} {yieldTo head : Option Nat} (h : c.Encloses Γ yieldTo head)
    (t : Tokens) {onFail : Option (VarId × Seq)} {onDefect : Option Seq} (hfail : CountedFail f Γ onFail)
    (hdefect : CountedOption f Γ.landing onDefect) (onSuspend : Option Suspend) :
    Check.Extends Γ.labels [] c (checkLands m f c t head onFail onDefect onSuspend) := by
  have before := extends_suspended (L := Γ.labels) (f := f) c t onSuspend
  have first := before.then (extends_fail (m := m) (h.extends before) rfl t onFail hfail)
  exact first.then (extends_option (h.extends first).landing rfl t onDefect hdefect)

end Emela.Lir
