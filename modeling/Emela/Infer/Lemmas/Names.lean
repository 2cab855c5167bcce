import Mathlib
import Emela.Infer.Scheme

/-!
# The names of the parameters

Among one more names than there are parameters one is new, so the loop for a name ends, and the parameters of the
quantified variables come after the written ones in order.
-/

namespace Emela.Infer

variable {params : List TyParam} {name : Nat → String}

/-! ## Names -/

theorem paramName_injective : Function.Injective paramName := by
  have hlength : ∀ i, 26 ≤ i → ("T" ++ i.repr).length ≠ 1 := by
    intro i hi heq
    have hpos : 0 < i.repr.length := Nat.length_repr_pos
    rw [String.length_append] at heq
    have hone : "T".length = 1 := rfl
    omega
  intro i j h
  unfold paramName at h
  split_ifs at h with hi hj hj
  · have hchar := String.singleton_inj.mp h
    have hcast : ∀ k, k < 26 → (Char.ofNat ('A'.toNat + k)).toNat = 'A'.toNat + k := by decide
    have heq := congrArg Char.toNat hchar
    rw [hcast i hi, hcast j hj] at heq
    omega
  · exact absurd (congrArg String.length h).symm (by simpa using hlength j (by omega))
  · exact absurd (congrArg String.length h) (by simpa using hlength i (by omega))
  · exact Nat.repr_injective (String.append_right_inj _ |>.mp h)

theorem setParamName_injective (letter : String) : Function.Injective (setParamName letter) := by
  have hne : ∀ i : Nat, letter ≠ letter ++ i.repr := by
    intro i heq
    have hpos : 0 < i.repr.length := Nat.length_repr_pos
    have hlength := congrArg String.length heq
    rw [String.length_append] at hlength
    omega
  intro i j h
  unfold setParamName at h
  split_ifs at h with hi hj hj
  · rw [hi, hj]
  · exact absurd h (hne j)
  · exact absurd h.symm (hne i)
  · exact Nat.repr_injective (String.append_right_inj _ |>.mp h)

theorem freshName_succ (fuel next : Nat) : freshName name params (fuel + 1) next =
    if params.any (·.name == name next) then freshName name params fuel (next + 1) else some (name next, next + 1) := rfl

/-- The names tried before the loop gives up are all taken. -/
theorem mem_of_freshName_none {fuel next : Nat} (h : freshName name params fuel next = none) :
    ∀ k < fuel, name (next + k) ∈ params.map (·.name) := by
  induction fuel generalizing next with
  | zero => exact fun k hk => absurd hk (Nat.not_lt_zero k)
  | succ fuel ih =>
    rw [freshName_succ] at h
    split at h
    · next htaken =>
      intro k hk
      cases k with
      | zero =>
        obtain ⟨p, hp, hname⟩ := List.any_eq_true.mp htaken
        exact List.mem_map.mpr ⟨p, hp, by simpa using hname⟩
      | succ k =>
        rw [Nat.add_comm k 1, ← Nat.add_assoc]
        exact ih h k (by omega)
    · cases h

theorem not_mem_of_freshName {fuel next n : Nat} {s : String} (h : freshName name params fuel next = some (s, n)) :
    s ∉ params.map (·.name) := by
  induction fuel generalizing next with
  | zero => cases h
  | succ fuel ih =>
    rw [freshName_succ] at h
    split at h
    · exact ih h
    · next hfree =>
      cases h
      intro hmem
      obtain ⟨p, hp, hname⟩ := List.mem_map.mp hmem
      exact hfree (List.any_eq_true.mpr ⟨p, hp, by simpa using hname⟩)

/-- There is a name that no parameter has. -/
theorem exists_freshName (hname : Function.Injective name) (params : List TyParam) (next : Nat) :
    ∃ s n, freshName name params (params.length + 1) next = some (s, n) ∧ s ∉ params.map (·.name) := by
  cases h : freshName name params (params.length + 1) next with
  | some r => exact ⟨r.1, r.2, rfl, not_mem_of_freshName h⟩
  | none =>
    have htaken := mem_of_freshName_none h
    have hnodup : ((List.range (params.length + 1)).map fun k => name (next + k)).Nodup :=
      List.nodup_range.map fun i j hij => Nat.add_left_cancel (hname hij)
    have hsub : ((List.range (params.length + 1)).map fun k => name (next + k)) ⊆ params.map (·.name) := by
      intro s hs
      obtain ⟨k, hk, rfl⟩ := List.mem_map.mp hs
      exact htaken k (List.mem_range.mp hk)
    have hle := (hnodup.subperm hsub).length_le
    simp at hle

/-! ## Parameters -/

/-- The names of `new` are different, and none of `params` has one. -/
def Added (params new : List TyParam) : Prop :=
  (new.map (·.name)).Nodup ∧ ∀ p ∈ new, p.name ∉ params.map (·.name)

theorem Added.nil : Added params [] := ⟨List.nodup_nil, by simp⟩

theorem Added.append {new more : List TyParam} (h : Added params new) (h' : Added (params ++ new) more) :
    Added params (new ++ more) := by
  constructor
  · rw [List.map_append]
    refine List.nodup_append'.mpr ⟨h.1, h'.1, fun s hs hs' => ?_⟩
    obtain ⟨p, hp, rfl⟩ := List.mem_map.mp hs'
    exact h'.2 p hp (by simp [hs])
  · intro p hp
    rcases List.mem_append.mp hp with hp | hp
    · exact h.2 p hp
    · exact fun hmem => h'.2 p hp (by simp [hmem])

theorem Added.singleton {p : TyParam} (h : p.name ∉ params.map (·.name)) : Added params [p] :=
  ⟨List.nodup_singleton _, by simpa using h⟩

/-- What a loop over variables adds: a parameter for each one quantified, in order. -/
structure Quantified {V : Type} (map : List (V × Nat)) (params : List TyParam) (more : List (V × Nat))
    (r : List (V × Nat) × List TyParam) : Prop where
  map : r.1 = map ++ more
  params : ∃ new, r.2 = params ++ new ∧ Added params new ∧ more.map (·.2) = List.range' params.length new.length

theorem Quantified.nil {V : Type} {map : List (V × Nat)} : Quantified map params [] (map, params) :=
  ⟨(List.append_nil _).symm, [], (List.append_nil _).symm, .nil, rfl⟩

theorem Quantified.cons {V : Type} {map more : List (V × Nat)} {r : List (V × Nat) × List TyParam} {v : V} {p : TyParam}
    (hp : p.name ∉ params.map (·.name))
    (h : Quantified (map ++ [(v, params.length)]) (params ++ [p]) more r) :
    Quantified map params ((v, params.length) :: more) r := by
  obtain ⟨hmap, new, hparams, hadded, hindices⟩ := h
  refine ⟨by rw [hmap, ← List.append_cons], p :: new, by rw [hparams, ← List.append_cons],
    (Added.singleton hp).append hadded, ?_⟩
  rw [List.map_cons, hindices, List.length_cons, List.length_append, List.length_singleton, List.range'_succ]

theorem quantifyVars_spec (env vars : List TyVar) (map : List (TyVar × Nat)) (params : List TyParam) (next : Nat) :
    ∃ r more, quantifyVars env vars map params next = some r ∧ Quantified map params more r ∧
      ∀ e ∈ more, e.1 ∈ vars ∧ e.1 ∉ env := by
  induction vars generalizing map params next with
  | nil => exact ⟨_, [], rfl, .nil, by simp⟩
  | cons v vars ih =>
    rw [quantifyVars]
    split
    · obtain ⟨r, more, hr, hq, hmore⟩ := ih map params next
      exact ⟨r, more, hr, hq, fun e he => ⟨List.mem_cons_of_mem _ (hmore e he).1, (hmore e he).2⟩⟩
    · next hv =>
      obtain ⟨s, n, hs, hnew⟩ := exists_freshName paramName_injective params next
      obtain ⟨r, more, hr, hq, hmore⟩ := ih (map ++ [(v, params.length)]) (params ++ [.new s .type]) n
      refine ⟨r, _, by rw [hs]; exact hr, hq.cons hnew, List.forall_mem_cons.mpr ⟨⟨List.mem_cons_self, hv⟩, ?_⟩⟩
      exact fun e he => ⟨List.mem_cons_of_mem _ (hmore e he).1, (hmore e he).2⟩

theorem quantifyRows_spec (immediate : RowVar → Bool) (vars : List (RowVar × SetKind)) (map : List (RowVar × Nat))
    (params : List TyParam) (next : SetKind → Nat) :
    ∃ r more, quantifyRows immediate vars map params next = some r ∧ Quantified map params more r := by
  induction vars generalizing map params next with
  | nil => exact ⟨_, [], rfl, .nil⟩
  | cons e vars ih =>
    obtain ⟨v, kind⟩ := e
    obtain ⟨s, n, hs, hnew⟩ := exists_freshName (setParamName_injective (setLetter kind)) params (next kind)
    obtain ⟨p, hp, hname⟩ : ∃ p : TyParam, p = (if immediate v then
        { TyParam.new s .set with bounds := (TyParam.new s .set).bounds ++ [IMMEDIATE] } else TyParam.new s .set) ∧
        p.name = s := ⟨_, rfl, by split <;> rfl⟩
    obtain ⟨r, more, hr, hq⟩ := ih (map ++ [(v, params.length)]) (params ++ [p]) fun k => if k = kind then n else next k
    refine ⟨r, _, ?_, hq.cons (hname ▸ hnew)⟩
    rw [quantifyRows, hs]
    simp only [Option.bind_eq_bind, Option.bind_some, ← hp]
    exact hr

end Emela.Infer
