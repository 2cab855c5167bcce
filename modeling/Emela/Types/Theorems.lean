import Mathlib.Order.Filter.AtTopBot.Basic
import Mathlib.Order.Filter.Finite
import Emela.Types.Lemmas.Witnesses
import Emela.Types.Lemmas.Useful

/-!
# What the check of a match reports

The reports are exact for every table of inhabited types, unless the literals of the arms are all the
values of a type: the check never takes literals alone for exhaustive.
-/

namespace Emela.Types

section
variable {T : Type} {table : CtorTable T} {prim : T → Value → Prop} {ty : T} {arms : List Arm}

/-! ## Arms as rows -/

theorem armLits_of_mem {a : Arm} (h : a ∈ arms) : a.pat.lits ⊆ armLits arms := fun _ hl =>
  List.mem_flatMap.mpr ⟨a, h, hl⟩

theorem rowOk_singleton {p : Pat} {lits : List Lit} (hp : PatTyped table prim p ty) (hl : p.lits ⊆ lits) :
    RowOk table prim lits [ty] [p] :=
  ⟨.cons hp .nil, fun q hq => by rwa [List.mem_singleton.mp hq]⟩

theorem mem_armRows {r : Row} : r ∈ armRows arms ↔ ∃ a ∈ arms, a.guarded = false ∧ r = [a.pat] := by
  constructor
  · intro h
    obtain ⟨a, ha, rfl⟩ := List.mem_map.mp h
    obtain ⟨ha, hg⟩ := List.mem_filter.mp ha
    exact ⟨a, ha, by simpa using hg, rfl⟩
  · rintro ⟨a, ha, hg, rfl⟩
    exact List.mem_map.mpr ⟨a, List.mem_filter.mpr ⟨ha, by simp [hg]⟩, rfl⟩

/-- The usefulness of one pattern against the unguarded arms. -/
theorem useful_armRows_iff {p : Pat} {lits : List Lit} {limit : Nat} (hinh : AllInhabited table prim)
    (hfresh : Fresh table prim lits) (harms : ∀ a ∈ arms, PatTyped table prim a.pat ty ∧ a.pat.lits ⊆ lits)
    (hp : PatTyped table prim p ty) (hl : p.lits ⊆ lits) (hlimit : 1 ≤ limit) :
    useful table (armRows arms) [p] [ty] limit = [] ↔
      ∀ v, HasType table prim v ty → p.matches v = true →
        ∃ a ∈ arms, a.guarded = false ∧ a.pat.matches v = true := by
  have hrows : RowsOk table prim lits [ty] (armRows arms) := by
    intro r hr
    obtain ⟨a, ha, -, rfl⟩ := mem_armRows.mp hr
    exact rowOk_singleton (harms a ha).1 (harms a ha).2
  have huse := useful_ne_nil_iff hinh hfresh hlimit hrows (rowOk_singleton hp hl)
  constructor
  · intro hnil v hv hm
    by_contra hno
    refine huse.mpr ⟨[v], .cons hv .nil, by simp [matchesElems, hm], fun r hr => ?_⟩ hnil
    obtain ⟨a, ha, hg, rfl⟩ := mem_armRows.mp hr
    simp only [matchesElems, Bool.and_true]
    by_contra hav
    exact hno ⟨a, ha, hg, by simpa using hav⟩
  · intro h
    by_contra hne
    obtain ⟨vs, hvs, hm, hno⟩ := huse.mp hne
    obtain ⟨v, rfl⟩ : ∃ v, vs = [v] := List.length_eq_one_iff.mp hvs.length_eq
    simp only [matchesElems, Bool.and_true] at hm
    cases hvs with
    | cons hv =>
      obtain ⟨a, ha, hg, hav⟩ := h v hv hm
      have := hno _ (mem_armRows.mpr ⟨a, ha, hg, rfl⟩)
      simp [matchesElems, hav] at this

/-- The loop over the arms asks for each arm whether it is useful against the unguarded arms above. -/
theorem mem_redundantArms {i k : Nat} {above : List Row} :
    i ∈ redundantArms table ty k above arms ↔
      ∃ j a, i = k + j ∧ arms[j]? = some a ∧
        useful table (above ++ armRows (arms.take j)) [a.pat] [ty] 1 = [] := by
  induction arms generalizing k above with
  | nil => simp [redundantArms]
  | cons arm arms ih =>
    have habove : ∀ j, (if arm.guarded then above else above ++ [[arm.pat]]) ++ armRows (arms.take j) =
        above ++ armRows ((arm :: arms).take (j + 1)) := by
      intro j
      cases hg : arm.guarded <;> simp [armRows, hg]
    have hrest : i ∈ redundantArms table ty (k + 1) (if arm.guarded then above else above ++ [[arm.pat]]) arms ↔
        ∃ j a, i = k + (j + 1) ∧ (arm :: arms)[j + 1]? = some a ∧
          useful table (above ++ armRows ((arm :: arms).take (j + 1))) [a.pat] [ty] 1 = [] := by
      rw [ih]
      simp only [habove, List.getElem?_cons_succ, Nat.add_assoc, Nat.add_comm 1]
    have hsplit : i ∈ redundantArms table ty k above (arm :: arms) ↔
        (i = k ∧ useful table above [arm.pat] [ty] 1 = []) ∨
          i ∈ redundantArms table ty (k + 1) (if arm.guarded then above else above ++ [[arm.pat]]) arms := by
      rw [redundantArms]
      by_cases hu : useful table above [arm.pat] [ty] 1 = [] <;> simp [hu]
    rw [hsplit, hrest]
    constructor
    · rintro (⟨rfl, hu⟩ | ⟨j, a, rfl, ha, hu⟩)
      · exact ⟨0, arm, rfl, rfl, by simpa [armRows] using hu⟩
      · exact ⟨j + 1, a, rfl, ha, hu⟩
    · rintro ⟨j, a, rfl, ha, hu⟩
      cases j with
      | zero =>
        obtain rfl : arm = a := by simpa using ha
        exact .inl ⟨rfl, by simpa [armRows] using hu⟩
      | succ j => exact .inr ⟨j, a, rfl, ha, hu⟩

/-! ## The reports -/

/-- No value is reported missing exactly when every value is matched by an unguarded arm. -/
theorem checkMatch_missing_iff (hinh : AllInhabited table prim) (hfresh : Fresh table prim (armLits arms))
    (harms : ∀ a ∈ arms, PatTyped table prim a.pat ty) :
    (checkMatch table ty arms).missing = [] ↔
      ∀ v, HasType table prim v ty → ∃ a ∈ arms, a.guarded = false ∧ a.pat.matches v = true := by
  have := useful_armRows_iff hinh hfresh (fun a ha => ⟨harms a ha, armLits_of_mem ha⟩) .wild
    (by simp [Pat.lits]) (show 1 ≤ WITNESS_LIMIT by decide)
  simpa [checkMatch, Pat.matches] using this

/-- An arm is reported redundant exactly when every value it matches is matched by an unguarded arm
above. -/
theorem checkMatch_redundant_iff (hinh : AllInhabited table prim) (hfresh : Fresh table prim (armLits arms))
    (harms : ∀ a ∈ arms, PatTyped table prim a.pat ty) {i : Nat} {arm : Arm} (hi : arms[i]? = some arm) :
    i ∈ (checkMatch table ty arms).redundant ↔
      ∀ v, HasType table prim v ty → arm.pat.matches v = true →
        ∃ a ∈ arms.take i, a.guarded = false ∧ a.pat.matches v = true := by
  have hmem : arm ∈ arms := List.mem_of_getElem? hi
  have htake : ∀ a ∈ arms.take i, PatTyped table prim a.pat ty ∧ a.pat.lits ⊆ armLits arms := fun a ha =>
    ⟨harms a (List.mem_of_mem_take ha), armLits_of_mem (List.mem_of_mem_take ha)⟩
  rw [← useful_armRows_iff hinh hfresh htake (harms arm hmem) (armLits_of_mem hmem) (Nat.le_refl 1)]
  simp only [checkMatch, mem_redundantArms, List.nil_append, Nat.zero_add]
  constructor
  · rintro ⟨j, a, rfl, ha, hu⟩
    obtain rfl : a = arm := by simpa [ha] using hi
    exact hu
  · exact fun hu => ⟨i, arm, rfl, hi, hu⟩

/-! ## The examples -/

theorem armRows_ok (harms : ∀ a ∈ arms, PatTyped table prim a.pat ty) :
    RowsOk table prim (armLits arms) [ty] (armRows arms) := by
  intro r hr
  obtain ⟨a, ha, -, rfl⟩ := mem_armRows.mp hr
  exact rowOk_singleton (harms a ha) (armLits_of_mem ha)

theorem wildRow_ok (lits : List Lit) : RowOk table prim lits [ty] [.wild] :=
  rowOk_singleton .wild (by simp [Pat.lits])

/-- Each example denotes a value of the scrutinee's type, and the unguarded arms match none of the values it
denotes, where `_` at a type that cannot be taken apart stands for the values that no literal of the arms is
equal to. There are at most `WITNESS_LIMIT` examples, and there is one unless the arms match every value. -/
theorem checkMatch_missing_denotes (harms : ∀ a ∈ arms, PatTyped table prim a.pat ty) :
    (AllInhabited table prim → Fresh table prim (armLits arms) → DistinctNames table →
      ∀ w ∈ (checkMatch table ty arms).missing,
        (∃ v, Denotes table prim (armLits arms) w ty v) ∧
        ∀ v, Denotes table prim (armLits arms) w ty v →
          HasType table prim v ty ∧ ∀ a ∈ arms, a.guarded = false → a.pat.matches v = false) ∧
      (checkMatch table ty arms).missing.length ≤ WITNESS_LIMIT ∧
      ((checkMatch table ty arms).missing = [] →
        ∀ v, HasType table prim v ty → ∃ a ∈ arms, a.guarded = false ∧ a.pat.matches v = true) := by
  have hrows := armRows_ok harms
  refine ⟨fun hinh hfresh hnames w hw => ?_, ?_, fun hnil v hv => ?_⟩
  · obtain ⟨ws, hws, rfl⟩ := List.mem_map.mp hw
    obtain ⟨⟨vs, hvs⟩, hfits⟩ := fits_of_mem_useful hinh hfresh hnames hrows (wildRow_ok _) hws
    cases hvs with
    | cons hv hvs =>
      cases hvs
      simp only [List.getLastD_cons, List.getLastD_nil]
      refine ⟨⟨_, hv⟩, fun v hv => ⟨hv.hasType, fun a ha hg => ?_⟩⟩
      have hno := (hfits [v] (.cons hv .nil)).2 _ (mem_armRows.mpr ⟨a, ha, hg, rfl⟩)
      simpa [matchesElems] using hno
  · obtain ⟨found, left, hloop⟩ : ∃ found left, usefulCtors table (armRows arms) .wild [] (table.shape ty) []
        WITNESS_LIMIT (splitCtors (table.shape ty) (column (armRows arms) .wild)) [] [] = (found, left) :=
      ⟨_, _, rfl⟩
    rw [checkMatch, List.length_map, useful_cons hloop]
    exact List.length_take_le _ _
  · by_contra hno
    have hne : useful table (armRows arms) [.wild] [ty] WITNESS_LIMIT ≠ [] := by
      apply UsefulTo.ne_nil (by decide) hrows (wildRow_ok _)
      refine ⟨[v], .cons hv .nil, rfl, fun r hr => ?_⟩
      obtain ⟨a, ha, hg, rfl⟩ := mem_armRows.mp hr
      simp only [matchesElems, Bool.and_true]
      by_contra hav
      exact hno ⟨a, ha, hg, by simpa using hav⟩
    exact hne (List.map_eq_nil_iff.mp hnil)

/-! ## An optional integer -/

/-- `Int`, and `Option` of it. -/
inductive OptInt where
  | int
  | option

def optInt : CtorTable OptInt where
  shape
    | .int => .opaqueTy
    | .option => .enum [⟨"Some", [.int]⟩, ⟨"None", []⟩]

/-- An `Int` is a 32-bit signed integer. -/
def IsInt (_ : OptInt) (v : Value) : Prop := ∃ n : Int, -2 ^ 31 ≤ n ∧ n < 2 ^ 31 ∧ v = .lit (.int n)

theorem optInt_inhabited : AllInhabited optInt IsInt := by
  intro ty
  cases ty with
  | int => exact ⟨.lit (.int 0), .prim rfl ⟨0, by decide, by decide, rfl⟩⟩
  | option => exact ⟨.variant 1 [], .variant rfl rfl .nil⟩

/-- `Some(0)`, `Some(_) if ..`, `None`. -/
def guardedArms : List Arm :=
  [⟨.variant 0 [(0, .lit (.int 0))], false⟩, ⟨.variant 0 [(0, .wild)], true⟩, ⟨.variant 1 [], false⟩]

theorem guardedArms_typed : ∀ a ∈ guardedArms, PatTyped optInt IsInt a.pat .option := by
  intro a ha
  simp only [guardedArms, List.mem_cons, List.not_mem_nil, or_false] at ha
  rcases ha with rfl | rfl | rfl
  · refine .variant rfl rfl (by simp) (by simp) (fun f hf t ht => ?_)
    obtain rfl := List.mem_singleton.mp hf
    obtain rfl : OptInt.int = t := by simpa using ht
    exact .lit rfl ⟨0, by decide, by decide, rfl⟩
  · refine .variant rfl rfl (by simp) (by simp) (fun f hf t _ => ?_)
    obtain rfl := List.mem_singleton.mp hf
    exact .wild
  · exact .variant rfl rfl (by simp) (by simp) (by simp)

theorem guardedArms_fresh : Fresh optInt IsInt (armLits guardedArms) := by
  intro ty _
  refine ⟨.lit (.int 1), ⟨1, by decide, by decide, rfl⟩, fun l hl => ?_⟩
  obtain rfl : l = .int 0 := by simpa [armLits, guardedArms, Pat.lits, litsFields] using hl
  rfl

/-- `Some(1)` is only matched by the guarded arm. -/
theorem guardedArms_missing : (checkMatch optInt .option guardedArms).missing ≠ [] := by
  rw [ne_eq, checkMatch_missing_iff optInt_inhabited guardedArms_fresh guardedArms_typed]
  intro h
  obtain ⟨a, ha, hg, hm⟩ := h (.variant 0 [.lit (.int 1)])
    (.variant rfl rfl (.cons (.prim rfl ⟨1, by decide, by decide, rfl⟩) .nil))
  simp only [guardedArms, List.mem_cons, List.not_mem_nil, or_false] at ha
  rcases ha with rfl | rfl | rfl <;> revert hg hm <;> decide

/-- The guarded arm does not make `None` redundant. -/
theorem guardedArms_not_redundant : 2 ∉ (checkMatch optInt .option guardedArms).redundant := by
  rw [checkMatch_redundant_iff optInt_inhabited guardedArms_fresh guardedArms_typed (i := 2) rfl]
  intro h
  obtain ⟨a, ha, -, hm⟩ := h (.variant 1 []) (.variant rfl rfl .nil) rfl
  simp only [guardedArms, List.take, List.mem_cons, List.not_mem_nil, or_false] at ha
  rcases ha with rfl | rfl <;> revert hm <;> decide

/-- The example of the guarded arm's value denotes a value. -/
theorem guardedArms_missing_denotes :
    (checkMatch optInt .option guardedArms).missing.length ≤ WITNESS_LIMIT ∧ ∀ w ∈ (checkMatch optInt .option guardedArms).missing,
      (∃ v, Denotes optInt IsInt (armLits guardedArms) w .option v) ∧
      ∀ v, Denotes optInt IsInt (armLits guardedArms) w .option v →
        HasType optInt IsInt v .option ∧ ∀ a ∈ guardedArms, a.guarded = false → a.pat.matches v = false := by
  refine ⟨(checkMatch_missing_denotes guardedArms_typed).2.1,
    (checkMatch_missing_denotes guardedArms_typed).1 optInt_inhabited guardedArms_fresh ?_⟩
  intro ty variants h
  cases ty with
  | int => cases h
  | option =>
    cases h
    decide

/-! ## All the integers as literals -/

/-- An arm for each literal. -/
def litArms (ns : List Int) : List Arm := ns.map fun n => ⟨.lit (.int n), false⟩

/-- `_`. -/
def wildArm : Arm := ⟨.wild, false⟩

/-- The 32-bit integers. -/
def allInts : List Int := (List.range (2 ^ 32)).map fun k : Nat => (k : Int) - 2 ^ 31

theorem mem_allInts {n : Int} : n ∈ allInts ↔ -2 ^ 31 ≤ n ∧ n < 2 ^ 31 := by
  simp only [allInts, List.mem_map, List.mem_range]
  constructor
  · rintro ⟨k, hk, rfl⟩
    omega
  · intro h
    exact ⟨(n + 2 ^ 31).toNat, by omega, by omega⟩

theorem litArms_typed {a : Arm} (h : a ∈ litArms allInts) : PatTyped optInt IsInt a.pat .int := by
  obtain ⟨n, hn, rfl⟩ := List.mem_map.mp h
  have := mem_allInts.mp hn
  exact .lit rfl ⟨n, this.1, this.2, rfl⟩

theorem litArms_match {v : Value} (h : HasType optInt IsInt v .int) :
    ∃ a ∈ litArms allInts, a.guarded = false ∧ a.pat.matches v = true := by
  cases h with
  | prim _ hv =>
    obtain ⟨n, hlo, hhi, rfl⟩ := hv
    exact ⟨_, List.mem_map.mpr ⟨n, mem_allInts.mpr ⟨hlo, hhi⟩, rfl⟩, rfl, by simp [Pat.matches, Lit.eq]⟩
  | variant hshape => cases hshape
  | tuple hshape => cases hshape
  | list hshape => cases hshape

/-- The check takes the values for more than the literals, whichever literals are written. -/
theorem useful_litArms (ns : List Int) {limit : Nat} (hlimit : 1 ≤ limit) :
    useful optInt (armRows (litArms ns)) [.wild] [.int] limit ≠ [] := by
  have hinh : AllInhabited optInt (fun _ _ => True) := by
    intro ty
    cases ty with
    | int => exact ⟨.other 0, .prim rfl trivial⟩
    | option => exact ⟨.variant 1 [], .variant rfl rfl .nil⟩
  have hfresh : Fresh optInt (fun _ _ => True) (armLits (litArms ns)) := fun ty _ =>
    ⟨.other 0, trivial, fun l _ => rfl⟩
  have harms : ∀ a ∈ litArms ns, PatTyped optInt (fun _ _ => True) a.pat .int ∧
      a.pat.lits ⊆ armLits (litArms ns) := by
    intro a ha
    refine ⟨?_, armLits_of_mem ha⟩
    obtain ⟨n, -, rfl⟩ := List.mem_map.mp ha
    exact .lit rfl trivial
  rw [ne_eq, useful_armRows_iff hinh hfresh harms .wild (by simp [Pat.lits]) hlimit]
  intro h
  obtain ⟨a, ha, -, hm⟩ := h (.other 0) (.prim rfl trivial) rfl
  obtain ⟨n, -, rfl⟩ := List.mem_map.mp ha
  simp [Pat.matches] at hm

/-- Every `Int` is matched by one of the arms, and still a value is reported missing. -/
theorem missing_litArms :
    AllInhabited optInt IsInt ∧ (∀ a ∈ litArms allInts, PatTyped optInt IsInt a.pat .int) ∧
      ¬((checkMatch optInt .int (litArms allInts)).missing = [] ↔
        ∀ v, HasType optInt IsInt v .int →
          ∃ a ∈ litArms allInts, a.guarded = false ∧ a.pat.matches v = true) := by
  refine ⟨optInt_inhabited, fun a ha => litArms_typed ha, fun hiff => ?_⟩
  have hnil := hiff.mpr (fun v hv => litArms_match hv)
  rw [checkMatch, List.map_eq_nil_iff] at hnil
  exact useful_litArms allInts (by decide) hnil

/-- A last `_` matches no more values, and still it is not reported redundant. -/
theorem redundant_litArms :
    AllInhabited optInt IsInt ∧
      (∀ a ∈ litArms allInts ++ [wildArm], PatTyped optInt IsInt a.pat .int) ∧
      (litArms allInts ++ [wildArm])[(litArms allInts).length]? = some wildArm ∧
      ¬((litArms allInts).length ∈ (checkMatch optInt .int (litArms allInts ++ [wildArm])).redundant ↔
        ∀ v, HasType optInt IsInt v .int → wildArm.pat.matches v = true →
          ∃ a ∈ (litArms allInts ++ [wildArm]).take (litArms allInts).length,
            a.guarded = false ∧ a.pat.matches v = true) := by
  refine ⟨optInt_inhabited, fun a ha => ?_, by simp, fun hiff => ?_⟩
  · rcases List.mem_append.mp ha with ha | ha
    · exact litArms_typed ha
    · rw [List.mem_singleton.mp ha]
      exact .wild
  · rw [List.take_left] at hiff
    have hred := hiff.mpr (fun v hv _ => litArms_match hv)
    simp only [checkMatch, mem_redundantArms, List.nil_append, Nat.zero_add] at hred
    obtain ⟨j, a, rfl, ha, hu⟩ := hred
    rw [List.take_left] at hu
    obtain rfl : a = wildArm := by simpa using ha.symm
    exact useful_litArms allInts (Nat.le_refl 1) hu

/-! ## Examples that denote too much or nothing -/

/-- `_` is the example for the integers other than `1`. -/
theorem missing_one : .wild ∈ (checkMatch optInt .int (litArms [1])).missing := by
  have hloop : usefulCtors optInt [[.lit (.int 1)]] .wild [] (optInt.shape .int) [] WITNESS_LIMIT
      [.lit (.int 1), .other] [] [] = ([], [.other]) := by
    simp [usefulCtors, useful, onlyWild, covers, Lit.eq, Pat.isWild, specializeRows, specialize, specializeHead,
      arity, optInt]
  rw [checkMatch, show armRows (litArms [1]) = [[.lit (.int 1)]] from rfl, useful_cons hloop]
  simp [useful, defaultRows, defaultWitnesses, Pat.isWild, wildWitness, wrap, arity, optInt]

/-- An enum whose only variant holds another value of it, and `Option` of it. -/
inductive OptLoop where
  | loop
  | option

def optLoop : CtorTable OptLoop where
  shape
    | .loop => .enum [⟨"Again", [.loop]⟩]
    | .option => .enum [⟨"Some", [.loop]⟩, ⟨"None", []⟩]

theorem not_hasType_loop (v : Value) : ¬HasType optLoop (fun _ _ => False) v .loop := by
  intro h
  match v, h with
  | .variant i args, .variant hshape hi hargs =>
    cases hshape
    match i with
    | 0 =>
      cases hi
      cases hargs with
      | cons hv _ => exact not_hasType_loop _ hv
    | i + 1 => simp at hi

/-- `None`. -/
def noneArm : Arm := ⟨.variant 1 [], false⟩

theorem missing_noneArm : .variant "Some" [.wild] ∈ (checkMatch optLoop .option [noneArm]).missing := by
  have hloop : usefulCtors optLoop [[.variant 1 []]] .wild [] (optLoop.shape .option) [] WITNESS_LIMIT
      [.variant 0, .variant 1] [] [] = ([], [.variant 0]) := by
    simp [usefulCtors, useful, onlyWild, covers, Pat.isWild, specializeRows, specialize, specializeHead, arity,
      optLoop]
  rw [checkMatch, show armRows [noneArm] = [[.variant 1 []]] from rfl, useful_cons hloop]
  simp [useful, defaultRows, defaultWitnesses, Pat.isWild, wildWitness, wrap, arity, optLoop]

/-- With `_` for every value, an example denotes a value that an arm matches; and an example for a type that
holds a type without values denotes nothing. -/
theorem not_missing_denotes :
    ((∀ a ∈ litArms [1], PatTyped optInt IsInt a.pat .int) ∧
      ∃ w ∈ (checkMatch optInt .int (litArms [1])).missing, ∃ v, Denotes optInt IsInt [] w .int v ∧
        ∃ a ∈ litArms [1], a.guarded = false ∧ a.pat.matches v = true) ∧
    ((∀ a ∈ [noneArm], PatTyped optLoop (fun _ _ => False) a.pat .option) ∧
      ∃ w ∈ (checkMatch optLoop .option [noneArm]).missing,
        ∀ v, ¬Denotes optLoop (fun _ _ => False) [] w .option v) := by
  have hone : IsInt .int (.lit (.int 1)) := ⟨1, by decide, by decide, rfl⟩
  refine ⟨⟨?_, _, missing_one, .lit (.int 1), .wild (.prim rfl hone) (by simp), ?_⟩,
    ⟨?_, _, missing_noneArm, fun v hv => ?_⟩⟩
  · intro a ha
    obtain ⟨n, hn, rfl⟩ := List.mem_map.mp ha
    obtain rfl := List.mem_singleton.mp hn
    exact .lit rfl hone
  · exact ⟨⟨.lit (.int 1), false⟩, by simp [litArms], rfl, rfl⟩
  · intro a ha
    obtain rfl := List.mem_singleton.mp ha
    exact .variant rfl rfl (by simp) (by simp) (by simp)
  · generalize hname : "Some" = name at hv
    cases hv with
    | @variant i _ _ _ _ _ hshape hi hargs =>
      cases hshape
      match i with
      | 0 =>
        cases hi
        cases hargs with
        | cons hw _ => exact not_hasType_loop _ hw.hasType
      | 1 =>
        cases hi
        simp at hname
      | i + 2 => simp at hi

end

/-! ## The recursion ends

`usefulFuel` is the recursion of `exhaustiveness.rs` as it stands, with as many calls below each other as there is
fuel. Enough fuel gives the result of `useful`. -/

section
variable {T : Type} (table : CtorTable T)

/-- The loop over the constructors, whose calls are made by `call`. -/
def usefulLoop (call : List Row → Row → List T → Nat → Option (List (List Witness))) (rows : List Row) (head : Pat)
    (qRest : Row) (shape : TyShape T) (tys : List T) (limit : Nat) (out : List (List Witness)) (missing : List Ctor) :
    List Ctor → Option (List (List Witness) × List Ctor)
  | [] => some (out, missing)
  | ctor :: ctors =>
      if out.length ≥ limit then some (out, missing)
      else if !covers head ctor then usefulLoop call rows head qRest shape tys limit out missing ctors
      else if head.isWild && onlyWild rows ctor then
        usefulLoop call rows head qRest shape tys limit out (missing ++ [ctor]) ctors
      else do
        let n := arity shape ctor
        let found ← call (specializeRows rows ctor n) (specialize head qRest n) (fieldTys shape ctor ++ tys)
          (limit - out.length)
        usefulLoop call rows head qRest shape tys limit (out ++ found.map (wrap shape ctor)) missing ctors

/-- `useful`, whose calls have one less fuel. Without fuel there is no result. -/
def usefulFuel : Nat → List Row → Row → List T → Nat → Option (List (List Witness))
  | 0, _, _, _, _ => none
  | _ + 1, rows, [], _, _ => some (if rows.isEmpty then [[]] else [])
  | _ + 1, _, _ :: _, [], _ => some []
  | n + 1, rows, head :: qRest, ty :: tys, limit => do
      let shape := table.shape ty
      let columnHasCtor := rows.any fun r => !(r.headD .wild).isWild
      let ctors := splitCtors shape (rows.map (·.headD .wild) ++ [head])
      let (out, missing) ← usefulLoop (usefulFuel n) rows head qRest shape tys limit [] [] ctors
      let out ←
        if !missing.isEmpty && out.length < limit then do
          let found ← usefulFuel n (defaultRows rows) qRest tys (limit - out.length)
          pure <| found.foldl (fun out ws =>
            if !columnHasCtor then out ++ [.wild :: ws]
            else out ++ missing.map fun ctor => wildWitness shape ctor :: ws) out
        else pure out
      pure (out.take limit)

end

variable {T : Type} {table : CtorTable T}

/-- Where the calls for the specialized queries give the results of `useful`, the loop is that of `useful`. -/
theorem usefulLoop_eq {call : List Row → Row → List T → Nat → Option (List (List Witness))} {rows : List Row}
    {head : Pat} {qRest : Row} {shape : TyShape T} {tys : List T} {limit : Nat} {ctors : List Ctor}
    (hcall : ∀ c ∈ ctors, IsSpecialized rows head c → ∀ limit,
      call (specializeRows rows c (arity shape c)) (specialize head qRest (arity shape c)) (fieldTys shape c ++ tys)
          limit =
        some (useful table (specializeRows rows c (arity shape c)) (specialize head qRest (arity shape c))
          (fieldTys shape c ++ tys) limit))
    (out : List (List Witness)) (missing : List Ctor) :
    usefulLoop call rows head qRest shape tys limit out missing ctors =
      some (usefulCtors table rows head qRest shape tys limit ctors out missing) := by
  induction ctors generalizing out missing with
  | nil => rw [usefulLoop, usefulCtors]
  | cons ctor ctors ih =>
    replace ih := ih fun c hc => hcall c (List.mem_cons_of_mem _ hc)
    rw [usefulLoop, usefulCtors]
    split_ifs with hge hcov hmiss
    · rfl
    · exact ih out missing
    · exact ih out (missing ++ [ctor])
    · have hs : IsSpecialized rows head ctor := ⟨by simpa using hcov, hmiss⟩
      simp only [hcall ctor List.mem_cons_self hs, Option.bind_eq_bind, Option.bind_some]
      exact ih _ missing

/-- The step of the recursion, once the calls give the results of `useful`. -/
theorem usefulFuel_succ {n : Nat} {rows : List Row} {head : Pat} {qRest : Row} {ty : T} {tys : List T}
    (hspec : ∀ c ∈ splitCtors (table.shape ty) (column rows head), IsSpecialized rows head c → ∀ limit,
      usefulFuel table n (specializeRows rows c (arity (table.shape ty) c))
          (specialize head qRest (arity (table.shape ty) c)) (fieldTys (table.shape ty) c ++ tys) limit =
        some (useful table (specializeRows rows c (arity (table.shape ty) c))
          (specialize head qRest (arity (table.shape ty) c)) (fieldTys (table.shape ty) c ++ tys) limit))
    (hdefault : ∀ limit, usefulFuel table n (defaultRows rows) qRest tys limit =
      some (useful table (defaultRows rows) qRest tys limit)) (limit : Nat) :
    usefulFuel table (n + 1) rows (head :: qRest) (ty :: tys) limit =
      some (useful table rows (head :: qRest) (ty :: tys) limit) := by
  have hloop := @usefulLoop_eq _ _ _ _ _ _ _ _ limit _ hspec [] []
  simp only [column] at hloop
  rw [usefulFuel, useful, hloop]
  simp only [hdefault, Option.bind_eq_bind, Option.bind_some, Option.pure_def]
  split <;> rfl

open Filter in
/-- With enough fuel there is a result, for every matrix, query and table, and it is that of `useful`. -/
theorem eventually_usefulFuel_eq (table : CtorTable T) (rows : List Row) (q : Row) (tys : List T) :
    ∀ᶠ n in atTop, ∀ limit, usefulFuel table n rows q tys limit = some (useful table rows q tys limit) := by
  match q, tys with
  | [], tys =>
    apply (eventually_ge_atTop 1).mono
    intro n hn limit
    obtain ⟨n, rfl⟩ := Nat.exists_eq_add_of_le' hn
    rw [usefulFuel, useful]
  | _ :: _, [] =>
    apply (eventually_ge_atTop 1).mono
    intro n hn limit
    obtain ⟨n, rfl⟩ := Nat.exists_eq_add_of_le' hn
    rw [usefulFuel, useful]
  | head :: qRest, ty :: tys =>
    have hspec : ∀ᶠ n in atTop, ∀ c ∈ splitCtors (table.shape ty) (column rows head), IsSpecialized rows head c →
        ∀ limit, usefulFuel table n (specializeRows rows c (arity (table.shape ty) c))
            (specialize head qRest (arity (table.shape ty) c)) (fieldTys (table.shape ty) c ++ tys) limit =
          some (useful table (specializeRows rows c (arity (table.shape ty) c))
            (specialize head qRest (arity (table.shape ty) c)) (fieldTys (table.shape ty) c ++ tys) limit) := by
      apply (eventually_all_finite (List.finite_toSet _)).mpr
      intro c _
      by_cases hs : IsSpecialized rows head c
      · have hdec := nodes_specialize_lt hs.2 qRest (arity (table.shape ty) c)
        exact (eventually_usefulFuel_eq table _ _ _).mono fun n hn _ => hn
      · exact Eventually.of_forall fun n h => absurd h hs
    have hdefault := eventually_usefulFuel_eq table (defaultRows rows) qRest tys
    have hstep : ∀ᶠ n in atTop, ∀ limit, usefulFuel table (n + 1) rows (head :: qRest) (ty :: tys) limit =
        some (useful table rows (head :: qRest) (ty :: tys) limit) := by
      filter_upwards [hspec, hdefault] with n hn hd
      exact usefulFuel_succ hn hd
    rw [← map_add_atTop_eq_nat 1, eventually_map]
    exact hstep
termination_by (nodesRows rows + nodesList q, q.length)
decreasing_by
  · exact .left _ _ hdec
  · refine Prod.Lex.right' _ ?_ (by simp)
    have := nodesRows_defaultRows_le rows
    simp only [nodesList]
    omega

/-- `useful` returns on every input. -/
theorem useful_terminates (table : CtorTable T) (rows : List Row) (q : Row) (tys : List T) (limit : Nat) :
    ∃ fuel, ∀ n, fuel ≤ n → usefulFuel table n rows q tys limit = some (useful table rows q tys limit) := by
  obtain ⟨fuel, h⟩ := Filter.eventually_atTop.mp (eventually_usefulFuel_eq table rows q tys)
  exact ⟨fuel, fun n hn => h n hn limit⟩

end Emela.Types
