import Ancestry.Proofs.History.Tables

/-!
# What is wrong with a revision

A revision can be written if its figures have the widths of their fields and its parents are known.
Where one cannot, placing the revisions in turn fails at the first, for the first thing that is wrong
with it. In ascending order the first is the one with the least id.
-/

namespace Ancestry

open Outcome

namespace Revision

/-- What can be written, where the ids of the history are known. -/
structure Whole (known : ObjectId → Prop) (r : Revision) : Prop where
  generation_le : r.generation ≤ Record.maxGeneration
  time_le : r.time ≤ Record.maxTime
  parents_known : ∀ p ∈ r.parents, known p

/-- What is reported of a revision that cannot be written. -/
inductive Fault (known : ObjectId → Prop) (r : Revision) : GraphError → Prop
  | generation (large : Record.maxGeneration < r.generation) :
      Fault known r (.generationTooLarge r.generation)
  | time (generation_le : r.generation ≤ Record.maxGeneration) (large : Record.maxTime < r.time) :
      Fault known r (.timeTooLarge r.time)
  | parent (generation_le : r.generation ≤ Record.maxGeneration) (time_le : r.time ≤ Record.maxTime)
      (p : ObjectId) (first : IsFirst (¬ known ·) r.parents p) :
      Fault known r (.unknownParent r.id p)

variable {known : ObjectId → Prop} {table : ObjectId.Table} {ids : List ObjectId} {id : ObjectId}
variable {r : Revision} {revisions : List Revision} {start : Nat} {e : GraphError}

theorem Fault.not_whole (fault : r.Fault known e) : ¬ r.Whole known := by
  intro whole
  cases fault with
  | generation large => exact absurd whole.generation_le (Nat.not_le.mpr large)
  | time _ large => exact absurd whole.time_le (Nat.not_le.mpr large)
  | parent _ _ p first => exact first.holds (whole.parents_known p first.mem)

section Repeats

variable (hle : ids.Pairwise (· ≤ ·))
include hle

theorem firstRepeat_eq_none_iff_nodup : firstRepeat ids = none ↔ ids.Nodup := by
  rw [firstRepeat_eq_none_iff hle]
  constructor
  · intro hlt
    exact hlt.imp fun hab => (ObjectId.lt_iff_le_and_ne.mp hab).2
  · intro hne
    exact (hle.and hne).imp ObjectId.lt_iff_le_and_ne.mpr

/-- The id that is found to come twice is the least of all that do. -/
theorem least_of_firstRepeat (hrepeat : firstRepeat ids = some id) :
    1 < ids.count id ∧ ∀ other, 1 < ids.count other → id ≤ other := by
  fun_induction firstRepeat ids with
  | case1 a rest =>
    obtain rfl := Option.some.inj hrepeat
    constructor
    · simp
    · intro other htwice
      have hmem : other ∈ a :: a :: rest := List.count_pos_iff.mp (Nat.lt_of_succ_lt htwice)
      rcases List.mem_cons.mp hmem with rfl | hrest
      · exact Nat.le_refl _
      · exact (List.pairwise_cons.mp hle).1 other hrest
  | case2 a b rest hne ih =>
    obtain ⟨ha, htail⟩ := List.pairwise_cons.mp hle
    obtain ⟨htwice, hleast⟩ := ih htail hrepeat
    refine ⟨Nat.lt_of_lt_of_le htwice List.count_le_count_cons, ?_⟩
    intro other hother
    -- The head comes once only, being less than all that follow.
    have hfresh : a ∉ b :: rest := by
      intro hmem
      rcases List.mem_cons.mp hmem with heq | hmem
      · exact hne heq
      · have hba := (List.pairwise_cons.mp htail).1 a hmem
        exact hne (ObjectId.ext_iff_number.mpr (Nat.le_antisymm (ha b List.mem_cons_self) hba))
    rw [List.count_cons] at hother
    split at hother
    · next heq =>
      obtain rfl := eq_of_beq heq
      rw [List.count_eq_zero.mpr hfresh] at hother
      exact absurd hother (Nat.lt_irrefl 1)
    · exact hleast other hother
  | case3 => cases hrepeat

theorem firstRepeat_eq_some_iff : firstRepeat ids = some id ↔
    1 < ids.count id ∧ ∀ other, 1 < ids.count other → id ≤ other := by
  refine ⟨least_of_firstRepeat hle, ?_⟩
  rintro ⟨htwice, hleast⟩
  cases hrepeat : firstRepeat ids with
  | none =>
    have honce := List.nodup_iff_count.mp ((firstRepeat_eq_none_iff_nodup hle).mp hrepeat) id
    omega
  | some other =>
    obtain ⟨hother, hbelow⟩ := least_of_firstRepeat hle hrepeat
    have hnumber := Nat.le_antisymm (hbelow id htwice) (hleast other hother)
    rw [ObjectId.ext_iff_number.mpr hnumber]

end Repeats

/-- In ascending order the first is the one with the least id. -/
theorem isFirst_iff_least {p : Revision → Prop}
    (hrise : revisions.Pairwise fun a b => a.id < b.id) :
    IsFirst p revisions r ↔ r ∈ revisions ∧ p r ∧ ∀ s ∈ revisions, s.id < r.id → ¬ p s := by
  constructor
  · rintro ⟨before, after, rfl, hbefore, hr⟩
    refine ⟨List.mem_append_right before List.mem_cons_self, hr, ?_⟩
    intro s hs hlt
    obtain ⟨_, hrest, _⟩ := List.pairwise_append.mp hrise
    rcases List.mem_append.mp hs with hs | hs
    · exact hbefore s hs
    · rcases List.mem_cons.mp hs with rfl | hs
      · exact absurd hlt (ObjectId.lt_irrefl _)
      · have hgt := (List.pairwise_cons.mp hrest).1 s hs
        exact absurd (ObjectId.lt_trans hlt hgt) (ObjectId.lt_irrefl _)
  · rintro ⟨hmem, hr, hleast⟩
    obtain ⟨before, after, rfl⟩ := List.append_of_mem hmem
    obtain ⟨_, _, hcross⟩ := List.pairwise_append.mp hrise
    refine ⟨before, after, rfl, ?_, hr⟩
    intro s hs
    exact hleast s (List.mem_append_left _ hs) (hcross s hs r List.mem_cons_self)

section Table

variable (hsorted : table.Ascending)
include hsorted

theorem positionOf_eq_none_iff : positionOf table id = none ↔ id ∉ table := by
  constructor
  · intro hnone hmem
    obtain ⟨i, hi⟩ := Array.getElem?_of_mem hmem
    cases hnone.symm.trans (positionOf_of_getElem? hsorted hi)
  · intro hmissing
    cases hposition : positionOf table id with
    | none => rfl
    | some position =>
      exact absurd (Array.mem_of_getElem? (getElem?_of_positionOf hposition)) hmissing

variable (hknown : ∀ id, known id ↔ id ∈ table)
include hknown

/-- The parents have places unless one is unknown, and the first such is reported. -/
theorem parentPositions_eq_error_iff : r.parentPositions table = .error e ↔
    ∃ p, IsFirst (¬ known ·) r.parents p ∧ .unknownParent r.id p = e := by
  apply mapM_eq_error_iff
  · intro p hp
    cases hposition : positionOf table p with
    | none =>
      have hmissing := (positionOf_eq_none_iff hsorted).mp hposition
      exact absurd (mt (hknown p).mp hmissing) hp
    | some position => exact ⟨position, rfl⟩
  · intro p hp
    rw [(positionOf_eq_none_iff hsorted).mpr (mt (hknown p).mpr hp)]

theorem fits_iff_whole : r.Fits table ↔ r.Whole known := by
  constructor
  · rintro ⟨hgeneration, htime, ps, hps⟩
    refine ⟨hgeneration, htime, ?_⟩
    intro p hp
    have hplaces : some p ∈ ps.map (table[·]?) := by
      rw [map_getElem?_of_parentPositions hps]
      exact List.mem_map.mpr ⟨p, hp, rfl⟩
    obtain ⟨i, _, hi⟩ := List.mem_map.mp hplaces
    exact (hknown p).mpr (Array.mem_of_getElem? hi)
  · intro whole
    refine ⟨whole.generation_le, whole.time_le, ?_⟩
    cases hps : r.parentPositions table with
    | ok ps => exact ⟨ps, rfl⟩
    | error e =>
      obtain ⟨p, first, _⟩ := (parentPositions_eq_error_iff hsorted hknown).mp hps
      exact absurd whole (Fault.parent whole.generation_le whole.time_le p first).not_whole

theorem place_eq_error_iff (hroom : r.edgeCount = 0 ∨ start < Record.flag) :
    r.place table start = .error e ↔ r.Fault known e := by
  constructor
  · intro he
    have hwhole : ¬ r.Whole known := by
      intro whole
      obtain ⟨_, _, hplace⟩ := exists_place ((fits_iff_whole hsorted hknown).mpr whole) hroom
      cases he.symm.trans hplace
    unfold place at he
    split at he
    · next hlarge =>
      obtain rfl := Except.error.inj he
      exact .generation hlarge
    · next hgeneration =>
      split at he
      · next hlarge =>
        obtain rfl := Except.error.inj he
        exact .time (Nat.not_lt.mp hgeneration) hlarge
      · next htime =>
        rcases bind_eq_error.mp he with hparents | ⟨ps, hps, _⟩
        · obtain ⟨p, first, rfl⟩ := (parentPositions_eq_error_iff hsorted hknown).mp hparents
          exact .parent (Nat.not_lt.mp hgeneration) (Nat.not_lt.mp htime) p first
        · have fits : r.Fits table := ⟨Nat.not_lt.mp hgeneration, Nat.not_lt.mp htime, ps, hps⟩
          exact absurd ((fits_iff_whole hsorted hknown).mp fits) hwhole
  · intro fault
    cases fault with
    | generation hlarge => exact if_pos hlarge
    | time hgeneration hlarge =>
      rw [place, if_neg (Nat.not_lt.mpr hgeneration)]
      exact if_pos hlarge
    | parent hgeneration htime p first =>
      rw [place, if_neg (Nat.not_lt.mpr hgeneration), if_neg (Nat.not_lt.mpr htime)]
      apply bind_eq_error.mpr
      exact .inl ((parentPositions_eq_error_iff hsorted hknown).mpr ⟨p, first, rfl⟩)

/-- Placing fails at the first revision that cannot be written, for what is wrong with it. -/
theorem placeAll_eq_error_iff (hroom : start + edgeTotal revisions ≤ Record.flag) :
    placeAll table start revisions = .error e ↔
      ∃ r, IsFirst (¬ Whole known ·) revisions r ∧ r.Fault known e := by
  -- Over the revisions; those that are placed leave room for the edges of the rest.
  induction revisions generalizing start with
  | nil =>
    constructor
    · intro he
      cases he
    · rintro ⟨r, first, _⟩
      exact absurd first not_isFirst_nil
  | cons r rest ih =>
    rw [edgeTotal] at hroom
    have hfirst : r.edgeCount = 0 ∨ start < Record.flag := by omega
    simp only [isFirst_cons_iff, Classical.not_not]
    by_cases whole : r.Whole known
    · obtain ⟨record, run, hplace⟩ := exists_place ((fits_iff_whole hsorted hknown).mpr whole) hfirst
      obtain ⟨_, _, placed⟩ := placed_of_place hplace
      have hothers : start + run.length + edgeTotal rest ≤ Record.flag := by
        rw [placed.length_run]
        omega
      have hstep : placeAll table start (r :: rest) = .error e ↔
          placeAll table (start + run.length) rest = .error e := by
        rw [placeAll, hplace]
        change (placeAll table (start + run.length) rest >>= _) = .error e ↔ _
        apply bind_eq_error_of_ok
        rintro ⟨records, edges⟩ _ ⟨⟩
      rw [hstep, ih hothers]
      simp [whole]
    · have hstep : placeAll table start (r :: rest) = .error e ↔ r.place table start = .error e := by
        rw [placeAll, bind_eq_error]
        apply or_iff_left
        rintro ⟨⟨record, run⟩, hplace, _⟩
        obtain ⟨ps, _, placed⟩ := placed_of_place hplace
        have fits : r.Fits table := ⟨placed.generation_le, placed.time_le, ps, placed.parents⟩
        exact whole ((fits_iff_whole hsorted hknown).mp fits)
      rw [hstep, place_eq_error_iff hsorted hknown hfirst]
      constructor
      · intro fault
        exact ⟨r, .inl ⟨whole, rfl⟩, fault⟩
      · rintro ⟨s, ⟨_, rfl⟩ | ⟨hwhole, _⟩, fault⟩
        · exact fault
        · exact absurd hwhole whole

end Table

end Revision

end Ancestry
