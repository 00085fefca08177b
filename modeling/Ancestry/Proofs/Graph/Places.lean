import Ancestry.Proofs.Graph.Parents
import Ancestry.Proofs.Graph.Stored

/-!
# Where parents are read

The parents of a record are counted by looking which slots are in use, and resolved by looking at
fixed places. Both speak of the same parents unless the first slot is empty and the second in use.
Then the empty slot is handed out as the first parent, and the last parent is out of reach.
-/

namespace Ancestry

inductive Place
  | firstSlot
  | secondSlot
  | edge (position : Nat)

namespace Commit

def place? (c : Commit) (n : Nat) : Option Place :=
  if c.parentCount ≤ n then none
  else
    match n, c.edgeStart with
    | 0, _ => some .firstSlot
    | 1, none => some .secondSlot
    | _ + 2, none => none
    | k + 1, some start => some (.edge (start + k))

theorem place?_eq_some_iff {c : Commit} {n : Nat} {place : Place} : c.place? n = some place ↔
    n < c.parentCount ∧ (n = 0 ∧ place = .firstSlot ∨
      n = 1 ∧ c.edgeStart = none ∧ place = .secondSlot ∨
      ∃ k start, n = k + 1 ∧ c.edgeStart = some start ∧ place = .edge (start + k)) := by
  unfold place?
  split
  · next hle => simp [Nat.not_lt.mpr hle]
  · next hlt =>
    rw [and_iff_right (Nat.not_le.mp hlt)]
    match n, hstart : c.edgeStart with
    | 0, _ => simp [eq_comm]
    | 1, none => simp [eq_comm]
    | n + 2, none => simp
    | 1, some start => simp [eq_comm]
    | n + 2, some start => simp [eq_comm]

end Commit

namespace Tables

def readPlace (t : Tables) (c : Commit) : Place → Option Nat
  | .firstSlot => some c.first
  | .secondSlot => some c.second
  | .edge j => t.edges[j]?.map Record.unflag

/-- To resolve a parent is to read its place. -/
theorem toOption_parentPosition {t : Tables} (sound : t.Sound) (c : Commit) (n : Nat) :
    (t.parentPosition c n).toOption = (c.place? n).bind (t.readPlace c) := by
  by_cases hle : c.parentCount ≤ n
  · have hnone : c.place? n = none := if_pos hle
    rw [parentPosition_of_le hle, hnone]
    rfl
  · have hlt := Nat.not_le.mp hle
    match n, hstart : c.edgeStart with
    | 0, _ =>
      rw [parentPosition_zero hlt, Commit.place?_eq_some_iff.mpr ⟨hlt, .inl ⟨rfl, rfl⟩⟩]
      rfl
    | 1, none =>
      rw [parentPosition_one hlt hstart,
        Commit.place?_eq_some_iff.mpr ⟨hlt, .inr (.inl ⟨rfl, hstart, rfl⟩)⟩]
      rfl
    | n + 2, none =>
      have hnone : c.place? (n + 2) = none := by
        unfold Commit.place?
        rw [if_neg hle, hstart]
      rw [parentPosition_add_two hlt hstart, hnone]
      rfl
    | k + 1, some start =>
      rw [Commit.place?_eq_some_iff.mpr ⟨hlt, .inr (.inr ⟨k, start, rfl, hstart, rfl⟩)⟩]
      change _ = t.edges[start + k]?.map Record.unflag
      by_cases hedge : start + k < t.edges.size
      · rw [parentPosition_succ sound hlt hstart hedge, Array.getElem?_eq_getElem hedge]
        rfl
      · have hsize := Nat.not_lt.mp hedge
        rw [Array.getElem?_eq_none hsize, parentPosition_edge hlt hstart, edgeAt_of_size_le hsize]
        split
        · rfl
        · split <;> rfl

end Tables

namespace Graph

/-- The count of the parents of the commit at `i` and the places read for them agree on what a
parent is: no empty slot is read, and of the run of edges each one is read for one ordinal. -/
structure Agrees (g : Graph) (i : Nat) (c : Commit) : Prop where
  first_in_use : ∀ n, c.place? n = some .firstSlot → g.firstSlot i ≠ Record.noParent
  second_in_use : ∀ n, c.place? n = some .secondSlot → g.secondSlot i ≠ Record.noParent
  edges_once : ∀ last, Record.flag ≤ g.secondSlot i →
    g.EndsRun (g.secondSlot i % Record.flag) last →
      ∀ j, g.secondSlot i % Record.flag ≤ j → j ≤ last →
        ∃ n < c.parentCount, ∀ m, c.place? m = some (.edge j) ↔ m = n

section Decoded

variable {file : Bytes} {g : Graph} {i : Nat} {c : Commit}
variable (hfile : file.length < Format.sizeLimit) (h : Graph.parse file = .ok g)
variable (hc : g.tables.commitAt i = .ok c)
include hfile h hc

theorem place?_zero (hsecond : g.secondSlot i ≠ Record.noParent) :
    c.place? 0 = some .firstSlot := by
  refine Commit.place?_eq_some_iff.mpr ⟨?_, .inl ⟨rfl, rfl⟩⟩
  rcases Nat.lt_or_ge (g.secondSlot i) Record.flag with hinline | hpointer
  · obtain ⟨_, hcount⟩ := parentCount_of_inline hfile h hc hinline
    rw [if_neg hsecond] at hcount
    omega
  · obtain ⟨_, last, hends, hcount⟩ := parentCount_of_pointer hfile h hc hpointer
    have := hends.start_le
    omega

theorem second_in_use_of_place? {n : Nat} (hn : c.place? n = some .secondSlot) :
    g.firstSlot i = Record.noParent ∨ g.secondSlot i ≠ Record.noParent := by
  obtain ⟨hlt, hplace⟩ := Commit.place?_eq_some_iff.mp hn
  rcases hplace with ⟨_, hplace⟩ | ⟨rfl, _, _⟩ | ⟨_, _, _, _, hplace⟩
  · cases hplace
  · by_cases hfirst : g.firstSlot i = Record.noParent
    · exact .inl hfirst
    · refine .inr fun hsecond => ?_
      have hcount := parentCount_of_second_empty hfile h hc hsecond
      rw [if_neg hfirst] at hcount
      omega
  · cases hplace

/-- If the first slot holds a parent, the ordinals behind it go through the run edge by edge. -/
theorem exists_ordinal (hfirst : g.firstSlot i ≠ Record.noParent) {last j : Nat}
    (hpointer : Record.flag ≤ g.secondSlot i)
    (hends : g.EndsRun (g.secondSlot i % Record.flag) last)
    (hstart : g.secondSlot i % Record.flag ≤ j) (hlast : j ≤ last) :
    ∃ n < c.parentCount, ∀ m, c.place? m = some (.edge j) ↔ m = n := by
  obtain ⟨hedges, last', hends', hcount⟩ := parentCount_of_pointer hfile h hc hpointer
  obtain rfl := hends.unique hends'
  rw [if_neg hfirst] at hcount
  refine ⟨j - g.secondSlot i % Record.flag + 1, by omega, fun m => ?_⟩
  rw [Commit.place?_eq_some_iff]
  constructor
  · rintro ⟨_, ⟨_, hplace⟩ | ⟨_, _, hplace⟩ | ⟨k, start, rfl, hk, hplace⟩⟩
    · cases hplace
    · cases hplace
    · obtain rfl := Option.some.inj (hedges.symm.trans hk)
      obtain rfl := Place.edge.inj hplace
      omega
  · rintro rfl
    exact ⟨by omega, .inr (.inr ⟨_, _, rfl, hedges, congrArg Place.edge (by omega)⟩)⟩

/-- The count and the places agree just where the first slot holds a parent or both are empty. -/
theorem agrees_iff_first_in_use :
    (∀ n, (g.tables.parentPosition c n).toOption = (c.place? n).bind (g.tables.readPlace c)) ∧
      (g.Agrees i c ↔ g.firstSlot i ≠ Record.noParent ∨ g.secondSlot i = Record.noParent) := by
  refine ⟨Tables.toOption_parentPosition (sound_of_parse hfile h) c, ?_, ?_⟩
  · intro agrees
    by_cases hsecond : g.secondSlot i = Record.noParent
    · exact .inr hsecond
    · exact .inl (agrees.first_in_use 0 (place?_zero hfile h hc hsecond))
  · intro hslots
    by_cases hfirst : g.firstSlot i = Record.noParent
    · have hsecond := hslots.resolve_left (not_not_intro hfirst)
      have hcount := parentCount_of_second_empty hfile h hc hsecond
      rw [if_pos hfirst] at hcount
      have hnone (n : Nat) : c.place? n = none := if_pos (by omega)
      refine ⟨fun n hn => ?_, fun n hn => ?_, fun last hpointer => ?_⟩
      · cases (hnone n).symm.trans hn
      · cases (hnone n).symm.trans hn
      · rw [hsecond] at hpointer
        exact absurd hpointer (Nat.not_le.mpr Record.noParent_lt_flag)
    · exact ⟨fun _ _ => hfirst,
        fun n hn => (second_in_use_of_place? hfile h hc hn).resolve_left hfirst,
        fun last hpointer hends j hstart hlast =>
          exists_ordinal hfile h hc hfirst hpointer hends hstart hlast⟩

end Decoded

/-- In the merge of the sample each of the two edges is read for one ordinal. -/
theorem agrees_sampleGraph : History.sampleFile.length < Format.sizeLimit ∧
    Graph.parse History.sampleFile = .ok History.sampleGraph ∧
    ∃ c, History.sampleGraph.tables.commitAt 2 = .ok c ∧ c.edgeStart = some 0 ∧
      History.sampleGraph.Agrees 2 c := by
  have hfile := History.length_sampleFile
  have hparse := History.parse_sampleFile
  refine ⟨hfile, hparse, _, commitAt_sampleGraph, rfl, ?_⟩
  apply (agrees_iff_first_in_use hfile hparse commitAt_sampleGraph).2.mpr
  rw [← (slots_of_commitAt hfile hparse commitAt_sampleGraph).1]
  exact .inl (by decide)

end Graph

namespace Tables

/-- Four commits, the last of them a merge of the others. Its first slot has been emptied, while the
second still points to the edges that name its other parents. -/
def vacated : Tables where
  fanout := Vector.ofFn fun b => min b.val 4
  ids := #[.ofNat 0x0100000000000000000000000000000000000000,
    .ofNat 0x0200000000000000000000000000000000000000,
    .ofNat 0x0300000000000000000000000000000000000000,
    .ofNat 0x0400000000000000000000000000000000000000]
  records := #[⟨.zero, Record.noParent, Record.noParent, 0, 0⟩,
    ⟨.zero, Record.noParent, Record.noParent, 0, 0⟩,
    ⟨.zero, Record.noParent, Record.noParent, 0, 0⟩, ⟨.zero, Record.noParent, Record.flag, 0, 0⟩]
  edges := #[1, Record.flag + 2]
  size_records := rfl

theorem sound_vacated : vacated.Sound where
  fanout_rises a b hab := by
    have hcount (b : Fin 256) : vacated.countThrough b = min b.val 4 := Vector.getElem_ofFn b.isLt
    have hle : a.val ≤ b.val := hab
    rw [hcount, hcount]
    omega
  fanout_last := Vector.getElem_ofFn (255 : Fin 256).isLt
  ids_ascending := by
    change List.Pairwise _ _
    decide
  size_pos := by decide
  size_lt := by decide
  records_fit r hr := by
    simp only [vacated, List.mem_toArray, List.mem_cons, List.not_mem_nil, or_false] at hr
    rcases hr with rfl | rfl | rfl | rfl <;> constructor <;> decide
  edges_lt e he := by
    simp only [vacated, List.mem_toArray, List.mem_cons, List.not_mem_nil, or_false] at he
    rcases he with rfl | rfl <;> decide
  edges_size_lt := by decide

end Tables

namespace Graph

def vacatedGraph : Graph := Format.graph Tables.vacated.file Tables.vacated.layout

/-- The emptied slot counts for nothing, but it is read for the first parent all the same. So the
edge at the end of the run is read for none. -/
theorem not_agrees_vacatedGraph : Tables.vacated.file.length < Format.sizeLimit ∧
    Graph.parse Tables.vacated.file = .ok vacatedGraph ∧
    ∃ c, vacatedGraph.tables.commitAt 3 = .ok c ∧ c.parentCount = 2 ∧
      vacatedGraph.tables.parentPosition c 0 = .ok Record.noParent ∧ vacatedGraph.EndsRun 0 1 ∧
      (∀ n, c.place? n ≠ some (.edge 1)) ∧ ¬ vacatedGraph.Agrees 3 c := by
  have sound := Tables.sound_vacated
  have hfile := sound.length_file_lt
  have hparse : Graph.parse Tables.vacated.file = .ok vacatedGraph := sound.parse_file
  have htables : vacatedGraph.tables = Tables.vacated := sound.ofLayout_file
  have hcommit : vacatedGraph.tables.commitAt 3 =
      .ok (.ofRecord 3 (.ofNat 0x0400000000000000000000000000000000000000)
        ⟨.zero, Record.noParent, Record.flag, 0, 0⟩ 2) := by
    rw [htables]
    rfl
  have hrun : vacatedGraph.tables.runLength 0 = .ok 2 := by
    rw [htables]
    rfl
  obtain ⟨hfirst, hsecond⟩ := slots_of_commitAt hfile hparse hcommit
  obtain ⟨last, hends, hlast⟩ := exists_endsRun hfile hparse hrun
  obtain rfl : last = 1 := by omega
  refine ⟨hfile, hparse, _, hcommit, rfl, ?_, hends, fun n hn => ?_, fun agrees => ?_⟩
  · rw [htables]
    rfl
  · obtain ⟨hlt, ⟨_, hplace⟩ | ⟨_, _, hplace⟩ | ⟨k, start, rfl, hstart, hplace⟩⟩ :=
      Commit.place?_eq_some_iff.mp hn
    · cases hplace
    · cases hplace
    · obtain rfl : 0 = start := Option.some.inj hstart
      have hk : 1 = 0 + k := Place.edge.inj hplace
      change k + 1 < 2 at hlt
      omega
  · have hused : vacatedGraph.secondSlot 3 ≠ Record.noParent := by
      rw [← hsecond]
      decide
    exact agrees.first_in_use 0 (place?_zero hfile hparse hcommit hused) hfirst.symm

end Graph

end Ancestry
