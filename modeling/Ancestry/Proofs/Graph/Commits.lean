import Ancestry.Graph.Parents
import Ancestry.Proofs.Graph.Tables

/-!
# Commits and their parents

A commit can be decoded as soon as the run of extra edges its record points to comes to an end. Then
all its parents are named, since the run is counted out before any of them is asked for.
-/

namespace Ancestry

open Outcome

def Commit.ofRecord (position : Nat) (id : ObjectId) (r : Record) (parentCount : Nat) : Commit where
  position := position
  id := id
  tree := r.tree
  first := r.first
  second := r.second
  parentCount := parentCount
  edgeStart := r.edgeStart?
  generation := r.generation
  time := r.time

namespace Tables

variable {t : Tables} {start length position n : Nat}

/-- If the second slot of a record points to the extra edges, it points to one of them, and there is
one with the high bit from there on. -/
def EdgesClose (t : Tables) (r : Record) : Prop :=
  Record.flag ≤ r.second →
    r.second % Record.flag < t.edges.size ∧
      ∃ j e, r.second % Record.flag ≤ j ∧ t.edges[j]? = some e ∧ Record.flag ≤ e

theorem idAt_of_getElem? {id : ObjectId} (h : t.ids[position]? = some id) :
    t.idAt position = .ok id := by
  obtain ⟨hlt, rfl⟩ := Array.getElem?_eq_some_iff.mp h
  exact dif_pos hlt

theorem idAt_of_size_le (h : t.size ≤ position) :
    t.idAt position = .error (.noCommit position t.size) :=
  dif_neg (Nat.not_lt.mpr h)

theorem edgeAt_of_getElem? {e : Nat} (h : t.edges[position]? = some e) :
    t.edgeAt position = .ok e := by
  obtain ⟨hlt, rfl⟩ := Array.getElem?_eq_some_iff.mp h
  exact dif_pos hlt

theorem edgeAt_of_size_le (h : t.edges.size ≤ position) :
    t.edgeAt position = .error (.noEdge position t.edges.size) :=
  dif_neg (Nat.not_lt.mpr h)

theorem mem_drop_iff {l : List Nat} {e : Nat} : e ∈ l.drop n ↔ ∃ j, n ≤ j ∧ l[j]? = some e := by
  rw [List.mem_iff_getElem?]
  constructor
  · intro h
    rcases h with ⟨j, hj⟩
    rw [List.getElem?_drop] at hj
    exact ⟨n + j, Nat.le_add_right _ _, hj⟩
  · intro h
    rcases h with ⟨j, hle, hj⟩
    refine ⟨j - n, ?_⟩
    rw [List.getElem?_drop, Nat.add_sub_cancel' hle]
    exact hj

theorem exists_runLength_iff : (∃ length, t.runLength start = .ok length) ↔
    start < t.edges.size ∧ ∃ j e, start ≤ j ∧ t.edges[j]? = some e ∧ Record.flag ≤ e := by
  unfold runLength
  split
  · next hle => simp [Nat.not_lt.mpr hle]
  · next hlt =>
    rw [and_iff_right (by omega)]
    cases hfind : (t.edges.toList.drop start).findIdx? Record.isFlagged with
    | none =>
      simp only [reduceCtorEq, exists_false, false_iff]
      intro h
      rcases h with ⟨j, e, hle, he, hflag⟩
      have hmem := mem_drop_iff.mpr ⟨j, hle, by rwa [Array.getElem?_toList]⟩
      have := List.findIdx?_eq_none_iff.mp hfind e hmem
      simp [Record.isFlagged, hflag] at this
    | some last =>
      obtain ⟨hlast, hflag, _⟩ := List.findIdx?_eq_some_iff_getElem.mp hfind
      obtain ⟨j, hle, hj⟩ := mem_drop_iff.mp (List.getElem_mem hlast)
      rw [Array.getElem?_toList] at hj
      exact ⟨fun _ => ⟨j, _, hle, hj, of_decide_eq_true hflag⟩, fun _ => ⟨_, rfl⟩⟩

theorem runLength_le (h : t.runLength start = .ok length) : start + length ≤ t.edges.size := by
  unfold runLength at h
  split at h
  · cases h
  · split at h
    · next last hfind =>
      obtain ⟨hlast, _⟩ := List.findIdx?_eq_some_iff_getElem.mp hfind
      rw [List.length_drop, Array.length_toList] at hlast
      obtain rfl := Except.ok.inj h
      omega
    · cases h

theorem exists_parentCount_iff {r : Record} :
    (∃ count, t.parentCount r = .ok count) ↔ t.EdgesClose r := by
  rw [parentCount, Record.edgeStart?, EdgesClose, Record.isFlagged]
  by_cases hflag : Record.flag ≤ r.second
  · simp only [hflag, decide_true, if_true, map_eq_ok, forall_const]
    rw [← Record.unflag, ← exists_runLength_iff]
    constructor
    · intro h
      rcases h with ⟨_, length, hrun, _⟩
      exact ⟨length, hrun⟩
    · intro h
      rcases h with ⟨length, hrun⟩
      exact ⟨_, length, hrun, rfl⟩
  · simp [hflag]

theorem exists_record (h : position < t.size) :
    ∃ id r, t.ids[position]? = some id ∧ t.records[position]? = some r := by
  have hrecord : position < t.records.size := t.size_records ▸ h
  exact ⟨_, _, Array.getElem?_eq_getElem h, Array.getElem?_eq_getElem hrecord⟩

theorem commitAt_of_getElem? {id : ObjectId} {r : Record} (hid : t.ids[position]? = some id)
    (hr : t.records[position]? = some r) :
    t.commitAt position = (t.parentCount r).map (.ofRecord position id r) := by
  obtain ⟨hlt, rfl⟩ := Array.getElem?_eq_some_iff.mp hid
  obtain ⟨_, rfl⟩ := Array.getElem?_eq_some_iff.mp hr
  exact dif_pos hlt

theorem commitAt_of_size_le (h : t.size ≤ position) :
    t.commitAt position = .error (.noCommit position t.size) :=
  dif_neg (Nat.not_lt.mpr h)

theorem commitAt_eq_ok_iff {c : Commit} : t.commitAt position = .ok c ↔
    ∃ id r count, t.ids[position]? = some id ∧ t.records[position]? = some r ∧
      t.parentCount r = .ok count ∧ .ofRecord position id r count = c := by
  unfold commitAt
  by_cases h : position < t.ids.size
  · have hrecord : position < t.records.size := t.size_records ▸ h
    simp only [h, dif_pos, map_eq_ok, Array.getElem?_eq_getElem h,
      Array.getElem?_eq_getElem hrecord, Option.some.injEq]
    constructor
    · intro h
      rcases h with ⟨count, hcount, rfl⟩
      exact ⟨_, _, count, rfl, rfl, hcount, rfl⟩
    · intro h
      rcases h with ⟨_, _, count, rfl, rfl, hcount, rfl⟩
      exact ⟨count, hcount, rfl⟩
  · simp [h]

section ParentPosition

variable {c : Commit} {k : Nat}

theorem parentPosition_of_le (hn : c.parentCount ≤ n) :
    t.parentPosition c n = .error (.noParent n c.parentCount) := by
  unfold parentPosition
  rw [if_pos hn]

theorem parentPosition_zero (hn : 0 < c.parentCount) : t.parentPosition c 0 = .ok c.first := by
  rw [parentPosition, if_neg (Nat.not_le.mpr hn)]

theorem parentPosition_one (hn : 1 < c.parentCount) (hstart : c.edgeStart = none) :
    t.parentPosition c 1 = .ok c.second := by
  unfold parentPosition
  rw [if_neg (Nat.not_le.mpr hn), hstart]

theorem parentPosition_add_two (hn : k + 2 < c.parentCount) (hstart : c.edgeStart = none) :
    t.parentPosition c (k + 2) = .error (.noParent (k + 2) c.parentCount) := by
  unfold parentPosition
  rw [if_neg (Nat.not_le.mpr hn), hstart]

/-- Behind the first parent the extra edges are asked, if there are any. -/
theorem parentPosition_edge (hn : k + 1 < c.parentCount) (hstart : c.edgeStart = some start) :
    t.parentPosition c (k + 1) =
      if UInt32.size ≤ k then .error (.noParent (k + 1) c.parentCount)
      else if UInt32.size ≤ start + k then .error (.noEdge (UInt32.size - 1) t.edges.size)
      else (t.edgeAt (start + k)).map Record.unflag := by
  unfold parentPosition
  rw [if_neg (Nat.not_le.mpr hn), hstart]
  cases k <;> rfl

theorem parentPosition_succ (sound : t.Sound) (hn : k + 1 < c.parentCount)
    (hstart : c.edgeStart = some start) (hk : start + k < t.edges.size) :
    t.parentPosition c (k + 1) = .ok (Record.unflag t.edges[start + k]) := by
  have hsize := sound.edges_size_lt
  rw [parentPosition_edge hn hstart, if_neg (by omega), if_neg (by omega),
    edgeAt_of_getElem? (Array.getElem?_eq_getElem hk)]
  rfl

theorem exists_parentPosition (sound : t.Sound) (hc : t.commitAt position = .ok c)
    (hn : n < c.parentCount) : ∃ p, t.parentPosition c n = .ok p := by
  obtain ⟨id, r, count, _, _, hcount, rfl⟩ := commitAt_eq_ok_iff.mp hc
  have hslots : r.slotCount ≤ 2 := by
    unfold Record.slotCount
    split <;> split <;> omega
  have hn' : n < count := hn
  unfold parentCount at hcount
  match n, hstart : r.edgeStart? with
  | 0, _ => exact ⟨_, parentPosition_zero hn⟩
  | 1, none => exact ⟨_, parentPosition_one hn hstart⟩
  | n + 2, none =>
    rw [hstart] at hcount
    obtain rfl := Except.ok.inj hcount
    omega
  | k + 1, some start =>
    rw [hstart] at hcount
    obtain ⟨length, hrun, rfl⟩ := map_eq_ok.mp hcount
    have hfits := runLength_le hrun
    exact ⟨_, parentPosition_succ sound hn hstart (by omega)⟩

end ParentPosition

end Tables

end Ancestry
