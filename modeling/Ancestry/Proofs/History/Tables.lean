import Ancestry.History.Encode
import Ancestry.Proofs.History.Placement

/-!
# The tables of a history

What is computed of the revisions before anything is written. The ids are sorted and none comes
twice. The counts of the fan-out rise, and put each id in the bucket of its first byte. Each revision
has its own part of the extra edges, between those of the revisions before and after it.
-/

namespace Ancestry

open Outcome

namespace Revision

variable {revisions : List Revision} {ids : List ObjectId} {table : ObjectId.Table}

theorem sort_perm (revisions : List Revision) : (sort revisions).Perm revisions :=
  List.mergeSort_perm _ _

theorem pairwise_sort (revisions : List Revision) :
    ((sort revisions).map Revision.id).Pairwise (· ≤ ·) := by
  rw [List.pairwise_map]
  refine List.Pairwise.imp (fun hle => of_decide_eq_true hle) ?_
  apply List.pairwise_mergeSort
  · intro a b c hab hbc
    exact decide_eq_true (ObjectId.le_trans (of_decide_eq_true hab) (of_decide_eq_true hbc))
  · intro a b
    simpa using ObjectId.le_total a.id b.id

/-- There is only one way to put revisions with different ids in order. -/
theorem sort_eq_of_perm {sorted : List Revision} (h : revisions.Perm sorted)
    (hsorted : sorted.Pairwise fun a b => a.id < b.id) : sort revisions = sorted := by
  have hsame : ∀ a ∈ sorted, ∀ b ∈ sorted, a.id = b.id → a = b := by
    intro a ha b hb heq
    obtain ⟨i, hi, rfl⟩ := List.mem_iff_getElem.mp ha
    obtain ⟨j, hj, rfl⟩ := List.mem_iff_getElem.mp hb
    have hlt := List.pairwise_iff_getElem.mp hsorted
    rcases Nat.lt_trichotomy i j with hij | rfl | hij
    · exact absurd (hlt i j hi hj hij) (heq ▸ ObjectId.lt_irrefl _)
    · rfl
    · exact absurd (hlt j i hj hi hij) (heq ▸ ObjectId.lt_irrefl _)
  refine List.Perm.eq_of_pairwise ?_ (List.pairwise_map.mp (pairwise_sort revisions))
    (hsorted.imp fun hab => (ObjectId.lt_iff_le_and_ne.mp hab).1) ((sort_perm revisions).trans h)
  intro a b ha hb hab hba
  have ha' := h.mem_iff.mp ((sort_perm revisions).mem_iff.mp ha)
  exact hsame a ha' b hb (ObjectId.ext_iff_number.mpr (Nat.le_antisymm hab hba))

/-- A sorted list repeats an id only where it stands next to itself. -/
theorem firstRepeat_eq_none_iff (hle : ids.Pairwise (· ≤ ·)) :
    firstRepeat ids = none ↔ ids.Pairwise (· < ·) := by
  fun_induction firstRepeat ids with
  | case1 a rest =>
    simp only [reduceCtorEq, false_iff]
    intro h
    exact ObjectId.lt_irrefl a ((List.pairwise_cons.mp h).1 a List.mem_cons_self)
  | case2 a b rest hne ih =>
    obtain ⟨ha, htail⟩ := List.pairwise_cons.mp hle
    rw [ih htail, List.pairwise_cons (a := a)]
    refine ⟨fun hrest => ⟨?_, hrest⟩, And.right⟩
    have hab : a < b := ObjectId.lt_iff_le_and_ne.mpr ⟨ha b List.mem_cons_self, hne⟩
    intro c hc
    rcases List.mem_cons.mp hc with rfl | hc
    · exact hab
    · exact ObjectId.lt_trans hab ((List.pairwise_cons.mp hrest).1 c hc)
  | case3 ids hshort =>
    match ids with
    | [] => simp
    | [a] => simp
    | a :: b :: rest => exact absurd rfl (hshort a b rest)

theorem getElem?_of_positionOf {id : ObjectId} {position : Nat}
    (h : positionOf table id = some position) : table[position]? = some id := by
  unfold positionOf at h
  split at h
  · next hsearch =>
    obtain rfl := Option.some.inj h
    exact (ObjectId.Table.search_hit hsearch).2.2
  · cases h

theorem positionOf_of_getElem? {id : ObjectId} {position : Nat} (hsorted : table.Ascending)
    (h : table[position]? = some id) : positionOf table id = some position := by
  rw [positionOf, hsorted.search_all h]

theorem map_getElem?_of_parentPositions {r : Revision} {ps : List Nat}
    (h : r.parentPositions table = .ok ps) : ps.map (table[·]?) = r.parents.map some := by
  rw [parentPositions, mapM_eq_ok] at h
  generalize r.parents = parents at h
  induction parents generalizing ps with
  | nil =>
    cases ps with
    | nil => rfl
    | cons p ps => cases h
  | cons parent parents ih =>
    cases ps with
    | nil => cases h
    | cons p ps =>
      rw [List.map_cons, List.map_cons, List.cons.injEq] at h
      obtain ⟨hhead, htail⟩ := h
      rw [List.map_cons, List.map_cons, ih htail]
      congr 1
      split at hhead
      · next position hposition =>
        obtain rfl := Except.ok.inj hhead
        exact getElem?_of_positionOf hposition
      · cases hhead

/-- In a sorted table there are no other places for them. -/
theorem parentPositions_of_map_getElem? {r : Revision} {ps : List Nat} (hsorted : table.Ascending)
    (h : ps.map (table[·]?) = r.parents.map some) : r.parentPositions table = .ok ps := by
  rw [parentPositions, mapM_eq_ok]
  generalize r.parents = parents at h
  induction parents generalizing ps with
  | nil =>
    cases ps with
    | nil => rfl
    | cons p ps => cases h
  | cons parent parents ih =>
    cases ps with
    | nil => cases h
    | cons p ps =>
      rw [List.map_cons, List.map_cons, List.cons.injEq] at h
      obtain ⟨hhead, htail⟩ := h
      rw [List.map_cons, List.map_cons, ih htail, positionOf_of_getElem? hsorted hhead]

theorem lt_size_of_parentPositions {r : Revision} {ps : List Nat}
    (h : r.parentPositions table = .ok ps) : ∀ p ∈ ps, p < table.size := by
  intro p hp
  have hmem : table[p]? ∈ r.parents.map some := by
    rw [← map_getElem?_of_parentPositions h]
    exact List.mem_map.mpr ⟨p, hp, rfl⟩
  obtain ⟨id, _, hid⟩ := List.mem_map.mp hmem
  exact (Array.getElem?_eq_some_iff.mp hid.symm).1

def edgeCount (r : Revision) : Nat :=
  if r.parents.length < 3 then 0 else r.parents.length - 1

def edgeTotal : List Revision → Nat
  | [] => 0
  | r :: rest => r.edgeCount + edgeTotal rest

theorem edgeTotal_eq_of_perm {rs ss : List Revision} (h : rs.Perm ss) :
    edgeTotal rs = edgeTotal ss := by
  induction h with
  | nil => rfl
  | cons r _ ih => rw [edgeTotal, edgeTotal, ih]
  | swap r s rest =>
    simp only [edgeTotal]
    omega
  | trans _ _ ihr ihs => exact ihr.trans ihs

theorem edgeTotal_eq_foldr (rs : List Revision) :
    edgeTotal rs = rs.foldr (fun r need => r.edgeCount + need) 0 := by
  induction rs with
  | nil => rfl
  | cons r rest ih => rw [edgeTotal, ih, List.foldr_cons]

structure Fits (table : ObjectId.Table) (r : Revision) : Prop where
  generation_le : r.generation ≤ Record.maxGeneration
  time_le : r.time ≤ Record.maxTime
  parents : ∃ ps, r.parentPositions table = .ok ps

/-- What the record of a revision and its edges hold where `start` edges stand before. -/
structure Placed (table : ObjectId.Table) (start : Nat) (r : Revision) (record : Record)
    (run : List Nat) (ps : List Nat) (w : Placement) : Prop where
  generation_le : r.generation ≤ Record.maxGeneration
  time_le : r.time ≤ Record.maxTime
  parents : r.parentPositions table = .ok ps
  writes : Placement.Writes start ps w
  record : record = ⟨r.tree, w.first, w.second, r.generation, r.time⟩
  run : run = w.run

theorem placed_of_place {start : Nat} {r : Revision} {record : Record} {run : List Nat}
    (h : r.place table start = .ok (record, run)) :
    ∃ ps w, Placed table start r record run ps w := by
  unfold place at h
  split at h
  · cases h
  · next hgeneration =>
    split at h
    · cases h
    · next htime =>
      obtain ⟨ps, hps, h⟩ := bind_eq_ok.mp h
      obtain ⟨w, hw, h⟩ := bind_eq_ok.mp h
      obtain ⟨rfl, rfl⟩ := Prod.mk.inj (Except.ok.inj h)
      exact ⟨ps, w, Nat.not_lt.mp hgeneration, Nat.not_lt.mp htime, hps,
        Placement.writes_of_ofParents hw, rfl, rfl⟩

namespace Placed

variable {start : Nat} {r : Revision} {record : Record} {run ps : List Nat} {w : Placement}
variable (h : Placed table start r record run ps w)
include h

theorem length_parents : ps.length = r.parents.length := by
  have := congrArg List.length (map_getElem?_of_parentPositions h.parents)
  rwa [List.length_map, List.length_map] at this

theorem length_run : run.length = r.edgeCount := by
  rw [h.run, h.writes.length_run, h.length_parents]
  rfl

variable (hsize : table.size < Record.noParent)
include hsize

theorem parents_lt : ∀ p ∈ ps, p < Record.noParent := fun p hp =>
  Nat.lt_trans (lt_size_of_parentPositions h.parents p hp) hsize

theorem fits : record.Fits := by
  obtain ⟨hfirst, hsecond⟩ := h.writes.slots_lt (h.parents_lt hsize)
  rw [h.record]
  exact ⟨hfirst, hsecond, h.generation_le, h.time_le⟩

theorem run_lt : ∀ e ∈ run, e < UInt32.size := by
  rw [h.run]
  exact h.writes.run_lt (h.parents_lt hsize)

end Placed

theorem placeAll_cons_eq_ok {start : Nat} {r : Revision} {rest : List Revision}
    {records : List Record} {edges : List Nat}
    (h : placeAll table start (r :: rest) = .ok (records, edges)) :
    ∃ record run ps w records' edges', Placed table start r record run ps w ∧
      placeAll table (start + run.length) rest = .ok (records', edges') ∧
      record :: records' = records ∧ run ++ edges' = edges := by
  obtain ⟨⟨record, run⟩, hplace, h⟩ := bind_eq_ok.mp h
  obtain ⟨⟨records', edges'⟩, hrest, h⟩ := bind_eq_ok.mp h
  obtain ⟨hrecords, hedges⟩ := Prod.mk.inj (Except.ok.inj h)
  obtain ⟨ps, w, hplaced⟩ := placed_of_place hplace
  exact ⟨record, run, ps, w, records', edges', hplaced, hrest, hrecords, hedges⟩

section PlaceAll

variable {start : Nat} {records : List Record} {edges : List Nat}
variable (h : placeAll table start revisions = .ok (records, edges))
include h

/-- Each revision is placed with its own run of edges, after those of all before it. -/
theorem exists_placed_of_placeAll {i : Nat} {r : Revision} (hr : revisions[i]? = some r) :
    ∃ record before run after ps w, records[i]? = some record ∧ edges = before ++ run ++ after ∧
      Placed table (start + before.length) r record run ps w := by
  -- Over the revisions; each hands on how many edges stand before the rest.
  induction revisions generalizing start records edges i with
  | nil => cases hr
  | cons r' rest ih =>
    obtain ⟨record', run', ps', w', records', edges', hplaced', hrest, rfl, rfl⟩ :=
      placeAll_cons_eq_ok h
    cases i with
    | zero =>
      obtain rfl := Option.some.inj hr
      exact ⟨record', [], run', edges', ps', w', rfl, rfl, hplaced'⟩
    | succ i =>
      obtain ⟨record, before, run, after, ps, w, hrecord, rfl, hplaced⟩ := ih hrest hr
      refine ⟨record, run' ++ before, run, after, ps, w, hrecord, by simp, ?_⟩
      rwa [List.length_append, ← Nat.add_assoc]

theorem length_of_placeAll :
    records.length = revisions.length ∧ edges.length = edgeTotal revisions := by
  induction revisions generalizing start records edges with
  | nil =>
    obtain ⟨rfl, rfl⟩ := Prod.mk.inj (Except.ok.inj h)
    exact ⟨rfl, rfl⟩
  | cons r rest ih =>
    obtain ⟨_, _, _, _, _, _, hplaced, hrest, rfl, rfl⟩ := placeAll_cons_eq_ok h
    obtain ⟨hrecords, hedges⟩ := ih hrest
    constructor
    · rw [List.length_cons, hrecords, List.length_cons]
    · rw [List.length_append, hplaced.length_run, hedges, edgeTotal]

theorem forall_of_placeAll (hsize : table.size < Record.noParent) :
    (∀ r ∈ records, r.Fits) ∧ ∀ e ∈ edges, e < UInt32.size := by
  induction revisions generalizing start records edges with
  | nil =>
    obtain ⟨rfl, rfl⟩ := Prod.mk.inj (Except.ok.inj h)
    simp
  | cons r rest ih =>
    obtain ⟨_, _, _, _, _, _, hplaced, hrest, rfl, rfl⟩ := placeAll_cons_eq_ok h
    obtain ⟨hrecords, hedges⟩ := ih hrest
    constructor
    · exact List.forall_mem_cons.mpr ⟨hplaced.fits hsize, hrecords⟩
    · intro e he
      rcases List.mem_append.mp he with he | he
      · exact hplaced.run_lt hsize e he
      · exact hedges e he

end PlaceAll

theorem exists_place {start : Nat} {r : Revision} (fits : r.Fits table)
    (hroom : r.edgeCount = 0 ∨ start < Record.flag) :
    ∃ record run, r.place table start = .ok (record, run) := by
  obtain ⟨ps, hps⟩ := fits.parents
  have hlength := congrArg List.length (map_getElem?_of_parentPositions hps)
  rw [List.length_map, List.length_map] at hlength
  have hroom' : ps.length < 3 ∨ start < Record.flag := by
    rw [edgeCount, ← hlength] at hroom
    split at hroom <;> omega
  obtain ⟨w, hw⟩ := Placement.exists_ofParents hroom'
  rw [place, if_neg (Nat.not_lt.mpr fits.generation_le), if_neg (Nat.not_lt.mpr fits.time_le)]
  exact ⟨_, _, bind_eq_ok.mpr ⟨ps, hps, bind_eq_ok.mpr ⟨w, hw, rfl⟩⟩⟩

theorem exists_placeAll {start : Nat} (fits : ∀ r ∈ revisions, r.Fits table)
    (hroom : start + edgeTotal revisions ≤ Record.flag) :
    ∃ records edges, placeAll table start revisions = .ok (records, edges) := by
  induction revisions generalizing start with
  | nil => exact ⟨_, _, rfl⟩
  | cons r rest ih =>
    rw [edgeTotal] at hroom
    have hfirst : r.edgeCount = 0 ∨ start < Record.flag := by omega
    obtain ⟨record, run, hplace⟩ := exists_place (fits r List.mem_cons_self) hfirst
    obtain ⟨_, _, placed⟩ := placed_of_place hplace
    have hothers : start + run.length + edgeTotal rest ≤ Record.flag := by
      rw [placed.length_run]
      omega
    obtain ⟨records, edges, hrest⟩ := ih (fun s hs => fits s (List.mem_cons_of_mem r hs)) hothers
    exact ⟨_, _, bind_eq_ok.mpr ⟨_, hplace, bind_eq_ok.mpr ⟨_, hrest, rfl⟩⟩⟩

end Revision

namespace History

variable {ids : List ObjectId} {i : Nat} {id : ObjectId}

theorem length_fanout (ids : List ObjectId) : (fanout ids).length = 256 := by
  rw [fanout, List.length_map, List.length_finRange]

theorem getElem?_fanout (ids : List ObjectId) (b : Fin 256) :
    (fanout ids)[b.val]? = some (ids.countP (·.firstByte ≤ b)) := by
  have hlt : b.val < (List.finRange 256).length := by
    rw [List.length_finRange]
    exact b.isLt
  rw [fanout, List.getElem?_map, List.getElem?_eq_getElem hlt, List.getElem_finRange]
  rfl

theorem pairwise_fanout (ids : List ObjectId) : (fanout ids).Pairwise (· ≤ ·) := by
  rw [fanout, List.pairwise_map]
  apply (List.pairwise_le_finRange 256).imp
  intro a b hab
  apply List.countP_mono_left
  intro id _ ha
  exact decide_eq_true (Nat.le_trans (of_decide_eq_true ha) hab)

theorem getLastD_fanout (ids : List ObjectId) : (fanout ids).getLastD 0 = ids.length := by
  rw [List.getLastD_eq_getLast?, List.getLast?_eq_getElem?, length_fanout]
  have hlast := getElem?_fanout ids 255
  have hall : ids.countP (·.firstByte ≤ 255) = ids.length := by
    apply List.countP_eq_length.mpr
    intro id _
    exact decide_eq_true (Nat.le_of_lt_succ id.firstByte.isLt)
  rw [hall] at hlast
  exact congrArg (Option.getD · 0) hlast

theorem le_length_of_mem_fanout {n : Nat} (h : n ∈ fanout ids) : n ≤ ids.length := by
  obtain ⟨b, _, rfl⟩ := List.mem_map.mp h
  exact List.countP_le_length

theorem lt_countP {p : ObjectId → Bool} (hi : ids[i]? = some id)
    (h : ∀ j a, j ≤ i → ids[j]? = some a → p a) : i < ids.countP p := by
  obtain ⟨hlt, _⟩ := List.getElem?_eq_some_iff.mp hi
  have htake : (ids.take (i + 1)).countP p = (ids.take (i + 1)).length := by
    apply List.countP_eq_length.mpr
    intro a ha
    obtain ⟨j, hj, rfl⟩ := List.mem_take_iff_getElem.mp ha
    exact h j _ (by omega) (List.getElem?_eq_getElem _)
  have hsplit := congrArg (List.countP p) (List.take_append_drop (i + 1) ids)
  rw [List.countP_append, htake, List.length_take] at hsplit
  omega

theorem countP_le {p : ObjectId → Bool} (h : ∀ j a, i ≤ j → ids[j]? = some a → ¬ p a) :
    ids.countP p ≤ i := by
  have hdrop : (ids.drop i).countP p = 0 := by
    apply List.countP_eq_zero.mpr
    intro a ha
    obtain ⟨j, hj⟩ := List.mem_iff_getElem?.mp ha
    rw [List.getElem?_drop] at hj
    exact h (i + j) a (Nat.le_add_right i j) hj
  have hsplit := congrArg (List.countP p) (List.take_append_drop i ids)
  rw [List.countP_append, hdrop] at hsplit
  have htake := List.countP_le_length (p := p) (l := ids.take i)
  rw [List.length_take] at htake
  omega

theorem lt_countP_firstByte (h : ids.Pairwise (· < ·)) (hi : ids[i]? = some id) :
    i < ids.countP (·.firstByte ≤ id.firstByte) := by
  apply lt_countP hi
  intro j a hj ha
  apply decide_eq_true
  have hsorted : ObjectId.Table.Ascending ids.toArray := h
  exact ObjectId.firstByte_le_firstByte (hsorted.le hj (by simpa using ha) (by simpa using hi))

theorem countP_firstByte_le (h : ids.Pairwise (· < ·)) (hi : ids[i]? = some id) {b : Fin 256}
    (hb : b < id.firstByte) : ids.countP (·.firstByte ≤ b) ≤ i := by
  apply countP_le
  intro j a hj ha hab
  have hsorted : ObjectId.Table.Ascending ids.toArray := h
  have hle := hsorted.le hj (by simpa using hi) (by simpa using ha)
  have hbyte := ObjectId.firstByte_le_firstByte hle
  exact Nat.not_le.mpr hb (Nat.le_trans hbyte (of_decide_eq_true hab))

end History

namespace Tables

variable {t : Tables}

/-- Where the ids are counted right, each stands in its bucket. -/
theorem inBuckets_of_counts {ids : List ObjectId} (hids : t.ids = ids.toArray)
    (hrise : ids.Pairwise (· < ·))
    (hcounts : ∀ b, t.countThrough b = ids.countP (·.firstByte ≤ b)) : t.InBuckets := by
  intro i id hid
  rw [hids, List.getElem?_toArray] at hid
  constructor
  · unfold countBefore
    split
    · exact Nat.zero_le _
    · next hpos =>
      rw [hcounts]
      apply History.countP_firstByte_le hrise hid
      change id.firstByte.val - 1 < id.firstByte.val
      omega
  · rw [hcounts]
    exact History.lt_countP_firstByte hrise hid

section InBuckets

variable (sound : t.Sound) (buckets : t.InBuckets)
include sound buckets

/-- Where each stands in its bucket, the counts tell the first bytes from the places. -/
theorem firstByte_le_iff {i : Nat} {id : ObjectId} (hid : t.ids[i]? = some id) (b : Fin 256) :
    id.firstByte ≤ b ↔ i < t.countThrough b := by
  obtain ⟨hbefore, hthrough⟩ := buckets i id hid
  constructor
  · intro hb
    exact Nat.lt_of_lt_of_le hthrough (sound.fanout_rises _ _ hb)
  · intro hi
    refine Nat.not_lt.mp fun hb => ?_
    have hle := sound.fanout_rises b ⟨id.firstByte.val - 1, by omega⟩ (Nat.le_sub_one_of_lt hb)
    rw [countBefore, if_neg (by omega)] at hbefore
    omega

theorem countThrough_of_inBuckets (b : Fin 256) :
    t.countThrough b = t.ids.toList.countP (·.firstByte ≤ b) := by
  have hiff : ∀ i id, t.ids.toList[i]? = some id → (id.firstByte ≤ b ↔ i < t.countThrough b) := by
    intro i id hid
    rw [Array.getElem?_toList] at hid
    exact firstByte_le_iff sound buckets hid b
  apply Nat.le_antisymm
  · rcases Nat.eq_zero_or_pos (t.countThrough b) with hzero | hpos
    · omega
    · have hsize : t.countThrough b ≤ t.ids.toList.length := by
        have hle := sound.fanout_rises b 255 (Nat.le_of_lt_succ b.isLt)
        rwa [sound.fanout_last] at hle
      have hlast : t.countThrough b - 1 < t.ids.toList.length := by omega
      have hcount := History.lt_countP (p := fun id => decide (id.firstByte ≤ b))
        (List.getElem?_eq_getElem hlast) fun j a hj ha =>
          decide_eq_true ((hiff j a ha).mpr (by omega))
      omega
  · apply History.countP_le
    intro j a hj ha hab
    exact Nat.not_le.mpr ((hiff j a ha).mp (of_decide_eq_true hab)) hj

end InBuckets

end Tables

end Ancestry
