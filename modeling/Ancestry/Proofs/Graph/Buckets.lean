import Ancestry.Proofs.Graph.Astray

/-!
# Buckets and counts

The check of a whole graph looks at the ids one by one: each has to stand in the bucket of its first
byte. Whoever reads the fan-out takes a count for the number of ids up to that bucket. Since ids
ascend, and the counts never fall and end at the number of ids, the one holds exactly when the other
does, however many buckets are empty.

The writer counts the ids of each bucket and adds up, so both hold of every file that it writes.
-/

namespace Ancestry

namespace ObjectId

def tally (counts : Vector Nat 256) (id : ObjectId) : Vector Nat 256 :=
  counts.set id.firstByte (counts[id.firstByte] + 1)

def tallies (ids : List ObjectId) : Vector Nat 256 :=
  ids.foldl tally (Vector.replicate 256 0)

def runningTotals (total : Nat) : List Nat → List Nat
  | [] => []
  | count :: rest => (total + count) :: runningTotals (total + count) rest

variable (ids : List ObjectId)

theorem get_tally (counts : Vector Nat 256) (id : ObjectId) (b : Fin 256) :
    (tally counts id).get b = counts.get b + if id.firstByte.val = b.val then 1 else 0 := by
  change (counts.set id.firstByte _)[b.val] = _
  rw [Vector.getElem_set]
  by_cases hb : id.firstByte.val = b.val
  · obtain rfl := Fin.ext hb
    rw [if_pos rfl, if_pos rfl]
    rfl
  · rw [if_neg hb, if_neg hb]
    rfl

theorem get_foldl_tally (counts : Vector Nat 256) (b : Fin 256) :
    (ids.foldl tally counts).get b = counts.get b + ids.countP (·.firstByte.val = b.val) := by
  induction ids generalizing counts with
  | nil => rfl
  | cons id ids ih =>
    rw [List.foldl_cons, ih, get_tally, List.countP_cons]
    simp only [decide_eq_true_eq]
    omega

theorem get_tallies (b : Fin 256) :
    (tallies ids).get b = ids.countP (·.firstByte.val = b.val) := by
  have hzero : (Vector.replicate 256 0).get b = 0 := Vector.getElem_replicate b.isLt
  rw [tallies, get_foldl_tally, hzero, Nat.zero_add]

theorem countP_add_countP (n : Nat) :
    ids.countP (·.firstByte.val < n) + ids.countP (·.firstByte.val = n) =
      ids.countP (·.firstByte.val ≤ n) := by
  induction ids with
  | nil => rfl
  | cons id ids ih =>
    simp only [List.countP_cons, decide_eq_true_eq]
    rw [← ih]
    rcases Nat.lt_trichotomy id.firstByte.val n with hlt | heq | hlt
    · rw [if_pos hlt, if_neg (Nat.ne_of_lt hlt), if_pos (Nat.le_of_lt hlt)]
      omega
    · rw [if_neg (Nat.not_lt.mpr (Nat.le_of_eq heq.symm)), if_pos heq, if_pos (Nat.le_of_eq heq)]
      omega
    · rw [if_neg (Nat.lt_asymm hlt), if_neg (Nat.ne_of_gt hlt), if_neg (Nat.not_le.mpr hlt)]
      omega

theorem runningTotals_range' (n m : Nat) :
    runningTotals (ids.countP (·.firstByte.val < n))
        ((List.range' n m).map fun b => ids.countP (·.firstByte.val = b)) =
      (List.range' n m).map fun b => ids.countP (·.firstByte.val ≤ b) := by
  induction m generalizing n with
  | zero => rfl
  | succ m ih =>
    have hnext : (fun id : ObjectId => decide (id.firstByte.val ≤ n)) =
        fun id => decide (id.firstByte.val < n + 1) :=
      funext fun id => decide_eq_decide.mpr Nat.lt_succ_iff.symm
    rw [List.range'_succ, List.map_cons, List.map_cons, runningTotals, countP_add_countP]
    congr 1
    rw [hnext, ih]

theorem map_finRange {α : Type} (f : Nat → α) (n : Nat) :
    (List.finRange n).map (fun b => f b.val) = (List.range' 0 n).map f := by
  apply List.ext_getElem
  · simp
  · intro k hk hk'
    simp

/-- The counts of the fan-out are the running totals of the buckets. -/
theorem runningTotals_tallies : runningTotals 0 (tallies ids).toList = History.fanout ids := by
  have hcounts : (tallies ids).toList =
      (List.range' 0 256).map fun b => ids.countP (·.firstByte.val = b) := by
    rw [← map_finRange]
    apply List.ext_getElem
    · simp
    · intro k hk hk'
      have hcount := get_tallies ids ⟨k, by simpa using hk⟩
      simp only [List.getElem_map, List.getElem_finRange, Vector.getElem_toList]
      exact hcount
  have hnone : ids.countP (·.firstByte.val < 0) = 0 := by simp
  have htotals := runningTotals_range' ids 0 256
  rw [hnone, ← hcounts] at htotals
  exact htotals.trans (map_finRange (fun b => ids.countP (·.firstByte.val ≤ b)) 256).symm

end ObjectId

namespace Tables

variable {t : Tables}

theorem inBuckets_iff_countThrough (sound : t.Sound) : t.InBuckets ↔
    ∀ b, t.countThrough b = t.ids.toList.countP (·.firstByte ≤ b) := by
  constructor
  · exact countThrough_of_inBuckets sound
  · exact inBuckets_of_counts (Array.toArray_toList).symm sound.ids_ascending

end Tables

namespace History.Prepared

variable {h : History} {records : List Record} {edges : List Nat} {layout : Layout}
variable (p : h.Prepared records edges) (hsize : (h.file records edges).length < Format.sizeLimit)
variable (hwell : Format.WellFormed (h.file records edges) layout)
include p hsize hwell

/-- Whatever is attached, a written file is read with the fan-out and the ids that were written. -/
theorem spans_of_wellFormed : layout.fanout = (h.layout records edges).fanout ∧
    layout.ids = (h.layout records edges).ids := by
  have hcore {tag : Tag} (htag : tag ∈ (corePayloads h.sortedIds records edges).map Payload.tag) :=
    p.placed_file hsize (p.ne_tag_of_mem_core htag)
  have hfanout := hwell.fanout.symm.trans (hcore (by simp [corePayloads]))
  have hids := hwell.ids.symm.trans (hcore (by simp [corePayloads]))
  rw [Layout.places] at hfanout hids
  constructor
  · split at hfanout <;> exact (Prod.mk.inj (List.cons.inj hfanout).1).2
  · split at hids <;> exact (Prod.mk.inj (List.cons.inj hids).1).2

theorem fanout_of_wellFormed :
    (Tables.ofLayout (h.file records edges) layout).fanout.toList = fanout h.sortedIds := by
  rw [← p.fanout_tables]
  simp only [Tables.ofLayout, (p.spans_of_wellFormed hsize hwell).1]

theorem ids_of_wellFormed :
    (Tables.ofLayout (h.file records edges) layout).ids = h.sortedIds.toArray := by
  have hlast := (Tables.sound_ofLayout hwell).fanout_last
  rw [← Tables.getLastD_fanout, p.fanout_of_wellFormed hsize hwell, getLastD_fanout,
    Tables.size_ofLayout] at hlast
  rw [← p.ids_tables]
  simp only [Tables.ofLayout, (p.spans_of_wellFormed hsize hwell).2, ← hlast]
  rfl

theorem countThrough_of_wellFormed (b : Fin 256) :
    (Tables.ofLayout (h.file records edges) layout).countThrough b =
      h.sortedIds.countP (·.firstByte ≤ b) := by
  have hcount := Tables.getElem?_fanout (Tables.ofLayout (h.file records edges) layout) b
  rw [p.fanout_of_wellFormed hsize hwell, getElem?_fanout] at hcount
  exact (Option.some.inj hcount).symm

end History.Prepared

namespace Graph

open ObjectId in
/-- Of a graph that was read, each id stands in the bucket of its first byte exactly when each count
is the number of ids up to its bucket. In a graph that was written both hold: the counts are the
numbers of ids in the buckets, added up. -/
theorem inBuckets_iff_counts :
    (∀ file g, file.length < Format.sizeLimit → Graph.parse file = .ok g →
      (g.tables.InBuckets ↔
        ∀ b, g.tables.countThrough b = g.tables.ids.toList.countP (·.firstByte ≤ b))) ∧
    ∀ (h : History) file g, h.encode = .ok file → file.length < Format.sizeLimit →
      Graph.parse file = .ok g → g.tables.InBuckets ∧
        (∀ b, g.tables.countThrough b = g.tables.ids.toList.countP (·.firstByte ≤ b)) ∧
        g.tables.fanout.toList = runningTotals 0 (tallies g.tables.ids.toList).toList := by
  constructor
  · intro file g hfile hparse
    exact Tables.inBuckets_iff_countThrough (sound_of_parse hfile hparse)
  · intro h file g hencode hfile hparse
    obtain ⟨records, edges, p, rfl⟩ := History.encode_eq_ok_iff.mp hencode
    obtain ⟨hwell, hg⟩ := Format.wellFormed_of_parse hfile hparse
    have hids := p.ids_of_wellFormed hfile hwell
    have hfanout := p.fanout_of_wellFormed hfile hwell
    have hcounts : ∀ b, (Tables.ofLayout (h.file records edges) g.layout).countThrough b =
        (Tables.ofLayout (h.file records edges) g.layout).ids.toList.countP (·.firstByte ≤ b) := by
      intro b
      rw [hids]
      exact p.countThrough_of_wellFormed hfile hwell b
    rw [← hg]
    refine ⟨?_, hcounts, ?_⟩
    · exact (Tables.inBuckets_iff_countThrough (Tables.sound_ofLayout hwell)).mpr hcounts
    · rw [runningTotals_tallies]
      change (Tables.ofLayout (h.file records edges) g.layout).fanout.toList =
        History.fanout (Tables.ofLayout (h.file records edges) g.layout).ids.toList
      rw [hfanout, hids]

/-- Of the ids of the sample, one begins with the byte 0 and two with the byte 7. The fan-out of the
other graph counts an id too early. -/
theorem counts_sampleGraph :
    (History.sample.encode = .ok History.sampleFile ∧
      History.sampleFile.length < Format.sizeLimit ∧
      Graph.parse History.sampleFile = .ok History.sampleGraph ∧
      History.sampleGraph.tables.countThrough 6 = 1 ∧
      History.sampleGraph.tables.countThrough 7 = 3) ∧
    Tables.astray.file.length < Format.sizeLimit ∧
      Graph.parse Tables.astray.file = .ok astrayGraph ∧ ¬ astrayGraph.tables.InBuckets := by
  obtain ⟨hread, hwritten⟩ := inBuckets_iff_counts
  have hencode : History.sample.encode = .ok History.sampleFile :=
    History.encode_eq_ok_iff.mpr ⟨_, _, History.prepared_sample, rfl⟩
  obtain ⟨_, hcounts, _⟩ := hwritten _ _ _ hencode History.length_sampleFile History.parse_sampleFile
  have hparse : Graph.parse Tables.astray.file = .ok astrayGraph := Tables.sound_astray.parse_file
  have hastray := hread _ _ Tables.sound_astray.length_file_lt hparse
  have htables : astrayGraph.tables = Tables.astray := Tables.sound_astray.ofLayout_file
  refine ⟨⟨hencode, History.length_sampleFile, History.parse_sampleFile, ?_, ?_⟩,
    Tables.sound_astray.length_file_lt, hparse, ?_⟩
  · rw [hcounts, History.tables_sampleGraph]
    rfl
  · rw [hcounts, History.tables_sampleGraph]
    rfl
  · intro hbuckets
    have hfirst := hastray.mp hbuckets 0
    rw [htables, Tables.countThrough_astray] at hfirst
    exact absurd hfirst (by decide)

end Graph

end Ancestry
