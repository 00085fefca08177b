import Ancestry.Proofs.ObjectId.Search
import Ancestry.Proofs.Outcome

/-!
# Searching packed bytes

The table is a run of bytes in any order, and its last piece may be too short for an id. A search is
followed read by read: every id is read from the bytes inside the part that is searched, and each
read leaves at most half of that part. Where the part ascends, the answer is what counting the ids
below the key says.
-/

namespace Ancestry.ObjectId.Table

attribute [local instance (high)] instPowNat

/-- A search of the part from `lo` up to `hi`, as it goes on the bytes: `reads` are the positions
whose ids are read, one after the other, and `found` is where it ends. -/
inductive Bisects (bytes : Bytes) (key : ObjectId) : Nat → Nat → List Nat → Found → Prop
  | nothing {lo hi : Nat} : hi ≤ lo → Bisects bytes key lo hi [] (.gap lo)
  | right {lo hi mid : Nat} {id : ObjectId} {reads : List Nat} {found : Found} : lo < hi →
      mid = lo + (hi - lo) / 2 → bytes.objectId (byteCount * mid) = .ok id → id < key →
      Bisects bytes key (mid + 1) hi reads found → Bisects bytes key lo hi (mid :: reads) found
  | left {lo hi mid : Nat} {id : ObjectId} {reads : List Nat} {found : Found} : lo < hi →
      mid = lo + (hi - lo) / 2 → bytes.objectId (byteCount * mid) = .ok id → key < id →
      Bisects bytes key lo mid reads found → Bisects bytes key lo hi (mid :: reads) found
  | here {lo hi mid : Nat} : lo < hi → mid = lo + (hi - lo) / 2 →
      bytes.objectId (byteCount * mid) = .ok key → Bisects bytes key lo hi [mid] (.hit mid)

def countBelow (table : Table) (key : ObjectId) : Nat := table.toList.countP (· < key)

variable {bytes : Bytes} {table : Table} {key id a b : ObjectId} {lo hi i j k position : Nat}
  {reads : List Nat} {found : Found}

theorem size_ofBytes (bytes : Bytes) : (ofBytes bytes).size = bytes.length / byteCount := by
  simp [ofBytes]

theorem getElem?_ofBytes :
    (ofBytes bytes)[i]? = some id ↔ bytes.objectId (byteCount * i) = .ok id := by
  have hinside : i < bytes.length / byteCount ↔ byteCount * i + byteCount ≤ bytes.length := by
    rw [← Nat.mul_succ, Nat.mul_comm, Nat.lt_iff_add_one_le, Nat.le_div_iff_mul_le (by decide)]
  rw [Bytes.objectId, Outcome.map_eq_ok]
  simp only [Bytes.slice_eq_ok_iff, ofBytes, Bytes.blocks_eq_map_window, List.getElem?_toArray,
    List.getElem?_map, Option.map_eq_some_iff, List.getElem?_eq_some_iff, List.length_range,
    List.getElem_range, ← hinside]
  constructor
  · intro h
    obtain ⟨_, ⟨_, ⟨hi, rfl⟩, rfl⟩, rfl⟩ := h
    exact ⟨_, ⟨hi, rfl⟩, rfl⟩
  · intro h
    obtain ⟨_, ⟨hi, rfl⟩, rfl⟩ := h
    exact ⟨_, ⟨i, ⟨hi, rfl⟩, rfl⟩, rfl⟩

namespace Bisects

theorem reads_inside (h : Bisects bytes key lo hi reads found) (hmem : i ∈ reads) :
    lo ≤ i ∧ i < hi ∧ byteCount * i + byteCount ≤ bytes.length := by
  have hread {mid : Nat} {id : ObjectId} (hid : bytes.objectId (byteCount * mid) = .ok id) :
      byteCount * mid + byteCount ≤ bytes.length := by
    obtain ⟨_, hslice, _⟩ := Outcome.map_eq_ok.mp hid
    exact (Bytes.slice_eq_ok_iff.mp hslice).1
  induction h with
  | nothing => cases hmem
  | right hlt hmid hid _ _ ih =>
    rcases List.mem_cons.mp hmem with rfl | hrest
    · exact ⟨by omega, by omega, hread hid⟩
    · obtain ⟨hlo, hhi, hlen⟩ := ih hrest
      exact ⟨by omega, hhi, hlen⟩
  | left hlt hmid hid _ _ ih =>
    rcases List.mem_cons.mp hmem with rfl | hrest
    · exact ⟨by omega, by omega, hread hid⟩
    · obtain ⟨hlo, hhi, hlen⟩ := ih hrest
      exact ⟨hlo, by omega, hlen⟩
  | here hlt hmid hid =>
    obtain rfl := List.mem_singleton.mp hmem
    exact ⟨by omega, by omega, hread hid⟩

/-- There are no more reads than the length of the part has binary digits. -/
theorem length_reads_le (h : Bisects bytes key lo hi reads found) (hk : hi - lo < 2 ^ k) :
    reads.length ≤ k := by
  induction h generalizing k with
  | nothing => exact Nat.zero_le k
  | right hlt hmid _ _ _ ih =>
    cases k with
    | zero => omega
    | succ k =>
      rw [Nat.pow_succ] at hk
      exact Nat.succ_le_succ (ih (by omega))
  | left hlt hmid _ _ _ ih =>
    cases k with
    | zero => omega
    | succ k =>
      rw [Nat.pow_succ] at hk
      exact Nat.succ_le_succ (ih (by omega))
  | here hlt =>
    cases k with
    | zero => omega
    | succ k => exact Nat.succ_le_succ (Nat.zero_le k)

end Bisects

/-- Bisecting the table is a search of the bytes. -/
theorem exists_bisects (h : hi ≤ (ofBytes bytes).size) :
    ∃ reads, Bisects bytes key lo hi reads ((ofBytes bytes).bisect key lo hi h) := by
  have hread {mid : Nat} (hmid : mid < (ofBytes bytes).size) :
      bytes.objectId (byteCount * mid) = .ok (ofBytes bytes)[mid] :=
    getElem?_ofBytes.mp (Array.getElem?_eq_getElem hmid)
  fun_induction bisect (ofBytes bytes) key lo hi h with
  | case1 lo hi h hlt mid hmid id hless ih =>
    obtain ⟨reads, hreads⟩ := ih
    exact ⟨mid :: reads, .right hlt rfl (hread (by omega)) hless hreads⟩
  | case2 lo hi h hlt mid hmid id hnot hless ih =>
    obtain ⟨reads, hreads⟩ := ih
    exact ⟨mid :: reads, .left hlt rfl (hread (by omega)) hless hreads⟩
  | case3 lo hi h hlt mid hmid id hnot hnot' =>
    have hkey : id = key := eq_of_not_lt hnot hnot'
    exact ⟨[mid], .here hlt rfl (hkey ▸ hread (by omega))⟩
  | case4 lo hi h hnot => exact ⟨[], .nothing (Nat.not_lt.mp hnot)⟩

theorem getElem?_extract_of_lt (hlo : lo ≤ i) (hhi : i < hi) :
    (table.extract lo hi)[i - lo]? = table[i]? := by
  rw [Array.getElem?_extract, Nat.add_sub_cancel' hlo]
  split
  · rfl
  · exact (Array.getElem?_eq_none (by omega)).symm

theorem lt_of_ascending_extract (rises : Ascending (table.extract lo hi)) (hlo : lo ≤ i)
    (hij : i < j) (hhi : j < hi) (ha : table[i]? = some a) (hb : table[j]? = some b) : a < b := by
  rw [← getElem?_extract_of_lt hlo (Nat.lt_trans hij hhi)] at ha
  rw [← getElem?_extract_of_lt (Nat.le_of_lt (Nat.lt_of_le_of_lt hlo hij)) hhi] at hb
  exact rises.lt (by omega) ha hb

namespace IsGap

variable (gap : IsGap table key lo hi position) (rises : Ascending (table.extract lo hi))
include gap rises

theorem lt_of_lt (hlo : lo ≤ i) (hbefore : i < position) (ha : table[i]? = some a) :
    a < key := by
  have hle := gap.le_hi
  rcases gap.below with heq | ⟨b, hb, hlt⟩
  · omega
  · rcases Nat.lt_or_eq_of_le (Nat.le_sub_one_of_lt hbefore) with hfar | heq
    · exact lt_trans (lt_of_ascending_extract rises hlo hfar (by omega) ha hb) hlt
    · rw [heq, hb] at ha
      rwa [← Option.some.inj ha]

theorem lt_of_le (hbehind : position ≤ i) (hhi : i < hi) (ha : table[i]? = some a) :
    key < a := by
  have hle := gap.lo_le
  rcases gap.above with heq | ⟨b, hb, hlt⟩
  · omega
  · rcases Nat.lt_or_eq_of_le hbehind with hfar | heq
    · exact lt_trans hlt (lt_of_ascending_extract rises hle hfar hhi hb ha)
    · rw [← heq, hb] at ha
      rwa [← Option.some.inj ha]

theorem ne_key (hlo : lo ≤ i) (hhi : i < hi) : table[i]? ≠ some key := by
  intro hkey
  rcases Nat.lt_or_ge i position with hlt | hge
  · exact lt_irrefl key (gap.lt_of_lt rises hlo hlt hkey)
  · exact lt_irrefl key (gap.lt_of_le rises hge hhi hkey)

theorem eq_countBelow (hsize : hi ≤ table.size) :
    position = lo + countBelow (table.extract lo hi) key := by
  have hlo := gap.lo_le
  have hhi := gap.le_hi
  have hmem {start stop : Nat} {a : ObjectId} (ha : a ∈ (table.extract start stop).toList) :
      ∃ i, start ≤ i ∧ i < stop ∧ table[i]? = some a := by
    obtain ⟨i, hsmall, rfl⟩ := Array.mem_iff_getElem.mp (Array.mem_toList_iff.mp ha)
    rw [Array.size_extract] at hsmall
    rw [Array.getElem_extract]
    exact ⟨start + i, by omega, by omega, Array.getElem?_eq_getElem (by omega)⟩
  have hbefore : countBelow (table.extract lo position) key = position - lo := by
    rw [countBelow, List.countP_eq_length.mpr]
    · rw [Array.length_toList, Array.size_extract]
      omega
    · intro a ha
      obtain ⟨i, hstart, hstop, ha⟩ := hmem ha
      exact decide_eq_true (gap.lt_of_lt rises hstart hstop ha)
  have hafter : countBelow (table.extract position hi) key = 0 := by
    apply List.countP_eq_zero.mpr
    intro a ha
    obtain ⟨i, hstart, hstop, ha⟩ := hmem ha
    have hgt := gap.lt_of_le rises hstart hstop ha
    exact fun hlt => lt_irrefl key (lt_trans hgt (of_decide_eq_true hlt))
  have hsplit : table.extract lo hi = table.extract lo position ++ table.extract position hi := by
    rw [Array.extract_append_extract, Nat.min_eq_left hlo, Nat.max_eq_right hhi]
  rw [hsplit, countBelow, Array.toList_append, List.countP_append, ← countBelow, ← countBelow,
    hbefore, hafter]
  omega

end IsGap

section Ascending

variable {h : hi ≤ table.size} (rises : Ascending (table.extract lo hi)) (hle : lo ≤ hi)
include rises hle

theorem bisect_hit_iff :
    table.bisect key lo hi h = .hit i ↔ lo ≤ i ∧ i < hi ∧ table[i]? = some key := by
  constructor
  · exact bisect_hit
  · rintro ⟨hlo, hhi, hkey⟩
    cases hfound : table.bisect key lo hi h with
    | hit j =>
      obtain ⟨hlo', hhi', hkey'⟩ := bisect_hit hfound
      rw [← getElem?_extract_of_lt hlo hhi] at hkey
      rw [← getElem?_extract_of_lt hlo' hhi'] at hkey'
      have hsame := rises.eq_of_getElem? hkey hkey'
      exact congrArg Found.hit (by omega)
    | gap p => exact absurd hkey ((bisect_gap hle hfound).ne_key rises hlo hhi)

theorem bisect_of_absent (absent : ∀ i, lo ≤ i → i < hi → table[i]? ≠ some key) :
    table.bisect key lo hi h = .gap (lo + countBelow (table.extract lo hi) key) := by
  cases hfound : table.bisect key lo hi h with
  | hit j =>
    obtain ⟨hlo, hhi, hkey⟩ := bisect_hit hfound
    exact absurd hkey (absent j hlo hhi)
  | gap p => rw [(bisect_gap hle hfound).eq_countBelow rises h]

end Ascending

/-- A search of packed bytes ends after a few reads inside the bytes. A hit is the key, a gap lies
between an id below it and one above it, and in an ascending part the key is found wherever it
stands and otherwise has its place behind the ids below it. -/
theorem search_exact (bytes : Bytes) (lo hi : Nat) (key : ObjectId) :
    let table := ofBytes bytes
    let stop := min hi (bytes.length / byteCount)
    let start := min lo stop
    (∀ i id, table[i]? = some id ↔ bytes.objectId (byteCount * i) = .ok id) ∧
      (∃ reads, Bisects bytes key start stop reads (table.search lo hi key) ∧
        (∀ i ∈ reads, start ≤ i ∧ i < stop ∧ byteCount * i + byteCount ≤ bytes.length) ∧
        ∀ k, stop - start < 2 ^ k → reads.length ≤ k) ∧
      (∀ i, table.search lo hi key = .hit i → start ≤ i ∧ i < stop ∧ table[i]? = some key) ∧
      (∀ p, table.search lo hi key = .gap p → IsGap table key start stop p) ∧
      (Ascending (table.extract start stop) →
        (∀ i, table.search lo hi key = .hit i ↔ start ≤ i ∧ i < stop ∧ table[i]? = some key) ∧
        ((∀ i, start ≤ i → i < stop → table[i]? ≠ some key) →
          table.search lo hi key = .gap (start + countBelow (table.extract start stop) key))) := by
  intro table stop start
  have hsize : table.size = bytes.length / byteCount := size_ofBytes bytes
  have hstop : stop ≤ table.size := hsize ▸ Nat.min_le_right _ _
  have hsearch : table.search lo hi key = table.bisect key start stop hstop := by
    simp only [search, hsize]
    rfl
  have hle : start ≤ stop := Nat.min_le_right _ _
  rw [hsearch]
  refine ⟨fun i id => getElem?_ofBytes, ?_, fun i => bisect_hit, fun p => bisect_gap hle,
    fun rises => ⟨fun i => bisect_hit_iff rises hle, bisect_of_absent rises hle⟩⟩
  obtain ⟨reads, hreads⟩ : ∃ reads, Bisects bytes key start stop reads
      (table.bisect key start stop hstop) := exists_bisects hstop
  exact ⟨reads, hreads, fun i => hreads.reads_inside, fun k => hreads.length_reads_le⟩

/-- Four ids out of order, the last three of them rising, and three bytes of a fifth. -/
def sampleBytes : Bytes :=
  [7, 3, 5, 9].flatMap (Bytes.ofNat byteCount) ++ [1, 2, 3]

/-- The search looks at the last three ids, whatever lies before and behind them. -/
theorem search_sampleBytes :
    Ascending ((ofBytes sampleBytes).extract 1 4) ∧
      (ofBytes sampleBytes).search 1 100 (ofNat 9) = .hit 3 ∧
      (ofBytes sampleBytes).search 1 100 (ofNat 4) = .gap 2 := by
  have hstop : min 100 (sampleBytes.length / byteCount) = 4 := by decide +kernel
  have rises : Ascending ((ofBytes sampleBytes).extract 1 4) := by
    unfold Ascending
    decide +kernel
  have hnine := search_exact sampleBytes 1 100 (ofNat 9)
  have hfour := search_exact sampleBytes 1 100 (ofNat 4)
  simp only [hstop] at hnine hfour
  obtain ⟨_, _, _, _, hnine⟩ := hnine
  obtain ⟨_, _, _, _, hfour⟩ := hfour
  refine ⟨rises, ?_, ?_⟩
  · apply ((hnine rises).1 3).mpr
    exact ⟨by decide, by decide, by decide +kernel⟩
  · have habsent : ∀ i < 4, (ofBytes sampleBytes)[i]? ≠ some (ofNat 4) := by decide +kernel
    have hcount : countBelow ((ofBytes sampleBytes).extract 1 4) (ofNat 4) = 1 := by decide +kernel
    rw [(hfour rises).2 fun i _ hi => habsent i hi]
    exact congrArg (fun n => Found.gap (1 + n)) hcount

end Ancestry.ObjectId.Table
