import Ancestry.Proofs.Format
import Ancestry.Proofs.ObjectId.Search
import Ancestry.Proofs.Record

/-!
# The tables of a file that was read

What reading guarantees of the decoded tables, and no more: it looks at each chunk by itself, so
records may name commits and edges that do not exist, and the fan-out may count wrongly.
-/

namespace Ancestry

namespace Tables

/-- What reading a file guarantees of its tables. -/
structure Sound (t : Tables) : Prop where
  fanout_rises : ∀ a b : Fin 256, a ≤ b → t.countThrough a ≤ t.countThrough b
  fanout_last : t.countThrough 255 = t.size
  ids_ascending : t.ids.Ascending
  size_pos : 0 < t.size
  size_lt : t.size < UInt32.size
  records_fit : ∀ r ∈ t.records, r.Fits
  edges_lt : ∀ e ∈ t.edges, e < UInt32.size
  edges_size_lt : t.edges.size < UInt32.size

/-- The fan-out gives each id a part of the table, by its first byte, in which it stands. -/
def InBuckets (t : Tables) : Prop :=
  ∀ i id, t.ids[i]? = some id → t.countBefore id.firstByte ≤ i ∧ i < t.countThrough id.firstByte

theorem eq_of_fields {t u : Tables} (hfanout : t.fanout.toList = u.fanout.toList)
    (hids : t.ids = u.ids) (hrecords : t.records = u.records) (hedges : t.edges = u.edges) :
    t = u := by
  obtain ⟨fanout, ids, records, edges, hsize⟩ := t
  have hfanout' : fanout = u.fanout := Vector.toList_inj.mp hfanout
  obtain rfl : ids = u.ids := hids
  obtain rfl : records = u.records := hrecords
  obtain rfl : edges = u.edges := hedges
  rw [hfanout']

section OfLayout

variable (file : Bytes) (layout : Layout)

theorem size_ofLayout : (ofLayout file layout).size = layout.commitCount := by
  simp [size, ofLayout]

theorem edges_size_ofLayout : (ofLayout file layout).edges.size = layout.edgeCount := by
  simp [ofLayout]

theorem countThrough_ofLayout_lt (b : Fin 256) :
    (ofLayout file layout).countThrough b < UInt32.size := by
  have hmem : (ofLayout file layout).countThrough b ∈ (ofLayout file layout).fanout :=
    Vector.getElem_mem b.isLt
  simp only [ofLayout, Vector.mem_mk, List.mem_toArray, List.mem_map] at hmem
  obtain ⟨block, hblock, heq⟩ := hmem
  have := Bytes.toNat_lt_of_mem_blocks hblock
  rwa [heq] at this

theorem records_fit_ofLayout : ∀ r ∈ (ofLayout file layout).records, r.Fits := by
  intro r hr
  simp only [ofLayout, List.mem_toArray, List.mem_map] at hr
  obtain ⟨block, _, rfl⟩ := hr
  exact Record.fits_ofBytes block

theorem edges_lt_ofLayout : ∀ e ∈ (ofLayout file layout).edges, e < UInt32.size := by
  intro e he
  simp only [ofLayout, List.mem_toArray, List.mem_map] at he
  obtain ⟨block, hblock, rfl⟩ := he
  exact Bytes.toNat_lt_of_mem_blocks hblock

variable {file layout}

theorem fanout_ofLayout (h : layout.fanout.stop = layout.fanout.start + 1024) :
    (ofLayout file layout).fanout.toList = Layout.countsIn file layout.fanout := by
  rw [← Layout.map_toNat_blocks h]
  simp only [ofLayout, Vector.toList_mk]

theorem ids_ofLayout (h : layout.ids.stop = layout.ids.start + 20 * layout.commitCount) :
    (ofLayout file layout).ids.toList =
      (Layout.rowsIn file layout.ids layout.commitCount).map ObjectId.ofBytes := by
  rw [← Layout.blocks_eq_rowsIn h]
  rfl

theorem getElem?_ids_ofLayout (file : Bytes) {i : Nat} (hi : i < layout.commitCount)
    (h : layout.ids.stop = layout.ids.start + 20 * layout.commitCount) :
    (ofLayout file layout).ids[i]? = some (ObjectId.ofBytes
      (file.window (layout.ids.start + 20 * i) (layout.ids.start + 20 * i + 20))) := by
  have hblock := Bytes.getElem?_blocks_window file 20 (Nat.le_of_eq h.symm) hi
  simp only [ofLayout, List.getElem?_toArray, List.getElem?_map]
  exact congrArg (Option.map ObjectId.ofBytes) hblock

theorem getElem?_records_ofLayout (file : Bytes) {i : Nat} (hi : i < layout.commitCount)
    (h : layout.commits.stop = layout.commits.start + 36 * layout.commitCount) :
    (ofLayout file layout).records[i]? = some (Record.ofBytes
      (file.window (layout.commits.start + 36 * i) (layout.commits.start + 36 * i + 36))) := by
  have hblock := Bytes.getElem?_blocks_window file 36 (Nat.le_of_eq h.symm) hi
  simp only [ofLayout, List.getElem?_toArray, List.getElem?_map]
  exact congrArg (Option.map Record.ofBytes) hblock

theorem getElem?_edges_ofLayout (file : Bytes) {i : Nat} (hi : i < layout.edgeCount)
    (h : layout.edges.stop = layout.edges.start + 4 * layout.edgeCount) :
    (ofLayout file layout).edges[i]? = some (Bytes.toNat
      (file.window (layout.edges.start + 4 * i) (layout.edges.start + 4 * i + 4))) := by
  have hblock := Bytes.getElem?_blocks_window file 4 (Nat.le_of_eq h.symm) hi
  simp only [ofLayout, List.getElem?_toArray, List.getElem?_map]
  exact congrArg (Option.map Bytes.toNat) hblock

/-! Lists that were written to the place of a chunk are read from it. -/

theorem fanout_of_window {counts : List Nat} (hlength : counts.length = 256)
    (hlt : ∀ n ∈ counts, n < UInt32.size)
    (h : file.window layout.fanout.start layout.fanout.stop = counts.flatMap (Bytes.ofNat 4)) :
    (ofLayout file layout).fanout.toList = counts := by
  have hread := Bytes.map_blocks_flatMap (fun n _ => Bytes.length_ofNat 4 n) fun n hn =>
    Bytes.toNat_ofNat_of_lt (hlt n hn)
  rw [hlength, ← h] at hread
  simp only [ofLayout, Vector.toList_mk]
  exact hread

theorem ids_of_window {ids : List ObjectId} (hcount : layout.commitCount = ids.length)
    (h : file.window layout.ids.start layout.ids.stop = ids.flatMap ObjectId.toBytes) :
    (ofLayout file layout).ids = ids.toArray := by
  have hread := Bytes.map_blocks_flatMap (fun id _ => id.length_toBytes)
    fun (id : ObjectId) (_ : id ∈ ids) => id.ofBytes_toBytes
  rw [← h, ← hcount] at hread
  exact congrArg List.toArray hread

theorem records_of_window {records : List Record} (hcount : layout.commitCount = records.length)
    (hfit : ∀ r ∈ records, r.Fits)
    (h : file.window layout.commits.start layout.commits.stop = records.flatMap Record.toBytes) :
    (ofLayout file layout).records = records.toArray := by
  have hread := Bytes.map_blocks_flatMap (fun r _ => r.length_toBytes)
    fun r hr => Record.ofBytes_toBytes (hfit r hr)
  rw [← h, ← hcount] at hread
  exact congrArg List.toArray hread

theorem edges_of_window {edges : List Nat} (hcount : layout.edgeCount = edges.length)
    (hlt : ∀ n ∈ edges, n < UInt32.size) (h : edges ≠ [] →
      file.window layout.edges.start layout.edges.stop = edges.flatMap (Bytes.ofNat 4)) :
    (ofLayout file layout).edges = edges.toArray := by
  by_cases hnone : edges = []
  · subst hnone
    simp only [ofLayout, hcount]
    rfl
  · have hread := Bytes.map_blocks_flatMap (fun n _ => Bytes.length_ofNat 4 n) fun n hn =>
      Bytes.toNat_ofNat_of_lt (hlt n hn)
    rw [← h hnone, ← hcount] at hread
    exact congrArg List.toArray hread

end OfLayout

theorem getElem?_fanout (t : Tables) (b : Fin 256) :
    t.fanout.toList[b.val]? = some (t.countThrough b) := by
  rw [Vector.getElem?_toList, Vector.getElem?_eq_getElem b.isLt]
  rfl

theorem countThrough_ofLayout {file : Bytes} {layout : Layout}
    (h : layout.fanout.stop = layout.fanout.start + 1024) (b : Fin 256) :
    (ofLayout file layout).countThrough b = Bytes.toNat
      (file.window (layout.fanout.start + 4 * b) (layout.fanout.start + 4 * b + 4)) := by
  have hcount := getElem?_fanout (ofLayout file layout) b
  rw [fanout_ofLayout h, Layout.countsIn, List.getElem?_map, List.getElem?_range b.isLt] at hcount
  exact (Option.some.inj hcount).symm

theorem countThrough_le_of_pairwise {t : Tables} (h : t.fanout.toList.Pairwise (· ≤ ·))
    {a b : Fin 256} (hab : a ≤ b) : t.countThrough a ≤ t.countThrough b := by
  rcases Nat.lt_or_eq_of_le hab with hlt | heq
  · obtain ⟨hal, ha⟩ := List.getElem?_eq_some_iff.mp (t.getElem?_fanout a)
    obtain ⟨hbl, hb⟩ := List.getElem?_eq_some_iff.mp (t.getElem?_fanout b)
    rw [← ha, ← hb]
    exact List.pairwise_iff_getElem.mp h _ _ hal hbl hlt
  · obtain rfl := Fin.ext heq
    exact Nat.le_refl _

theorem getLastD_fanout (t : Tables) : t.fanout.toList.getLastD 0 = t.countThrough 255 := by
  rw [List.getLastD_eq_getLast?, List.getLast?_eq_getElem?, Vector.length_toList]
  exact congrArg (Option.getD · 0) (t.getElem?_fanout 255)

theorem filled_of_ofLayout {file : Bytes} {layout : Layout}
    (hfanout : layout.fanout.stop = layout.fanout.start + 1024)
    (hids : layout.ids.stop = layout.ids.start + 20 * layout.commitCount)
    (hcommits : layout.commits.stop = layout.commits.start + 36 * layout.commitCount)
    (hfile : layout.ids.stop ≤ file.length) (hpos : 0 < layout.commitCount)
    (hrise : ∀ a b : Fin 256, a ≤ b →
      (ofLayout file layout).countThrough a ≤ (ofLayout file layout).countThrough b)
    (hlast : (ofLayout file layout).countThrough 255 = layout.commitCount)
    (hascend : (ofLayout file layout).ids.Ascending) : layout.Filled file := by
  have hcounts : (ofLayout file layout).fanout.toList = _ := fanout_ofLayout hfanout
  constructor
  · exact hfanout
  · rw [← hcounts, List.pairwise_iff_getElem]
    intro a b ha hb hab
    rw [Vector.length_toList] at ha hb
    exact hrise ⟨a, ha⟩ ⟨b, hb⟩ (Nat.le_of_lt hab)
  · rw [← hcounts, getLastD_fanout]
    exact hlast
  · exact hpos
  · exact hids
  · rw [ObjectId.Table.Ascending, ids_ofLayout hids, Layout.pairwise_ofBytes_iff] at hascend
    · exact hascend
    · exact fun row hrow => Layout.length_of_mem_rowsIn (hids ▸ hfile) hrow
  · exact hcommits

theorem sound_ofLayout {file : Bytes} {layout : Layout} (h : Format.WellFormed file layout) :
    (ofLayout file layout).Sound := by
  have hfill := h.filled
  have hcounts : (ofLayout file layout).fanout.toList = _ := fanout_ofLayout hfill.fanout_stop
  have hlast : (ofLayout file layout).countThrough 255 = (ofLayout file layout).size := by
    rw [← getLastD_fanout, hcounts, hfill.fanout_last, size_ofLayout]
  have hids : (ofLayout file layout).ids.Ascending := by
    rw [ObjectId.Table.Ascending, ids_ofLayout hfill.ids_stop, Layout.pairwise_ofBytes_iff]
    · exact hfill.ids_rise
    · intro row hrow
      exact Layout.length_of_mem_rowsIn (hfill.ids_stop ▸ h.ids_stop_le) hrow
  have hedges : layout.edgeCount < UInt32.size := by
    obtain ⟨span, _, hspan⟩ := h.edges
    generalize layout.edges = edges at hspan
    generalize layout.edgeCount = count at hspan
    cases hspan with
    | absent => decide
    | empty start => decide
    | listed start count pos lt => exact lt
  constructor
  · intro a b hab
    exact countThrough_le_of_pairwise (hcounts ▸ hfill.fanout_rises) hab
  · exact hlast
  · exact hids
  · rw [size_ofLayout]
    exact hfill.commitCount_pos
  · rw [← hlast]
    exact countThrough_ofLayout_lt file layout 255
  · exact records_fit_ofLayout file layout
  · exact edges_lt_ofLayout file layout
  · rw [edges_size_ofLayout]
    exact hedges

end Tables

theorem Graph.sound_of_parse {file : Bytes} (hfile : file.length < Format.sizeLimit) {g : Graph}
    (h : Graph.parse file = .ok g) : g.tables.Sound := by
  obtain ⟨hwell, hg⟩ := Format.wellFormed_of_parse hfile h
  rw [← hg]
  exact Tables.sound_ofLayout hwell

end Ancestry
