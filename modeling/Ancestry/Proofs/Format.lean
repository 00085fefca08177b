import Ancestry.Graph
import Ancestry.Proofs.Layout

/-!
# The format of a file

Which files are graphs, said of the bytes alone and not through the steps of reading. A file is well
formed when its frame is whole and sealed by the trailer, its directory is in order and names each
kind that carries the graph as often as it may, and the chunks hold what they should. These files and
no others are read, and the layout found is the one they have.

Bloom chunks and the last byte of the header are free.
-/

namespace Ancestry

open Outcome

/-- The header of a file that passes the checks, with the two bytes that are not fixed. -/
def Header.ofFile (file : Bytes) : Header :=
  ⟨.signature, 1, 1, file.getD 6 0, file.getD 7 0⟩

theorem Header.validate_eq_ok_iff {h : Header} {u : Unit} :
    h.validate = .ok u ↔
      h.signature = .signature ∧ h.version = 1 ∧ h.hashVersion = 1 ∧ h.chunkCount ≠ 0 := by
  by_cases h1 : h.signature = .signature
  · by_cases h2 : h.version = 1
    · by_cases h3 : h.hashVersion = 1
      · by_cases h4 : h.chunkCount = 0 <;> simp [validate, h1, h2, h3, h4]
      · simp [validate, h1, h2, h3]
    · simp [validate, h1, h2]
  · simp [validate, h1]

theorem Header.parse_eq_ok_iff {file : Bytes} {h : Header} :
    Header.parse file = .ok h ↔
      8 ≤ file.length ∧ file.take 6 = [0x43, 0x47, 0x50, 0x48, 1, 1] ∧ file.getD 6 0 ≠ 0 ∧
        Header.ofFile file = h := by
  match file with
  | s0 :: s1 :: s2 :: s3 :: version :: hashVersion :: chunkCount :: baseCount :: rest =>
    have hsignature : (⟨s0, s1, s2, s3⟩ : Tag) = .signature ↔
        s0 = 0x43 ∧ s1 = 0x47 ∧ s2 = 0x50 ∧ s3 = 0x48 := by
      rw [Tag.signature, Tag.mk.injEq]
    simp only [Header.parse, map_eq_ok, validate_eq_ok_iff, hsignature, ofFile]
    constructor
    · intro h
      rcases h with ⟨_, ⟨⟨rfl, rfl, rfl, rfl⟩, rfl, rfl, hcount⟩, rfl⟩
      exact ⟨by simp, rfl, hcount, rfl⟩
    · intro h
      rcases h with ⟨_, hopening, hcount, rfl⟩
      simp only [List.take_succ_cons, List.take_zero, List.cons.injEq, and_true] at hopening
      obtain ⟨rfl, rfl, rfl, rfl, rfl, rfl⟩ := hopening
      exact ⟨(), ⟨⟨rfl, rfl, rfl, rfl⟩, rfl, rfl, hcount⟩, rfl⟩
  | [] | [_] | [_, _] | [_, _, _] | [_, _, _, _] | [_, _, _, _, _] | [_, _, _, _, _, _]
  | [_, _, _, _, _, _, _] => simp [Header.parse]

namespace Format

def sizeLimit : Nat := 0x8000000000000000

def chunkCount (file : Bytes) : Nat := (file.getD 6 0).toNat

def tableEnd (file : Bytes) : Nat := 8 + 12 * (chunkCount file + 1)

def trailer (file : Bytes) : Nat := file.length - 20

def entries (file : Bytes) : List Entry := Directory.entriesOf file (chunkCount file)

/-- The chunks with a tag, each from its offset to the next one, the last to the trailer. -/
def placed (file : Bytes) (tag : Tag) : List (Tag × Span) :=
  Directory.placed (trailer file) (entries file) tag

structure WellFormed (file : Bytes) (layout : Layout) : Prop where
  size : 28 ≤ file.length
  opening : file.take 6 = [0x43, 0x47, 0x50, 0x48, 1, 1]
  chunkCount_pos : 0 < chunkCount file
  room : tableEnd file ≤ trailer file
  sealed : file.drop (trailer file) = (ObjectId.ofContents (file.take (trailer file))).toBytes
  known : ∀ e ∈ entries file,
    e.tag ∈ [Tag.fanout, .ids, .commits, .edges, .bloomIndex, .bloomData]
  inOrder : Directory.InOrder (trailer file) (tableEnd file) (entries file)
  fanout : placed file .fanout = [(.fanout, layout.fanout)]
  ids : placed file .ids = [(.ids, layout.ids)]
  commits : placed file .commits = [(.commits, layout.commits)]
  edges : ∃ span, placed file .edges = span.toList.map (Tag.edges, ·) ∧
    Layout.EdgesAt span layout.edges layout.edgeCount
  filled : layout.Filled file

def graph (file : Bytes) (layout : Layout) : Graph where
  file := file
  header := .ofFile file
  layout := layout
  checksum := .ofBytes (file.drop (trailer file))
  tables := .ofLayout file layout

theorem WellFormed.stop_le {file : Bytes} {layout : Layout} (h : WellFormed file layout) {tag : Tag}
    {span : Span} (hmem : (tag, span) ∈ placed file tag) : span.stop ≤ file.length := by
  have hbounds := Directory.bounds_of_mem_places h.inOrder (List.mem_filter.mp hmem).1
  exact Nat.le_trans hbounds.2.2 (Nat.sub_le _ _)

theorem WellFormed.ids_stop_le {file : Bytes} {layout : Layout} (h : WellFormed file layout) :
    layout.ids.stop ≤ file.length :=
  h.stop_le (h.ids ▸ List.mem_singleton_self _)

theorem WellFormed.edges_stop {file : Bytes} {layout : Layout} (h : WellFormed file layout)
    (hpos : 0 < layout.edgeCount) : layout.edges.stop = layout.edges.start + 4 * layout.edgeCount ∧
      layout.edges.stop ≤ file.length := by
  obtain ⟨span, hplaced, hedges⟩ := h.edges
  have hstop {edges : Span} (hspan : span = some edges) : edges.stop ≤ file.length := by
    have hmem : (Tag.edges, edges) ∈ placed file .edges := by simp [hplaced, hspan]
    exact h.stop_le hmem
  generalize layout.edges = edges at *
  generalize layout.edgeCount = count at *
  cases hedges with
  | absent => exact absurd hpos (Nat.lt_irrefl 0)
  | empty start => exact absurd hpos (Nat.lt_irrefl 0)
  | listed start count pos lt => exact ⟨rfl, hstop rfl⟩

theorem tableEnd_ofFile (file : Bytes) : (Header.ofFile file).tableEnd = tableEnd file := by
  rw [Header.tableEnd, tableEnd, chunkCount, Nat.mul_comm 12]
  rfl

theorem isSome_ofTag?_iff {t : Tag} : (Kind.ofTag? t).isSome ↔
    t ∈ [Tag.fanout, .ids, .commits, .edges, .bloomIndex, .bloomData] := by
  simp only [List.mem_cons, List.not_mem_nil, or_false]
  unfold Kind.ofTag?
  repeat' split
  all_goals simp_all

theorem sealed_iff {file : Bytes} (h : 20 ≤ file.length) :
    ObjectId.ofContents (file.take (trailer file)) = ObjectId.ofBytes (file.drop (trailer file)) ↔
      file.drop (trailer file) = (ObjectId.ofContents (file.take (trailer file))).toBytes := by
  have hlen : (file.drop (trailer file)).length = 20 := by
    rw [List.length_drop, trailer]
    omega
  constructor
  · intro hsum
    rw [hsum, ObjectId.toBytes_ofBytes hlen]
  · intro hsum
    rw [hsum, ObjectId.ofBytes_toBytes]

theorem parse_eq_ok_iff_steps {file : Bytes} {g : Graph} :
    Graph.parse file = .ok g ↔
      28 ≤ file.length ∧ file.take 6 = [0x43, 0x47, 0x50, 0x48, 1, 1] ∧ 0 < chunkCount file ∧
        tableEnd file ≤ trailer file ∧
        file.drop (trailer file) = (ObjectId.ofContents (file.take (trailer file))).toBytes ∧
        ∃ chunks draft, Directory.read file (.ofFile file) (trailer file) = .ok chunks ∧
          Draft.ofChunks chunks = .ok draft ∧ draft.finish file = .ok g.layout ∧
          graph file g.layout = g := by
  have hpos : file.getD 6 0 ≠ 0 ↔ 0 < chunkCount file := by
    rw [chunkCount, Nat.pos_iff_ne_zero, Ne, Ne, ← UInt8.toNat_inj]
    rfl
  have htrailer : file.length - ObjectId.byteCount = trailer file := rfl
  unfold Graph.parse
  by_cases hsize : file.length < Graph.minSize
  · have hnot : ¬ 28 ≤ file.length := Nat.not_le.mpr hsize
    simp [hsize, hnot]
  have hlong : 28 ≤ file.length := Nat.not_lt.mp hsize
  rw [if_neg hsize]
  constructor
  · intro h
    obtain ⟨header, hheader, h⟩ := bind_eq_ok.mp h
    obtain ⟨_, hopening, hcount, rfl⟩ := Header.parse_eq_ok_iff.mp hheader
    simp only [tableEnd_ofFile, htrailer] at h
    split at h
    · cases h
    · next hroom =>
      split at h
      · cases h
      · next hsum =>
        obtain ⟨chunks, hread, h⟩ := bind_eq_ok.mp h
        obtain ⟨draft, hdraft, h⟩ := bind_eq_ok.mp h
        obtain ⟨layout, hfinish, h⟩ := bind_eq_ok.mp h
        obtain rfl := Except.ok.inj h
        have hseal := (sealed_iff (by omega)).mp (Decidable.not_not.mp hsum)
        exact ⟨hlong, hopening, hpos.mp hcount, Nat.not_lt.mp hroom, hseal, chunks, draft, hread,
          hdraft, hfinish, rfl⟩
  · intro h
    rcases h with ⟨_, hopening, hcount, hroom, hseal, chunks, draft, hread, hdraft, hfinish, hg⟩
    have hheader := Header.parse_eq_ok_iff.mpr ⟨by omega, hopening, hpos.mpr hcount, rfl⟩
    have hsum := not_not_intro ((sealed_iff (by omega)).mpr hseal)
    refine bind_eq_ok.mpr ⟨_, hheader, ?_⟩
    simp only [tableEnd_ofFile, htrailer]
    rw [if_neg (Nat.not_lt.mpr hroom), if_neg hsum]
    refine bind_eq_ok.mpr ⟨_, hread, bind_eq_ok.mpr ⟨_, hdraft, bind_eq_ok.mpr ⟨_, hfinish, ?_⟩⟩⟩
    exact congrArg Except.ok hg

section Reading

variable {file : Bytes} (hfile : file.length < sizeLimit)
include hfile

theorem trailer_lt : trailer file < UInt64.size := by
  rw [sizeLimit] at hfile
  rw [trailer, UInt64.size]
  omega

theorem wellFormed_of_parse {g : Graph} (h : Graph.parse file = .ok g) :
    WellFormed file g.layout ∧ graph file g.layout = g := by
  obtain ⟨hsize, hopening, hcount, hroom, hseal, chunks, draft, hread, hdraft, hfinish, hg⟩ :=
    parse_eq_ok_iff_steps.mp h
  obtain ⟨_, marks, hcheck, rfl⟩ := Directory.read_eq_ok_iff.mp hread
  obtain ⟨horder, hnamed⟩ := Directory.check_eq_ok_iff.mp hcheck
  obtain ⟨hwithin, hplaces⟩ := Directory.tile_of_named horder hnamed (trailer_lt hfile)
  obtain ⟨hfanout, hids, hcommits, hedges, hfilled⟩ :=
    (Draft.finish_eq_ok_iff (Nat.sub_le _ _) (trailer_lt hfile) fun k c hc =>
      hwithin c (Draft.mem_of_slot hdraft hc)).mp hfinish
  have hslot {k : Kind} (hk : k.IsCore) := Directory.placed_eq_slot hwithin hplaces hdraft hk
  refine ⟨?_, hg⟩
  constructor
  · exact hsize
  · exact hopening
  · exact hcount
  · exact hroom
  · exact hseal
  · exact fun e he => isSome_ofTag?_iff.mp (Directory.isSome_of_named hnamed e he)
  · rw [← tableEnd_ofFile]
    exact horder
  · exact (hslot (k := .fanout) trivial).trans (by rw [Draft.slot, hfanout]; rfl)
  · exact (hslot (k := .ids) trivial).trans (by rw [Draft.slot, hids]; rfl)
  · exact (hslot (k := .commits) trivial).trans (by rw [Draft.slot, hcommits]; rfl)
  · exact ⟨_, hslot (k := .edges) trivial, hedges⟩
  · exact hfilled

theorem parse_of_wellFormed {layout : Layout} (h : WellFormed file layout) :
    Graph.parse file = .ok (graph file layout) := by
  have hroom : 8 + 12 * (Header.ofFile file).chunkCount.toNat ≤ file.length := by
    have := h.room
    rw [tableEnd, trailer] at this
    change 8 + 12 * chunkCount file ≤ file.length
    omega
  obtain ⟨marks, hnamed⟩ := Directory.exists_named fun e he => isSome_ofTag?_iff.mpr (h.known e he)
  have horder := h.inOrder
  rw [← tableEnd_ofFile] at horder
  obtain ⟨hwithin, hplaces⟩ := Directory.tile_of_named horder hnamed (trailer_lt hfile)
  have hread := Directory.read_eq_ok_iff.mpr
    ⟨hroom, marks, Directory.check_eq_ok_iff.mpr ⟨horder, hnamed⟩, rfl⟩
  obtain ⟨edges, hedges, hedgesAt⟩ := h.edges
  obtain ⟨draft, hdraft⟩ := Directory.exists_draft hwithin hplaces (by
    rw [Kind.forall_core_iff]
    refine ⟨Nat.le_of_eq (congrArg List.length h.fanout), Nat.le_of_eq (congrArg List.length h.ids),
      Nat.le_of_eq (congrArg List.length h.commits), ?_⟩
    apply Nat.le_trans (Nat.le_of_eq (congrArg List.length hedges))
    cases edges <;> simp)
  have hslot {k : Kind} (hk : k.IsCore) {span : Option Span}
      (hspan : placed file k.tag = span.toList.map (k.tag, ·)) : (draft.slot k).map Chunk.span = span :=
    Directory.slot_eq_of_placed hwithin hplaces hdraft hk hspan
  have hfinish := (Draft.finish_eq_ok_iff (Nat.sub_le _ _) (trailer_lt hfile) fun k c hc =>
    hwithin c (Draft.mem_of_slot hdraft hc)).mpr ⟨hslot (k := .fanout) trivial h.fanout,
      hslot (k := .ids) trivial h.ids, hslot (k := .commits) trivial h.commits,
      (hslot (k := .edges) trivial hedges) ▸ hedgesAt, h.filled⟩
  exact parse_eq_ok_iff_steps.mpr ⟨h.size, h.opening, h.chunkCount_pos, h.room, h.sealed, _, draft,
    hread, hdraft, hfinish, rfl⟩

end Reading

end Format

end Ancestry
