import Ancestry.Proofs.Chunk.Assembly
import Ancestry.Proofs.History.Tables

/-!
# Files written from histories

A file that was written from a history is well formed, and its tables are the ones that were
computed for it: nothing is lost between the lists that go into the chunks and the lists that are
decoded from them.
-/

namespace Ancestry

open Outcome

def Layout.places (layout : Layout) : List (Tag × Span) :=
  [(.fanout, layout.fanout), (.ids, layout.ids), (.commits, layout.commits)] ++
    if layout.edgeCount = 0 then [] else [(.edges, layout.edges)]

theorem Layout.filter_places {layout : Layout} {m : Tag × Span} (hm : m ∈ layout.places) :
    layout.places.filter (·.1 = m.1) = [m] := by
  apply Payload.filter_eq_singleton _ hm
  have htags : [Tag.fanout, .ids, .commits, .edges].Nodup := by decide
  rw [places]
  split
  · exact htags.sublist (List.sublist_append_left [Tag.fanout, .ids, .commits] [.edges])
  · exact htags

namespace History

def sortedIds (h : History) : List ObjectId :=
  (Revision.sort h.revisions).map Revision.id

def payloads (h : History) (records : List Record) (edges : List Nat) : List Payload :=
  corePayloads h.sortedIds records edges ++ h.attachments

def layoutFrom (start count edgeCount : Nat) : Layout where
  fanout := ⟨start, start + 1024⟩
  ids := ⟨start + 1024, start + 1024 + 20 * count⟩
  commits := ⟨start + 1024 + 20 * count, start + 1024 + 20 * count + 36 * count⟩
  edges :=
    if edgeCount = 0 then ⟨0, 0⟩
    else ⟨start + 1024 + 20 * count + 36 * count,
      start + 1024 + 20 * count + 36 * count + 4 * edgeCount⟩
  commitCount := count
  edgeCount := edgeCount

def layout (h : History) (records : List Record) (edges : List Nat) : Layout :=
  layoutFrom (Payload.start (h.payloads records edges)) h.sortedIds.length edges.length

def file (h : History) (records : List Record) (edges : List Nat) : Bytes :=
  Payload.file (h.payloads records edges)

/-- What a history must be for its file to be read again: the extra edges can be numbered in 31
bits, and the chunks carried along are Bloom chunks of which the last is not empty. -/
structure Storable (h : History) : Prop where
  edges_lt : Revision.edgeTotal h.revisions < Record.flag
  tags : ∀ a ∈ h.attachments, a.tag = .bloomIndex ∨ a.tag = .bloomData
  last : ∀ a, h.attachments.getLast? = some a → a.data ≠ []

/-- What may be attached for the file to be read again: Bloom chunks, and one chunk of extra edges of
whole words where the revisions need none. Something has to stand in the last chunk. -/
structure Readable (h : History) : Prop where
  tags : ∀ a ∈ h.attachments, a.tag = .edges ∨ a.tag = .bloomIndex ∨ a.tag = .bloomData
  edges_once : (h.attachments.filter (·.tag = .edges)).length ≤ 1
  edges_whole : ∀ a ∈ h.attachments, a.tag = .edges → a.data.length % 4 = 0
  last : ∀ a, h.attachments.getLast? = some a → a.data ≠ []

/-- A history that has passed all checks of the writer, with what was computed of it. -/
structure Prepared (h : History) (records : List Record) (edges : List Nat) : Prop where
  nonempty : h.revisions ≠ []
  length_lt : h.revisions.length < Record.noParent
  ids_rise : h.sortedIds.Pairwise (· < ·)
  placed : Revision.placeAll h.sortedIds.toArray 0 (Revision.sort h.revisions) =
    .ok (records, edges)
  unclaimed : h.attachments.find? (fun a =>
    (corePayloads h.sortedIds records edges).any (·.tag = a.tag)) = none
  payloads_lt : (h.payloads records edges).length < 256

variable {h : History} {bs : Bytes} {records : List Record} {edges : List Nat}

theorem encode_eq_ok_iff : h.encode = .ok bs ↔
    ∃ records edges, h.Prepared records edges ∧ h.file records edges = bs := by
  have hsorted := Revision.pairwise_sort h.revisions
  unfold encode
  dsimp only
  rw [← sortedIds]
  rw [← sortedIds] at hsorted
  constructor
  · intro hbs
    split at hbs
    · cases hbs
    · next hempty =>
      split at hbs
      · cases hbs
      · next hlength =>
        split at hbs
        · cases hbs
        · next hrepeat =>
          obtain ⟨⟨records, edges⟩, hplaced, hbs⟩ := bind_eq_ok.mp hbs
          dsimp only at hbs
          split at hbs
          · cases hbs
          · next hfree =>
            obtain ⟨hcount, hfile⟩ := Payload.assemble_eq_ok_iff.mp hbs
            have hrise := (Revision.firstRepeat_eq_none_iff hsorted).mp hrepeat
            have hnonempty := mt List.isEmpty_iff.mpr hempty
            exact ⟨records, edges, ⟨hnonempty, Nat.not_le.mp hlength, hrise, hplaced, hfree,
              hcount⟩, hfile⟩
  · intro hbs
    rcases hbs with ⟨records, edges, ⟨hnonempty, hlength, hrise, hplaced, hfree, hcount⟩, rfl⟩
    rw [if_neg (mt List.isEmpty_iff.mp hnonempty), if_neg (Nat.not_le.mpr hlength)]
    have hrepeat := (Revision.firstRepeat_eq_none_iff hsorted).mpr hrise
    simp only [hrepeat]
    refine bind_eq_ok.mpr ⟨_, hplaced, ?_⟩
    simp only [hfree]
    exact Payload.assemble_eq_ok_iff.mpr ⟨hcount, rfl⟩

theorem sortedIds_perm (h : History) : h.sortedIds.Perm (h.revisions.map Revision.id) :=
  (Revision.sort_perm h.revisions).map Revision.id

theorem length_sortedIds (h : History) : h.sortedIds.length = h.revisions.length := by
  rw [h.sortedIds_perm.length_eq, List.length_map]

theorem length_flatMap_fanout (ids : List ObjectId) :
    ((fanout ids).flatMap (Bytes.ofNat 4)).length = 1024 := by
  rw [Bytes.length_flatMap_ofNat, length_fanout]

theorem spans_payloads {ids : List ObjectId} (hrecords : records.length = ids.length)
    (start : Nat) (attachments : List Payload) :
    Payload.spans start (corePayloads ids records edges ++ attachments) =
      (layoutFrom start ids.length edges.length).places ++
        Payload.spans (start + 1024 + 20 * ids.length + 36 * ids.length + 4 * edges.length)
          attachments := by
  have hfanout := length_flatMap_fanout ids
  have hids := ObjectId.length_flatMap_toBytes ids
  have hcommits := Record.length_flatMap_toBytes records
  have hedges := Bytes.length_flatMap_ofNat 4 edges
  rw [hrecords] at hcommits
  cases edges with
  | nil => simp [corePayloads, Payload.spans, Layout.places, layoutFrom, hfanout, hids, hcommits]
  | cons e edges =>
    simp only [corePayloads, List.isEmpty_cons, Bool.false_eq_true, if_false, List.cons_append,
      List.nil_append, Payload.spans, Layout.places, layoutFrom, hfanout, hids, hcommits, hedges]
    simp

theorem Storable.ne_edges (hstore : h.Storable) : ∀ a ∈ h.attachments, a.tag ≠ .edges := by
  intro a ha
  rcases hstore.tags a ha with heq | heq
  · rw [heq]
    decide
  · rw [heq]
    decide

theorem Storable.readable (hstore : h.Storable) : h.Readable where
  tags a ha := .inr (hstore.tags a ha)
  edges_once := by
    have hnone : h.attachments.filter (·.tag = .edges) = [] :=
      List.filter_eq_nil_iff.mpr fun a ha => by simpa using hstore.ne_edges a ha
    rw [hnone]
    exact Nat.zero_le 1
  edges_whole a ha heq := absurd heq (hstore.ne_edges a ha)
  last := hstore.last

theorem Readable.tag_of_mem_payloads (hread : h.Readable) {q : Payload}
    (hq : q ∈ h.payloads records edges) :
    q.tag ∈ [Tag.fanout, .ids, .commits, .edges, .bloomIndex, .bloomData] := by
  rcases List.mem_append.mp hq with hcore | hattached
  · cases edges with
    | nil =>
      simp only [corePayloads, List.isEmpty_nil, if_true, List.append_nil, List.mem_cons,
        List.not_mem_nil, or_false] at hcore
      rcases hcore with rfl | rfl | rfl <;> simp
    | cons e edges =>
      simp only [corePayloads, List.isEmpty_cons, Bool.false_eq_true, if_false, List.cons_append,
        List.nil_append, List.mem_cons, List.not_mem_nil, or_false] at hcore
      rcases hcore with rfl | rfl | rfl | rfl <;> simp
  · rcases hread.tags q hattached with heq | heq | heq <;> simp [heq]

namespace Prepared

variable (p : h.Prepared records edges)
include p

theorem length_records : records.length = h.sortedIds.length := by
  rw [(Revision.length_of_placeAll p.placed).1, sortedIds, List.length_map]

theorem sortedIds_pos : 0 < h.sortedIds.length := by
  rw [length_sortedIds]
  exact List.length_pos_iff.mpr p.nonempty

theorem sortedIds_lt : h.sortedIds.length < Record.noParent := by
  rw [length_sortedIds]
  exact p.length_lt

theorem length_edges : edges.length = Revision.edgeTotal h.revisions := by
  rw [(Revision.length_of_placeAll p.placed).2]
  exact Revision.edgeTotal_eq_of_perm (Revision.sort_perm h.revisions)

theorem length_file : (h.file records edges).length =
    Payload.start (h.payloads records edges) + 1024 + 56 * h.sortedIds.length +
      4 * edges.length + Payload.size h.attachments + 20 := by
  have hids := ObjectId.length_flatMap_toBytes h.sortedIds
  have hcommits := Record.length_flatMap_toBytes records
  have hedges := Bytes.length_flatMap_ofNat 4 edges
  rw [p.length_records] at hcommits
  have hsize : Payload.size (h.payloads records edges) =
      1024 + 56 * h.sortedIds.length + 4 * edges.length + Payload.size h.attachments := by
    cases edges with
    | nil =>
      simp only [payloads, corePayloads, List.isEmpty_nil, if_true, List.append_nil,
        List.cons_append, List.nil_append, Payload.size_cons, length_flatMap_fanout, hids, hcommits]
      simp only [List.length_nil]
      omega
    | cons e edges =>
      simp only [payloads, corePayloads, List.isEmpty_cons, Bool.false_eq_true, if_false,
        List.cons_append, List.nil_append, Payload.size_cons, length_flatMap_fanout, hids, hcommits,
        hedges]
      omega
  rw [file, Payload.length_file p.payloads_lt, hsize]
  omega

/-- What carries the graph is not attached once more. -/
theorem ne_tag_of_mem_core {tag : Tag}
    (htag : tag ∈ (corePayloads h.sortedIds records edges).map Payload.tag) :
    ∀ a ∈ h.attachments, a.tag ≠ tag := by
  intro a ha heq
  obtain ⟨q, hq, rfl⟩ := List.mem_map.mp htag
  have hfree := List.find?_eq_none.mp p.unclaimed a ha
  exact hfree (List.any_eq_true.mpr ⟨q, hq, decide_eq_true heq.symm⟩)

/-- Of a kind that is not attached, there are just the chunks of the layout. -/
theorem filter_spans {tag : Tag} (hfree : ∀ a ∈ h.attachments, a.tag ≠ tag) :
    (Payload.spans (Payload.start (h.payloads records edges))
      (h.payloads records edges)).filter (·.1 = tag) =
        (h.layout records edges).places.filter (·.1 = tag) := by
  conv => lhs; rw [payloads, spans_payloads p.length_records, List.filter_append,
    Payload.filter_spans_eq_nil hfree, List.append_nil]
  rfl

theorem filter_spans_core {tag : Tag} {span : Span}
    (htag : tag ∈ (corePayloads h.sortedIds records edges).map Payload.tag)
    (hplace : (tag, span) ∈ (h.layout records edges).places) :
    (Payload.spans (Payload.start (h.payloads records edges))
      (h.payloads records edges)).filter (·.1 = tag) = [(tag, span)] := by
  rw [p.filter_spans (p.ne_tag_of_mem_core htag)]
  exact Layout.filter_places hplace

theorem windows {file : Bytes} {layout : Layout} (hfile : h.file records edges = file)
    (hlayout : h.layout records edges = layout) :
    file.window layout.fanout.start layout.fanout.stop =
        (fanout h.sortedIds).flatMap (Bytes.ofNat 4) ∧
      file.window layout.ids.start layout.ids.stop = h.sortedIds.flatMap ObjectId.toBytes ∧
      file.window layout.commits.start layout.commits.stop = records.flatMap Record.toBytes ∧
      (edges ≠ [] →
        file.window layout.edges.start layout.edges.stop = edges.flatMap (Bytes.ofNat 4)) := by
  have hwindow (tag : Tag) {data : Bytes} {span : Span}
      (hq : ⟨tag, data⟩ ∈ corePayloads h.sortedIds records edges)
      (hplace : (tag, span) ∈ layout.places) : file.window span.start span.stop = data := by
    rw [← hlayout] at hplace
    rw [← hfile]
    exact Payload.window_of_spans p.payloads_lt (List.mem_append_left _ hq)
      (p.filter_spans_core (List.mem_map.mpr ⟨_, hq, rfl⟩) hplace)
  have hcount : layout.edgeCount = edges.length := hlayout ▸ rfl
  refine ⟨?_, ?_, ?_, fun hne => ?_⟩
  · exact hwindow .fanout (by simp [corePayloads]) (by simp [Layout.places])
  · exact hwindow .ids (by simp [corePayloads]) (by simp [Layout.places])
  · exact hwindow .commits (by simp [corePayloads]) (by simp [Layout.places])
  · exact hwindow .edges (by simp [corePayloads, hne])
      (by simp [Layout.places, hcount, hne])

theorem fanout_tables : (Tables.ofLayout (h.file records edges)
    (h.layout records edges)).fanout.toList = fanout h.sortedIds := by
  obtain ⟨hwindow, _⟩ := p.windows rfl rfl
  refine Tables.fanout_of_window (length_fanout h.sortedIds) (fun n hn => ?_) hwindow
  exact Nat.lt_of_le_of_lt (le_length_of_mem_fanout hn) (Nat.lt_trans p.sortedIds_lt (by decide))

theorem ids_tables : (Tables.ofLayout (h.file records edges) (h.layout records edges)).ids =
    h.sortedIds.toArray := by
  obtain ⟨_, hwindow, _⟩ := p.windows rfl rfl
  exact Tables.ids_of_window rfl hwindow

theorem records_tables : (Tables.ofLayout (h.file records edges)
    (h.layout records edges)).records = records.toArray := by
  obtain ⟨_, _, hwindow, _⟩ := p.windows rfl rfl
  obtain ⟨hfit, _⟩ := Revision.forall_of_placeAll p.placed p.sortedIds_lt
  exact Tables.records_of_window p.length_records.symm hfit hwindow

theorem edges_tables : (Tables.ofLayout (h.file records edges)
    (h.layout records edges)).edges = edges.toArray := by
  obtain ⟨_, _, _, hwindow⟩ := p.windows rfl rfl
  obtain ⟨_, hlt⟩ := Revision.forall_of_placeAll p.placed p.sortedIds_lt
  exact Tables.edges_of_window rfl hlt hwindow

theorem countThrough_tables (b : Fin 256) :
    (Tables.ofLayout (h.file records edges) (h.layout records edges)).countThrough b =
      h.sortedIds.countP (·.firstByte ≤ b) := by
  have hcount := Tables.getElem?_fanout
    (Tables.ofLayout (h.file records edges) (h.layout records edges)) b
  rw [p.fanout_tables, getElem?_fanout] at hcount
  exact (Option.some.inj hcount).symm

theorem inBuckets_tables :
    (Tables.ofLayout (h.file records edges) (h.layout records edges)).InBuckets :=
  Tables.inBuckets_of_counts p.ids_tables p.ids_rise p.countThrough_tables

theorem getLast?_payloads (hread : h.Readable) :
    ∀ q, (h.payloads records edges).getLast? = some q → q.data ≠ [] := by
  intro q hq
  rw [payloads, List.getLast?_append] at hq
  cases hlast : h.attachments.getLast? with
  | some a =>
    rw [hlast] at hq
    obtain rfl := Option.some.inj hq
    exact hread.last a hlast
  | none =>
    rw [hlast, Option.none_or] at hq
    apply List.ne_nil_of_length_pos
    cases edges with
    | nil =>
      have hcore : (corePayloads h.sortedIds records []).getLast? =
          some ⟨.commits, records.flatMap Record.toBytes⟩ := rfl
      obtain rfl := Option.some.inj (hcore.symm.trans hq)
      have hpos := p.sortedIds_pos
      rw [Record.length_flatMap_toBytes, p.length_records]
      omega
    | cons e edges =>
      have hcore : (corePayloads h.sortedIds records (e :: edges)).getLast? =
          some ⟨.edges, (e :: edges).flatMap (Bytes.ofNat 4)⟩ := rfl
      obtain rfl := Option.some.inj (hcore.symm.trans hq)
      rw [Bytes.length_flatMap_ofNat, List.length_cons]
      omega

theorem filled : (h.layout records edges).Filled (h.file records edges) := by
  apply Tables.filled_of_ofLayout rfl rfl rfl
  · rw [p.length_file]
    change Payload.start (h.payloads records edges) + 1024 + 20 * h.sortedIds.length ≤ _
    omega
  · exact p.sortedIds_pos
  · exact fun a b => Tables.countThrough_le_of_pairwise (p.fanout_tables ▸ pairwise_fanout _)
  · rw [← Tables.getLastD_fanout, p.fanout_tables, getLastD_fanout]
    rfl
  · rw [p.ids_tables]
    exact p.ids_rise

/-- The chunks make up a graph if the extra edges do, be they of the revisions or attached. -/
theorem carries_of_edgesAt (hread : h.Readable) (span : Option Span) {place : Span} {count : Nat}
    (hspan : (Payload.spans (Payload.start (h.payloads records edges))
      (h.payloads records edges)).filter (·.1 = .edges) = span.toList.map (Tag.edges, ·))
    (hedges : Layout.EdgesAt span place count) :
    Payload.Carries (h.payloads records edges)
      { h.layout records edges with edges := place, edgeCount := count } where
  count := p.payloads_lt
  known _ hq := hread.tag_of_mem_payloads hq
  last := p.getLast?_payloads hread
  fanout := p.filter_spans_core (by simp [corePayloads]) (by simp [Layout.places])
  ids := p.filter_spans_core (by simp [corePayloads]) (by simp [Layout.places])
  commits := p.filter_spans_core (by simp [corePayloads]) (by simp [Layout.places])
  edges := ⟨span, hspan, hedges⟩
  filled := { p.filled with }

theorem carries_of_free (hread : h.Readable) (hlt : edges.length < Record.flag)
    (hfree : ∀ a ∈ h.attachments, a.tag ≠ .edges) :
    Payload.Carries (h.payloads records edges) (h.layout records edges) := by
  have hcount : (h.layout records edges).edgeCount = edges.length := rfl
  have hspan := p.filter_spans hfree
  rw [Layout.places, hcount] at hspan
  by_cases hedges : edges.length = 0
  · rw [if_pos hedges] at hspan
    have hplace : (h.layout records edges).edges = ⟨0, 0⟩ := if_pos hedges
    have hat : Layout.EdgesAt none (h.layout records edges).edges
        (h.layout records edges).edgeCount := by
      rw [hplace, hcount, hedges]
      exact .absent
    exact p.carries_of_edgesAt hread none hspan hat
  · rw [if_neg hedges] at hspan
    have hplace : (h.layout records edges).edges = ⟨_, _ + 4 * edges.length⟩ := if_neg hedges
    have hword := Nat.lt_trans hlt (by decide : Record.flag < UInt32.size)
    have hat : Layout.EdgesAt (some (h.layout records edges).edges) (h.layout records edges).edges
        (h.layout records edges).edgeCount := by
      rw [hplace, hcount]
      exact .listed _ _ (Nat.pos_of_ne_zero hedges) hword
    exact p.carries_of_edgesAt hread (some _) hspan hat

theorem carries (hstore : h.Storable) :
    Payload.Carries (h.payloads records edges) (h.layout records edges) :=
  p.carries_of_free hstore.readable (p.length_edges ▸ hstore.edges_lt) hstore.ne_edges

theorem placed_file (hsize : (h.file records edges).length < Format.sizeLimit) {tag : Tag}
    (hfree : ∀ a ∈ h.attachments, a.tag ≠ tag) :
    Format.placed (h.file records edges) tag =
      (h.layout records edges).places.filter (·.1 = tag) :=
  (Payload.placed_file p.payloads_lt hsize tag).trans (p.filter_spans hfree)

/-- Whatever is written is read, and the tables are those of the history. -/
theorem parse_file (hstore : h.Storable) (hsize : (h.file records edges).length < Format.sizeLimit) :
    Graph.parse (h.file records edges) =
      .ok (Format.graph (h.file records edges) (h.layout records edges)) :=
  (p.carries hstore).parse_file hsize

end Prepared

/-- Three revisions, of which the first written has three parents, two of them the same. -/
def sample : History where
  revisions :=
    [⟨.ofNat 0x0700000000000000000000000000000000000009, .ofNat 1,
        [.ofNat 5, .ofNat 0x0700000000000000000000000000000000000000, .ofNat 5], 3, 30⟩,
      ⟨.ofNat 5, .ofNat 2, [], 1, 10⟩,
      ⟨.ofNat 0x0700000000000000000000000000000000000000, .ofNat 3, [.ofNat 5], 2, 20⟩]
  attachments := [⟨.bloomIndex, []⟩, ⟨.bloomData, [1]⟩]

def sampleRecords : List Record :=
  [⟨.ofNat 2, Record.noParent, Record.noParent, 1, 10⟩, ⟨.ofNat 3, 0, Record.noParent, 2, 20⟩,
    ⟨.ofNat 1, 0, Record.flag, 3, 30⟩]

def sampleEdges : List Nat := [1, Record.flag]

def sampleIds : List ObjectId :=
  [.ofNat 5, .ofNat 0x0700000000000000000000000000000000000000,
    .ofNat 0x0700000000000000000000000000000000000009]

theorem sort_sample : Revision.sort sample.revisions =
    [⟨.ofNat 5, .ofNat 2, [], 1, 10⟩,
      ⟨.ofNat 0x0700000000000000000000000000000000000000, .ofNat 3, [.ofNat 5], 2, 20⟩,
      ⟨.ofNat 0x0700000000000000000000000000000000000009, .ofNat 1,
        [.ofNat 5, .ofNat 0x0700000000000000000000000000000000000000, .ofNat 5], 3, 30⟩] := by
  apply Revision.sort_eq_of_perm
  · decide
  · decide

theorem sortedIds_sample : sample.sortedIds = sampleIds := by
  rw [sortedIds, sort_sample]
  rfl

theorem placeAll_sample : Revision.placeAll sampleIds.toArray 0 (Revision.sort sample.revisions) =
    .ok (sampleRecords, sampleEdges) := by
  have hsorted : ObjectId.Table.Ascending sampleIds.toArray := by
    change sampleIds.Pairwise _
    decide
  have hfirst : Revision.positionOf sampleIds.toArray (.ofNat 5) = some 0 :=
    Revision.positionOf_of_getElem? hsorted rfl
  have hsecond : Revision.positionOf sampleIds.toArray
      (.ofNat 0x0700000000000000000000000000000000000000) = some 1 :=
    Revision.positionOf_of_getElem? hsorted rfl
  rw [sort_sample]
  simp only [Revision.placeAll, Revision.place, Revision.parentPositions, List.mapM_cons,
    List.mapM_nil, hfirst, hsecond]
  rfl

theorem prepared_sample : sample.Prepared sampleRecords sampleEdges where
  nonempty := by decide
  length_lt := by decide
  ids_rise := by
    rw [sortedIds_sample]
    decide
  placed := by
    rw [sortedIds_sample]
    exact placeAll_sample
  unclaimed := by decide
  payloads_lt := by decide

theorem storable_sample : sample.Storable where
  edges_lt := by decide
  tags := by decide
  last := by simp [sample]

def sampleFile : Bytes := sample.file sampleRecords sampleEdges

def sampleGraph : Graph := Format.graph sampleFile (sample.layout sampleRecords sampleEdges)

theorem length_sampleFile : sampleFile.length < Format.sizeLimit := by
  rw [sampleFile, prepared_sample.length_file, length_sortedIds]
  decide

theorem parse_sampleFile : Graph.parse sampleFile = .ok sampleGraph :=
  prepared_sample.parse_file storable_sample length_sampleFile

def sampleTables : Tables where
  fanout := ⟨(fanout sampleIds).toArray, length_fanout sampleIds⟩
  ids := sampleIds.toArray
  records := sampleRecords.toArray
  edges := sampleEdges.toArray
  size_records := rfl

theorem tables_sampleGraph : sampleGraph.tables = sampleTables := by
  apply Tables.eq_of_fields
  · exact prepared_sample.fanout_tables.trans (congrArg fanout sortedIds_sample)
  · exact prepared_sample.ids_tables.trans (congrArg List.toArray sortedIds_sample)
  · exact prepared_sample.records_tables
  · exact prepared_sample.edges_tables

end History

end Ancestry
