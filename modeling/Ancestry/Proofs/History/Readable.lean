import Ancestry.Proofs.History.RoundTrip

/-!
# What may be attached

The writer refuses a further chunk only if it has written one of that kind itself. The reader is
stricter: it wants to know the kind, takes extra edges once and in whole words, and takes no chunk
that starts where the trailer does. So not all that is written is read. What is read has every
revision in it, whatever was attached.
-/

namespace Ancestry.History

open Outcome

/-- The commit has the figures of the revision, and its parents are those that the revision names, in
the order in which it names them. -/
structure Restores (t : Tables) (c : Commit) (r : Revision) : Prop where
  id : c.id = r.id
  tree : c.tree = r.tree
  generation : c.generation = r.generation
  time : c.time = r.time
  parentCount : c.parentCount = r.parents.length
  parents : ∃ parents : List Commit, t.parents c = parents.map .ok ∧
    parents.map Commit.id = r.parents

variable {h : History} {file : Bytes} {records : List Record} {edges : List Nat} {t : Tables}

namespace Holds

variable (holds : h.Holds records edges t)
include holds

theorem inBuckets : t.InBuckets :=
  Tables.inBuckets_of_counts holds.ids holds.prepared.ids_rise holds.counts

theorem exists_find (sound : t.Sound) {r : Revision} (hr : r ∈ h.revisions) :
    ∃ c, t.find r.id 40 = .ok c ∧ Restores t c r := by
  obtain ⟨i, hi⟩ := List.mem_iff_getElem?.mp ((Revision.sort_perm h.revisions).mem_iff.mpr hr)
  obtain ⟨c, ps, stores⟩ := holds.exists_stores sound hi
  refine ⟨c, ?_, stores.id, stores.tree, stores.generation, stores.time,
    stores.parentCount.trans stores.length_places, ?_⟩
  · rw [Tables.find_of_getElem? sound holds.inBuckets (Nat.le_refl 40) (holds.getElem?_ids hi),
      stores.commit]
  · exact stores.exists_parents fun q hq => holds.exists_commitAt sound hq

end Holds

namespace Prepared

variable (p : h.Prepared records edges) (hsize : (h.file records edges).length < Format.sizeLimit)
include p hsize

theorem length_placed (tag : Tag) : (Format.placed (h.file records edges) tag).length =
    ((h.payloads records edges).filter (·.tag = tag)).length := by
  rw [file, Payload.placed_file p.payloads_lt hsize, Payload.length_filter_spans]

theorem exists_mem_placed {a : Payload} (ha : a ∈ h.attachments) {tag : Tag} (htag : a.tag = tag) :
    ∃ start, (tag, Span.mk start (start + a.data.length)) ∈
      Format.placed (h.file records edges) tag := by
  obtain ⟨start, hstart⟩ := Payload.exists_mem_spans (Payload.start (h.payloads records edges))
    (List.mem_append_right (corePayloads h.sortedIds records edges) ha)
  rw [htag] at hstart
  rw [file, Payload.placed_file p.payloads_lt hsize]
  exact ⟨start, List.mem_filter.mpr ⟨hstart, by simp⟩⟩

/-- A chunk of extra edges that is attached alone and whole is where the file has its extra edges. -/
theorem exists_edgesAt_of_mem (hread : h.Readable) (hedges : edges = []) {a : Payload}
    (ha : a ∈ h.attachments) (htag : a.tag = .edges) (hlength : a.data.length < 0x400000000) :
    ∃ span place count, Format.placed (h.file records edges) .edges = [(.edges, span)] ∧
      Layout.EdgesAt (some span) place count := by
  obtain ⟨start, hmem⟩ := p.exists_mem_placed hsize ha htag
  -- The revisions need no edges, so the attached chunk is the only one of its kind.
  have honce : (Format.placed (h.file records edges) .edges).length ≤ 1 := by
    rw [p.length_placed hsize, hedges]
    exact hread.edges_once
  obtain ⟨count, hcount⟩ := Nat.dvd_of_mod_eq_zero (hread.edges_whole a ha htag)
  rw [hcount] at hmem hlength
  have hwords : count < UInt32.size := by
    rw [UInt32.size]
    omega
  refine ⟨_, _, count, ?_, Layout.edgesAt_some start hwords⟩
  match hplaced : Format.placed (h.file records edges) .edges with
  | [] => simp [hplaced] at hmem
  | [m] =>
    rw [hplaced] at hmem
    rw [List.mem_singleton.mp hmem]
  | m :: n :: rest => simp [hplaced] at honce

theorem exists_parse_of_readable (hread : h.Readable) (hlt : edges.length < Record.flag)
    (hattached : ∀ a ∈ h.attachments, a.tag = .edges → a.data.length < 0x400000000) :
    ∃ g, Graph.parse (h.file records edges) = .ok g ∧ h.Holds records edges g.tables := by
  by_cases hmem : ∃ a ∈ h.attachments, a.tag = .edges
  · obtain ⟨a, ha, htag⟩ := hmem
    have hedges : edges = [] := by
      apply Decidable.byContradiction
      intro hne
      exact p.ne_tag_of_mem_core (by simp [corePayloads, hne]) a ha htag
    obtain ⟨span, place, count, hplaced, hat⟩ :=
      p.exists_edgesAt_of_mem hsize hread hedges ha htag (hattached a ha htag)
    have hspan := (Payload.placed_file p.payloads_lt hsize .edges).symm.trans hplaced
    have hcarries := p.carries_of_edgesAt hread (some span) hspan hat
    exact ⟨_, hcarries.parse_file hsize, p.holds_ofLayout (hedges ▸ List.nil_prefix)⟩
  · have hfree : ∀ a ∈ h.attachments, a.tag ≠ .edges := fun a ha htag => hmem ⟨a, ha, htag⟩
    exact ⟨_, (p.carries_of_free hread hlt hfree).parse_file hsize, p.holds rfl⟩

section WellFormed

variable {layout : Layout} (hwell : Format.WellFormed (h.file records edges) layout)
include hwell

theorem tag_of_wellFormed {a : Payload} (ha : a ∈ h.attachments) :
    a.tag = .edges ∨ a.tag = .bloomIndex ∨ a.tag = .bloomData := by
  have htags := Payload.map_tag_lines (Payload.start (h.payloads records edges))
    (h.payloads records edges)
  rw [← Payload.entries_file p.payloads_lt (Nat.lt_trans hsize (by decide)), ← file] at htags
  have hmem : a.tag ∈ (h.payloads records edges).map Payload.tag :=
    List.mem_map.mpr ⟨a, List.mem_append_right _ ha, rfl⟩
  rw [← htags] at hmem
  obtain ⟨e, he, htag⟩ := List.mem_map.mp hmem
  have hknown := hwell.known e he
  have hfanout : a.tag ≠ .fanout := p.ne_tag_of_mem_core (by simp [corePayloads]) a ha
  have hids : a.tag ≠ .ids := p.ne_tag_of_mem_core (by simp [corePayloads]) a ha
  have hcommits : a.tag ≠ .commits := p.ne_tag_of_mem_core (by simp [corePayloads]) a ha
  rw [htag] at hknown
  simpa [hfanout, hids, hcommits] using hknown

theorem readable_of_wellFormed : h.Readable := by
  obtain ⟨span, hplaced, hat⟩ := hwell.edges
  constructor
  · exact fun a ha => p.tag_of_wellFormed hsize hwell ha
  · have hlength := p.length_placed hsize .edges
    rw [hplaced, payloads, List.filter_append, List.length_append, List.length_map] at hlength
    have hone : span.toList.length ≤ 1 := by cases span <;> simp
    omega
  · -- The chunk of extra edges that the reader has taken is the attached one.
    intro a ha htag
    obtain ⟨start, hmem⟩ := p.exists_mem_placed hsize ha htag
    rw [hplaced] at hmem
    obtain ⟨s, hs, heq⟩ := List.mem_map.mp hmem
    obtain rfl := (Prod.mk.inj heq).2
    rw [Option.mem_toList.mp hs] at hat
    generalize hstop : start + a.data.length = stop at hat
    generalize layout.edges = place at hat
    generalize layout.edgeCount = count at hat
    cases hat with
    | empty => omega
    | listed _ count => omega
  · intro a ha
    have horder := hwell.inOrder
    rw [file, Payload.entries_file p.payloads_lt (Nat.lt_trans hsize (by decide)),
      Payload.trailer_file p.payloads_lt] at horder
    apply Payload.data_ne_nil_of_inOrder horder
    rw [payloads, List.getLast?_append, ha]
    rfl

end WellFormed

end Prepared

/-- A written file is read exactly when its attachments are such that it can be, and then nothing of
the history is missing. -/
theorem exists_parse_iff_readable (hencode : h.encode = .ok file)
    (hedges : Revision.edgeTotal h.revisions < Record.flag)
    (hattached : ∀ a ∈ h.attachments, a.tag = .edges → a.data.length < 0x400000000)
    (hfile : file.length < Format.sizeLimit) :
    ((∃ g, Graph.parse file = .ok g) ↔ h.Readable) ∧
      ∀ g, Graph.parse file = .ok g → g.tables.size = h.revisions.length ∧
        ∀ r ∈ h.revisions, ∃ c, g.tables.find r.id 40 = .ok c ∧ Restores g.tables c r := by
  obtain ⟨records, edges, p, rfl⟩ := encode_eq_ok_iff.mp hencode
  rw [← p.length_edges] at hedges
  have haccepts (hread : h.Readable) := p.exists_parse_of_readable hfile hread hedges hattached
  have hneeds {g : Graph} (hg : Graph.parse (h.file records edges) = .ok g) : h.Readable :=
    p.readable_of_wellFormed hfile (Format.wellFormed_of_parse hfile hg).1
  constructor
  · constructor
    · intro h'
      rcases h' with ⟨g, hg⟩
      exact hneeds hg
    · intro hread
      obtain ⟨g, hg, _⟩ := haccepts hread
      exact ⟨g, hg⟩
  · intro g hg
    obtain ⟨g', hg', holds⟩ := haccepts (hneeds hg)
    obtain rfl := Except.ok.inj (hg'.symm.trans hg)
    have sound := Graph.sound_of_parse hfile hg
    exact ⟨holds.size_eq, fun r hr => holds.exists_find sound hr⟩

def lone (attachments : List Payload) : History where
  revisions := [⟨.ofNat 7, .ofNat 1, [], 1, 10⟩]
  attachments := attachments

def loneRecords : List Record := [⟨.ofNat 1, Record.noParent, Record.noParent, 1, 10⟩]

section Lone

variable {attachments : List Payload}

theorem sort_lone : Revision.sort (lone attachments).revisions = (lone attachments).revisions :=
  Revision.sort_eq_of_perm (List.Perm.refl _) (List.pairwise_singleton _ _)

variable (hfew : attachments.length < 253)
variable (hfree : ∀ a ∈ attachments, a.tag ∉ [Tag.fanout, .ids, .commits])
include hfew hfree

theorem prepared_lone : (lone attachments).Prepared loneRecords [] where
  nonempty := List.cons_ne_nil _ _
  length_lt := (by decide : 1 < Record.noParent)
  ids_rise := by
    rw [sortedIds, sort_lone]
    exact List.pairwise_singleton _ _
  placed := by
    rw [sort_lone]
    rfl
  unclaimed := by
    apply List.find?_eq_none.mpr
    intro a ha hclaimed
    apply hfree a ha
    obtain ⟨q, hq, htag⟩ := List.any_eq_true.mp hclaimed
    rw [← of_decide_eq_true htag]
    exact List.mem_map.mpr ⟨q, hq, rfl⟩
  payloads_lt := by
    rw [payloads, List.length_append]
    change 3 + attachments.length < 256
    omega

theorem encode_lone : (lone attachments).encode = .ok ((lone attachments).file loneRecords []) :=
  encode_eq_ok_iff.mpr ⟨_, _, prepared_lone hfew hfree, rfl⟩

theorem length_lone (hsize : Payload.size attachments < 256) :
    ((lone attachments).file loneRecords []).length < Format.sizeLimit := by
  rw [(prepared_lone hfew hfree).length_file, length_sortedIds, Payload.start, payloads,
    List.length_append]
  change 8 + 12 * (3 + attachments.length + 1) + 1024 + 56 * 1 + 4 * 0 +
    Payload.size attachments + 20 < 0x8000000000000000
  omega

end Lone

/-- Extra edges may be attached where there are none, but an empty last chunk may not. -/
theorem parse_lone :
    (∃ file g, (lone [⟨.edges, [0, 0, 0, 5]⟩, ⟨.bloomData, [1]⟩]).encode = .ok file ∧
      Graph.parse file = .ok g ∧ g.tables.size = 1) ∧
    ∃ file, (lone [⟨.bloomIndex, []⟩]).encode = .ok file ∧ ¬ ∃ g, Graph.parse file = .ok g := by
  constructor
  · have hencode : (lone [⟨.edges, [0, 0, 0, 5]⟩, ⟨.bloomData, [1]⟩]).encode = .ok _ :=
      encode_lone (by decide) (by decide)
    obtain ⟨haccepts, hreports⟩ := exists_parse_iff_readable hencode (by decide) (by decide)
      (length_lone (by decide) (by decide) (by decide))
    obtain ⟨g, hg⟩ := haccepts.mpr ⟨by decide, by decide, by decide, by simp [lone]⟩
    exact ⟨_, g, hencode, hg, (hreports g hg).1⟩
  · have hencode : (lone [⟨.bloomIndex, []⟩]).encode = .ok _ :=
      encode_lone (by decide) (by decide)
    obtain ⟨haccepts, _⟩ := exists_parse_iff_readable hencode (by decide) (by decide)
      (length_lone (by decide) (by decide) (by decide))
    exact ⟨_, hencode, fun hg => (haccepts.mp hg).last _ rfl rfl⟩

end Ancestry.History
