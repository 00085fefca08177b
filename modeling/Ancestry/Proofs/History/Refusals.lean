import Ancestry.Proofs.History.Encode
import Ancestry.Proofs.History.Faults

/-!
# Which histories are refused

A history is written exactly if nothing is wrong with it, and what is wrong first is reported
otherwise. First comes what concerns all revisions, then the revisions in ascending order of their
ids, then the chunks carried along in the order given, and at last the number of all chunks.
-/

namespace Ancestry

open Outcome

namespace Revision

theorem edgeTotal_eq_zero_iff {revisions : List Revision} :
    edgeTotal revisions = 0 ↔ ∀ r ∈ revisions, r.parents.length < 3 := by
  induction revisions with
  | nil => exact ⟨fun _ => List.forall_mem_nil _, fun _ => rfl⟩
  | cons r rest ih =>
    rw [edgeTotal, Nat.add_eq_zero_iff, ih, List.forall_mem_cons, edgeCount]
    apply and_congr_left
    intro _
    split <;> omega

end Revision

namespace History

def ids (h : History) : List ObjectId :=
  h.revisions.map Revision.id

def Has (h : History) (id : ObjectId) : Prop := id ∈ h.ids

def Repeats (h : History) (id : ObjectId) : Prop := 1 < h.ids.count id

instance (h : History) (r : Revision) : Decidable (r.Whole h.Has) :=
  decidable_of_iff (r.generation ≤ Record.maxGeneration ∧ r.time ≤ Record.maxTime ∧
      ∀ p ∈ r.parents, p ∈ h.ids)
    ⟨fun ⟨hgeneration, htime, hparents⟩ => ⟨hgeneration, htime, hparents⟩,
      fun ⟨hgeneration, htime, hparents⟩ => ⟨hgeneration, htime, hparents⟩⟩

def HasOctopus (h : History) : Prop := ∃ r ∈ h.revisions, 3 ≤ r.parents.length

instance (h : History) : Decidable h.HasOctopus :=
  inferInstanceAs (Decidable (∃ r ∈ h.revisions, 3 ≤ r.parents.length))

/-- The tags of the chunks that carry the revisions. Nothing else can be attached under them. -/
def coreTags (h : History) : List Tag :=
  [.fanout, .ids, .commits] ++ if h.HasOctopus then [.edges] else []

structure Consistent (h : History) : Prop where
  nonempty : h.revisions ≠ []
  distinct : h.ids.Nodup
  whole : ∀ r ∈ h.revisions, r.Whole h.Has

structure Writable (h : History) : Prop extends h.Consistent where
  unclaimed : ∀ a ∈ h.attachments, a.tag ∉ h.coreTags
  chunks_le : h.coreTags.length + h.attachments.length ≤ 255

/-- What is wrong first, and how it is reported. -/
inductive Refusal (h : History) : GraphError → Prop
  | nothing (empty : h.revisions = []) : Refusal h .nothingToWrite
  | repeated (id : ObjectId) (twice : h.Repeats id) (least : ∀ other, h.Repeats other → id ≤ other) :
      Refusal h (.duplicateCommit id)
  | faulty (r : Revision) (e : GraphError) (distinct : h.ids.Nodup) (mem : r ∈ h.revisions)
      (least : ∀ s ∈ h.revisions, s.id < r.id → s.Whole h.Has) (fault : r.Fault h.Has e) :
      Refusal h e
  | claimed (a : Payload) (consistent : h.Consistent)
      (first : IsFirst (·.tag ∈ h.coreTags) h.attachments a) :
      Refusal h (.duplicateChunk a.tag)
  | chunks (consistent : h.Consistent) (unclaimed : ∀ a ∈ h.attachments, a.tag ∉ h.coreTags)
      (many : 255 < h.coreTags.length + h.attachments.length) : Refusal h (.tooMany .chunks)

variable {h : History} {records : List Record} {edges : List Nat} {e : GraphError}

theorem mem_sortedIds_iff (h : History) (id : ObjectId) : h.Has id ↔ id ∈ h.sortedIds.toArray := by
  rw [List.mem_toArray]
  exact h.sortedIds_perm.mem_iff.symm

theorem sortedIds_ascend (h : History) : h.sortedIds.Pairwise (· ≤ ·) :=
  Revision.pairwise_sort h.revisions

theorem firstRepeat_sortedIds_eq_none_iff :
    Revision.firstRepeat h.sortedIds = none ↔ h.ids.Nodup := by
  rw [Revision.firstRepeat_eq_none_iff_nodup h.sortedIds_ascend]
  exact h.sortedIds_perm.nodup_iff

theorem firstRepeat_sortedIds_eq_some_iff {id : ObjectId} :
    Revision.firstRepeat h.sortedIds = some id ↔
      h.Repeats id ∧ ∀ other, h.Repeats other → id ≤ other := by
  rw [Revision.firstRepeat_eq_some_iff h.sortedIds_ascend]
  simp only [h.sortedIds_perm.count_eq]
  rfl

theorem sortedIds_rise (distinct : h.ids.Nodup) : h.sortedIds.Pairwise (· < ·) :=
  (Revision.firstRepeat_eq_none_iff h.sortedIds_ascend).mp
    (firstRepeat_sortedIds_eq_none_iff.mpr distinct)

section Placed

variable (placed : Revision.placeAll h.sortedIds.toArray 0 (Revision.sort h.revisions) =
  .ok (records, edges))
include placed

theorem isEmpty_edges_iff : edges.isEmpty ↔ ¬ h.HasOctopus := by
  rw [List.isEmpty_iff_length_eq_zero, (Revision.length_of_placeAll placed).2,
    Revision.edgeTotal_eq_of_perm (Revision.sort_perm h.revisions), Revision.edgeTotal_eq_zero_iff]
  simp [HasOctopus]

theorem map_tag_corePayloads :
    (corePayloads h.sortedIds records edges).map Payload.tag = h.coreTags := by
  rw [corePayloads, coreTags]
  by_cases hoctopus : h.HasOctopus
  · have hedges : ¬ edges.isEmpty := fun hempty => (isEmpty_edges_iff placed).mp hempty hoctopus
    rw [if_neg hedges, if_pos hoctopus]
    rfl
  · rw [if_pos ((isEmpty_edges_iff placed).mpr hoctopus), if_neg hoctopus]
    rfl

theorem any_corePayloads_iff (tag : Tag) :
    (corePayloads h.sortedIds records edges).any (·.tag = tag) ↔ tag ∈ h.coreTags := by
  rw [← map_tag_corePayloads placed, List.any_eq_true, List.mem_map]
  simp only [decide_eq_true_eq]

theorem find?_attachments_eq_none_iff :
    h.attachments.find? (fun a => (corePayloads h.sortedIds records edges).any (·.tag = a.tag)) =
      none ↔ ∀ a ∈ h.attachments, a.tag ∉ h.coreTags := by
  simp only [List.find?_eq_none, any_corePayloads_iff placed]

theorem find?_attachments_eq_some_iff {a : Payload} :
    h.attachments.find? (fun a => (corePayloads h.sortedIds records edges).any (·.tag = a.tag)) =
      some a ↔ IsFirst (·.tag ∈ h.coreTags) h.attachments a :=
  find?_eq_some_iff_isFirst fun a => any_corePayloads_iff placed a.tag

theorem length_payloads_eq :
    (h.payloads records edges).length = h.coreTags.length + h.attachments.length := by
  rw [payloads, List.length_append, ← map_tag_corePayloads placed, List.length_map]

end Placed

section Placing

variable (hroom : Revision.edgeTotal h.revisions < Record.flag)
include hroom

theorem edgeTotal_sort_le : 0 + Revision.edgeTotal (Revision.sort h.revisions) ≤ Record.flag := by
  rw [Nat.zero_add, Revision.edgeTotal_eq_of_perm (Revision.sort_perm h.revisions)]
  exact Nat.le_of_lt hroom

variable (distinct : h.ids.Nodup)
include distinct

/-- The revisions are placed unless one is at fault, and then it is the one with the least id. -/
theorem placeAll_eq_error_iff_least :
    Revision.placeAll h.sortedIds.toArray 0 (Revision.sort h.revisions) = .error e ↔
      ∃ r ∈ h.revisions, (∀ s ∈ h.revisions, s.id < r.id → s.Whole h.Has) ∧ r.Fault h.Has e := by
  have hrise := sortedIds_rise distinct
  have hsorted : ObjectId.Table.Ascending h.sortedIds.toArray := hrise
  rw [Revision.placeAll_eq_error_iff hsorted h.mem_sortedIds_iff (edgeTotal_sort_le hroom)]
  simp only [Revision.isFirst_iff_least (List.pairwise_map.mp hrise),
    (Revision.sort_perm h.revisions).mem_iff, Classical.not_not]
  constructor
  · rintro ⟨r, ⟨hr, _, hleast⟩, fault⟩
    exact ⟨r, hr, hleast, fault⟩
  · rintro ⟨r, hr, hleast, fault⟩
    exact ⟨r, ⟨hr, fault.not_whole, hleast⟩, fault⟩

theorem exists_placeAll_iff : (∃ records edges,
    Revision.placeAll h.sortedIds.toArray 0 (Revision.sort h.revisions) = .ok (records, edges)) ↔
      ∀ r ∈ h.revisions, r.Whole h.Has := by
  have hsorted : ObjectId.Table.Ascending h.sortedIds.toArray := sortedIds_rise distinct
  constructor
  · rintro ⟨records, edges, placed⟩ r hr
    obtain ⟨i, hi⟩ := List.mem_iff_getElem?.mp ((Revision.sort_perm h.revisions).mem_iff.mpr hr)
    obtain ⟨_, _, _, _, ps, _, _, _, hplaced⟩ := Revision.exists_placed_of_placeAll placed hi
    apply (Revision.fits_iff_whole hsorted h.mem_sortedIds_iff).mp
    exact ⟨hplaced.generation_le, hplaced.time_le, ps, hplaced.parents⟩
  · intro whole
    refine Revision.exists_placeAll (fun r hr => ?_) (edgeTotal_sort_le hroom)
    apply (Revision.fits_iff_whole hsorted h.mem_sortedIds_iff).mpr
    exact whole r ((Revision.sort_perm h.revisions).mem_iff.mp hr)

end Placing

theorem Consistent.exists_placed (consistent : h.Consistent)
    (hroom : Revision.edgeTotal h.revisions < Record.flag) : ∃ records edges,
      Revision.placeAll h.sortedIds.toArray 0 (Revision.sort h.revisions) = .ok (records, edges) :=
  (exists_placeAll_iff hroom consistent.distinct).mpr consistent.whole

section Encode

variable (hfew : h.revisions.length < Record.noParent)
include hfew

theorem encode_of_firstRepeat {id : ObjectId}
    (hrepeat : Revision.firstRepeat h.sortedIds = some id) :
    h.encode = .error (.duplicateCommit id) := by
  have hnonempty : h.revisions ≠ [] := by
    intro hempty
    obtain ⟨htwice, _⟩ := firstRepeat_sortedIds_eq_some_iff.mp hrepeat
    rw [Repeats, ids, hempty] at htwice
    cases htwice
  unfold encode
  dsimp only
  rw [← sortedIds, if_neg (mt List.isEmpty_iff.mp hnonempty), if_neg (Nat.not_le.mpr hfew)]
  simp only [hrepeat]

theorem encode_eq_error_iff_of_distinct (hnonempty : h.revisions ≠ []) (distinct : h.ids.Nodup) :
    h.encode = .error e ↔
      Revision.placeAll h.sortedIds.toArray 0 (Revision.sort h.revisions) = .error e ∨
      ∃ records edges,
        Revision.placeAll h.sortedIds.toArray 0 (Revision.sort h.revisions) = .ok (records, edges) ∧
        ((∃ a, IsFirst (·.tag ∈ h.coreTags) h.attachments a ∧ .duplicateChunk a.tag = e) ∨
          (∀ a ∈ h.attachments, a.tag ∉ h.coreTags) ∧
            255 < h.coreTags.length + h.attachments.length ∧ .tooMany .chunks = e) := by
  unfold encode
  dsimp only
  rw [← sortedIds, if_neg (mt List.isEmpty_iff.mp hnonempty), if_neg (Nat.not_le.mpr hfew)]
  simp only [firstRepeat_sortedIds_eq_none_iff.mpr distinct]
  rw [bind_eq_error]
  apply or_congr_right
  constructor
  · rintro ⟨⟨records, edges⟩, placed, he⟩
    refine ⟨records, edges, placed, ?_⟩
    dsimp only at he
    split at he
    · next a hclaimed =>
      exact .inl ⟨a, (find?_attachments_eq_some_iff placed).mp hclaimed, Except.error.inj he⟩
    · next hunclaimed =>
      obtain ⟨hmany, htooMany⟩ := Payload.assemble_eq_error_iff.mp he
      rw [← payloads, length_payloads_eq placed] at hmany
      exact .inr ⟨(find?_attachments_eq_none_iff placed).mp hunclaimed, hmany, htooMany⟩
  · rintro ⟨records, edges, placed, ⟨a, first, rfl⟩ | ⟨unclaimed, hmany, rfl⟩⟩
    · refine ⟨(records, edges), placed, ?_⟩
      simp only [(find?_attachments_eq_some_iff placed).mpr first]
    · refine ⟨(records, edges), placed, ?_⟩
      simp only [(find?_attachments_eq_none_iff placed).mpr unclaimed]
      rw [← length_payloads_eq placed] at hmany
      exact Payload.assemble_eq_error_iff.mpr ⟨hmany, rfl⟩

variable (hroom : Revision.edgeTotal h.revisions < Record.flag)
include hroom

theorem exists_prepared_iff_writable : (∃ records edges, h.Prepared records edges) ↔ h.Writable := by
  constructor
  · rintro ⟨records, edges, p⟩
    have distinct : h.ids.Nodup := by
      apply h.sortedIds_perm.nodup_iff.mp
      exact p.ids_rise.imp fun hab => (ObjectId.lt_iff_le_and_ne.mp hab).2
    have whole := (exists_placeAll_iff hroom distinct).mp ⟨records, edges, p.placed⟩
    have hchunks := p.payloads_lt
    rw [length_payloads_eq p.placed] at hchunks
    exact ⟨⟨p.nonempty, distinct, whole⟩, (find?_attachments_eq_none_iff p.placed).mp p.unclaimed,
      Nat.le_of_lt_succ hchunks⟩
  · intro writable
    obtain ⟨records, edges, placed⟩ := writable.exists_placed hroom
    have hchunks := Nat.lt_succ_of_le writable.chunks_le
    rw [← length_payloads_eq placed] at hchunks
    exact ⟨records, edges, writable.nonempty, hfew, sortedIds_rise writable.distinct, placed,
      (find?_attachments_eq_none_iff placed).mpr writable.unclaimed, hchunks⟩

theorem refusal_of_encode (he : h.encode = .error e) : h.Refusal e := by
  by_cases hempty : h.revisions = []
  · rw [encode, hempty] at he
    obtain rfl := Except.error.inj he
    exact .nothing hempty
  · cases hrepeat : Revision.firstRepeat h.sortedIds with
    | some id =>
      rw [encode_of_firstRepeat hfew hrepeat] at he
      obtain rfl := Except.error.inj he
      obtain ⟨htwice, hleast⟩ := firstRepeat_sortedIds_eq_some_iff.mp hrepeat
      exact .repeated id htwice hleast
    | none =>
      have distinct := firstRepeat_sortedIds_eq_none_iff.mp hrepeat
      rcases (encode_eq_error_iff_of_distinct hfew hempty distinct).mp he with
        hfault | ⟨records, edges, placed, hrest⟩
      · obtain ⟨r, hr, hleast, fault⟩ := (placeAll_eq_error_iff_least hroom distinct).mp hfault
        exact .faulty r e distinct hr hleast fault
      · have whole := (exists_placeAll_iff hroom distinct).mp ⟨records, edges, placed⟩
        rcases hrest with ⟨a, first, rfl⟩ | ⟨unclaimed, many, rfl⟩
        · exact .claimed a ⟨hempty, distinct, whole⟩ first
        · exact .chunks ⟨hempty, distinct, whole⟩ unclaimed many

theorem encode_of_refusal (refusal : h.Refusal e) : h.encode = .error e := by
  cases refusal with
  | nothing hempty =>
    rw [encode, hempty]
    rfl
  | repeated id twice least =>
    exact encode_of_firstRepeat hfew (firstRepeat_sortedIds_eq_some_iff.mpr ⟨twice, least⟩)
  | faulty r _ distinct mem least fault =>
    apply (encode_eq_error_iff_of_distinct hfew (List.ne_nil_of_mem mem) distinct).mpr
    exact .inl ((placeAll_eq_error_iff_least hroom distinct).mpr ⟨r, mem, least, fault⟩)
  | claimed a consistent first =>
    obtain ⟨records, edges, placed⟩ := consistent.exists_placed hroom
    apply (encode_eq_error_iff_of_distinct hfew consistent.nonempty consistent.distinct).mpr
    exact .inr ⟨records, edges, placed, .inl ⟨a, first, rfl⟩⟩
  | chunks consistent unclaimed many =>
    obtain ⟨records, edges, placed⟩ := consistent.exists_placed hroom
    apply (encode_eq_error_iff_of_distinct hfew consistent.nonempty consistent.distinct).mpr
    exact .inr ⟨records, edges, placed, .inr ⟨unclaimed, many, rfl⟩⟩

end Encode

/-- A history is written exactly if nothing is wrong with it, and what is wrong first is the error
otherwise. -/
theorem encode_iff_writable_and_refusal (hfew : h.revisions.length < Record.noParent)
    (hroom : Revision.edgeTotal h.revisions < Record.flag) :
    ((∃ file, h.encode = .ok file) ↔ h.Writable) ∧ ∀ e, h.encode = .error e ↔ h.Refusal e := by
  constructor
  · rw [← exists_prepared_iff_writable hfew hroom]
    simp only [encode_eq_ok_iff]
    constructor
    · rintro ⟨file, records, edges, p, _⟩
      exact ⟨records, edges, p⟩
    · rintro ⟨records, edges, p⟩
      exact ⟨_, records, edges, p, rfl⟩
  · intro e
    exact ⟨refusal_of_encode hfew hroom, encode_of_refusal hfew hroom⟩

def tangled : History where
  revisions :=
    [⟨.ofNat 9, .zero, [], Record.maxGeneration + 1, 0⟩,
      ⟨.ofNat 7, .zero, [.ofNat 5, .ofNat 8, .ofNat 6], 2, 0⟩, ⟨.ofNat 5, .zero, [], 1, 0⟩]
  attachments := [⟨.edges, []⟩, ⟨.fanout, []⟩]

theorem refusal_tangled : tangled.Refusal (.unknownParent (.ofNat 7) (.ofNat 8)) := by
  have hlarge : ¬ ObjectId.ofNat 9 < .ofNat 7 := by decide
  refine .faulty ⟨.ofNat 7, .zero, [.ofNat 5, .ofNat 8, .ofNat 6], 2, 0⟩ _ ?_ ?_ ?_ ?_
  · change [ObjectId.ofNat 9, .ofNat 7, .ofNat 5].Nodup
    decide
  · simp [tangled]
  · intro s hs hlt
    simp only [tangled, List.mem_cons, List.not_mem_nil, or_false] at hs
    rcases hs with rfl | rfl | rfl
    · exact absurd hlt hlarge
    · exact absurd hlt (ObjectId.lt_irrefl _)
    · exact ⟨by decide, by decide, nofun⟩
  · refine .parent (by decide) (by decide) (.ofNat 8) ⟨[.ofNat 5], [.ofNat 6], rfl, ?_, ?_⟩
    · simp [Has, ids, tangled]
    · change ObjectId.ofNat 8 ∉ [ObjectId.ofNat 9, .ofNat 7, .ofNat 5]
      decide

/-- Of all that is wrong the missing parent is reported, and nothing is wrong with the sample. -/
theorem encode_tangled : tangled.revisions.length < Record.noParent ∧
    Revision.edgeTotal tangled.revisions < Record.flag ∧
    tangled.encode = .error (.unknownParent (.ofNat 7) (.ofNat 8)) ∧ sample.Writable := by
  have hfew : tangled.revisions.length < Record.noParent := by decide
  have hroom : Revision.edgeTotal tangled.revisions < Record.flag := by decide
  obtain ⟨_, hrefusal⟩ := encode_iff_writable_and_refusal hfew hroom
  obtain ⟨hwritable, _⟩ :=
    encode_iff_writable_and_refusal prepared_sample.length_lt storable_sample.edges_lt
  have hsample : sample.encode = .ok sampleFile :=
    encode_eq_ok_iff.mpr ⟨_, _, prepared_sample, rfl⟩
  exact ⟨hfew, hroom, (hrefusal _).mpr refusal_tangled, hwritable.mp ⟨_, hsample⟩⟩

end History

end Ancestry
