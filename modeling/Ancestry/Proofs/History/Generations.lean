import Ancestry.Proofs.History.Readable
import Ancestry.Proofs.History.Rebuild
import Ancestry.Proofs.History.Refusals

/-!
# Where generations do not rise

Of all that the whole check looks for, a written file can have one fault only. Its ids stand in their
buckets, its runs of extra edges close and its parents are commits of the graph, whatever the history
was. But generations are written as they are given. So the check of the file comes down to a rule
about the revisions, and where it is broken, the first revision that breaks it is reported with the
first of its parents that does.
-/

namespace Ancestry

open Outcome

/-- A revision may have this one as a parent. Generations rise, where zero stands for unknown and the
greatest number for all that lie above. -/
def Revision.Outranks (c p : Revision) : Prop :=
  c.generation = 0 ∨ p.generation = 0 ∨ c.generation = Record.maxGeneration ∨
    p.generation < c.generation

instance (c p : Revision) : Decidable (c.Outranks p) :=
  inferInstanceAs (Decidable (_ ∨ _))

namespace Tables.Stores

theorem checkParent_eq_error_iff {t : Tables} {i k q : Nat} {r p : Revision} {c d : Commit}
    {ps qs : List Nat} {e : GraphError} (stores : t.Stores i r c ps) (parent : t.Stores q p d qs)
    (sound : t.Sound) (hq : ps[k]? = some q) :
    t.checkParent c k = .error e ↔
      ¬ r.Outranks p ∧ e = .generationOrder i r.generation q p.generation := by
  have hlt := stores.place_lt q (List.mem_of_getElem? hq)
  have hposition : c.position = i := by
    obtain ⟨_, _, _, _, _, _, hcommit⟩ := commitAt_eq_ok_iff.mp stores.commit
    rw [← hcommit]
    rfl
  have hrule : InGenerationOrder c.generation d.generation ↔ r.Outranks p := by
    rw [stores.generation, parent.generation]
    exact inGenerationOrder_iff (stores.fits sound).generation_le
  have hstep : t.checkParent c k = if InGenerationOrder c.generation d.generation then .ok ()
      else .error (.generationOrder c.position c.generation q d.generation) := by
    rw [checkParent, stores.positions k q hq]
    apply (if_neg (Nat.not_le.mpr hlt)).trans
    rw [parent.commit]
    rfl
  rw [hstep, ← hrule, hposition, stores.generation, parent.generation]
  split
  · next h => simp [h]
  · next h => simp [h, eq_comm]

end Tables.Stores

namespace History

open Tables

def rank (h : History) (id : ObjectId) : Nat :=
  h.revisions.countP (·.id < id)

/-- The id is that of a revision which `c` may not have as a parent. -/
def Falls (h : History) (c : Revision) (id : ObjectId) : Prop :=
  ∃ p ∈ h.revisions, p.id = id ∧ ¬ c.Outranks p

instance (h : History) (c : Revision) (id : ObjectId) : Decidable (h.Falls c id) :=
  inferInstanceAs (Decidable (∃ p ∈ h.revisions, p.id = id ∧ ¬ c.Outranks p))

def Breaks (h : History) (c : Revision) : Prop := ∃ id ∈ c.parents, h.Falls c id

instance (h : History) (c : Revision) : Decidable (h.Breaks c) :=
  inferInstanceAs (Decidable (∃ id ∈ c.parents, h.Falls c id))

def rankError (h : History) (c p : Revision) : GraphError :=
  .generationOrder (h.rank c.id) c.generation (h.rank p.id) p.generation

def RankFault (h : History) (c : Revision) (id : ObjectId) (e : GraphError) : Prop :=
  ∃ p ∈ h.revisions, p.id = id ∧ ¬ c.Outranks p ∧ e = h.rankError c p

/-- Of the revisions that break the rule `c` has the least id, and `p` is the first of its parents
with which it does. -/
structure FirstFall (h : History) (c p : Revision) : Prop where
  child_mem : c ∈ h.revisions
  parent_mem : p ∈ h.revisions
  falls : ¬ c.Outranks p
  least : ∀ s ∈ h.revisions, s.id < c.id → ¬ h.Breaks s
  first : IsFirst (h.Falls c) c.parents p.id

variable {h : History} {records : List Record} {edges : List Nat} {t : Tables}
variable {c r s : Revision} {i k : Nat} {id : ObjectId} {e : GraphError}

theorem exists_rankFault_iff : (∃ e, h.RankFault c id e) ↔ h.Falls c id := by
  constructor
  · rintro ⟨_, p, hp, hid, hfalls, _⟩
    exact ⟨p, hp, hid, hfalls⟩
  · rintro ⟨p, hp, hid, hfalls⟩
    exact ⟨_, p, hp, hid, hfalls, rfl⟩

theorem exists_isFirst_falls_iff : (∃ id, IsFirst (h.Falls c) c.parents id) ↔ h.Breaks c :=
  exists_isFirst_iff

theorem rank_eq_countP_sortedIds (h : History) (id : ObjectId) :
    h.rank id = h.sortedIds.countP (· < id) := by
  rw [h.sortedIds_perm.countP_eq, List.countP_map]
  rfl

namespace Prepared

variable (p : h.Prepared records edges)
include p

theorem rank_of_getElem? (hr : (Revision.sort h.revisions)[i]? = some r) : h.rank r.id = i := by
  have hid : h.sortedIds[i]? = some r.id := by
    rw [sortedIds, List.getElem?_map, hr]
    rfl
  have hrise : ObjectId.Table.Ascending h.sortedIds.toArray := p.ids_rise
  rw [rank_eq_countP_sortedIds]
  apply Nat.le_antisymm
  · apply countP_le
    intro j a hj ha hlt
    have hle := hrise.le hj (by simpa using hid) (by simpa using ha)
    exact absurd (of_decide_eq_true hlt) (Nat.not_lt.mpr hle)
  · cases i with
    | zero => exact Nat.zero_le _
    | succ i =>
      obtain ⟨hlt, _⟩ := List.getElem?_eq_some_iff.mp hid
      have hbefore := List.getElem?_eq_getElem (Nat.lt_of_succ_lt hlt)
      apply lt_countP hbefore
      intro j a hj ha
      exact decide_eq_true (hrise.lt (Nat.lt_succ_of_le hj) (by simpa using ha) (by simpa using hid))

theorem getElem?_rank (hr : r ∈ h.revisions) :
    (Revision.sort h.revisions)[h.rank r.id]? = some r := by
  obtain ⟨i, hi⟩ := List.mem_iff_getElem?.mp ((Revision.sort_perm h.revisions).mem_iff.mpr hr)
  rwa [p.rank_of_getElem? hi]

theorem eq_of_id_eq (hr : r ∈ h.revisions) (hs : s ∈ h.revisions) (hid : r.id = s.id) : r = s := by
  have hplace := p.getElem?_rank hr
  rw [hid, p.getElem?_rank hs] at hplace
  exact (Option.some.inj hplace).symm

end Prepared

namespace Holds

variable (holds : h.Holds records edges t) (sound : t.Sound)
include holds sound

theorem checkParent_eq_error_iff {d : Commit} {ps : List Nat} (stores : t.Stores i r d ps)
    (hi : (Revision.sort h.revisions)[i]? = some r) (hk : r.parents[k]? = some id) :
    t.checkParent d k = .error e ↔ h.RankFault r id e := by
  have hplace := congrArg (·[k]?) stores.places
  simp only [List.getElem?_map, hk, Option.map_some] at hplace
  obtain ⟨q, hq, hid⟩ := Option.map_eq_some_iff.mp hplace
  rw [holds.ids, List.getElem?_toArray, sortedIds, List.getElem?_map] at hid
  obtain ⟨p, hp, rfl⟩ := Option.map_eq_some_iff.mp hid
  obtain ⟨_, _, parent⟩ := holds.exists_stores sound hp
  have hmem : p ∈ h.revisions :=
    (Revision.sort_perm h.revisions).mem_iff.mp (List.mem_of_getElem? hp)
  rw [stores.checkParent_eq_error_iff parent sound hq, ← holds.prepared.rank_of_getElem? hi,
    ← holds.prepared.rank_of_getElem? hp]
  constructor
  · intro hfault
    exact ⟨p, hmem, rfl, hfault⟩
  · rintro ⟨p', hmem', hid', hfault⟩
    rwa [holds.prepared.eq_of_id_eq hmem' hmem hid'] at hfault

theorem checkCommit_eq_error_iff (hi : (Revision.sort h.revisions)[i]? = some r) :
    t.checkCommit i = .error e ↔
      ∃ id, IsFirst (h.Falls r) r.parents id ∧ h.RankFault r id e := by
  obtain ⟨c, ps, stores⟩ := holds.exists_stores sound hi
  have hbucket := holds.inBuckets i r.id (holds.getElem?_ids hi)
  rw [← stores.id] at hbucket
  have hstep : t.checkCommit i = (List.range r.parents.length).forM (t.checkParent c) := by
    rw [checkCommit, stores.commit]
    apply (if_pos hbucket).trans
    rw [stores.parentCount, stores.length_places]
  rw [hstep, forM_range_eq_error_iff fun k id hk e =>
    holds.checkParent_eq_error_iff sound stores hi hk]
  simp only [exists_rankFault_iff]

theorem verify_eq_error_iff_isFirst : t.verify = .error e ↔
    ∃ c, IsFirst h.Breaks (Revision.sort h.revisions) c ∧
      ∃ id, IsFirst (h.Falls c) c.parents id ∧ h.RankFault c id e := by
  have hsize : t.size = (Revision.sort h.revisions).length := by
    rw [holds.size_eq, (Revision.sort_perm h.revisions).length_eq]
  have hbreaks : (fun r => ∃ e id, IsFirst (h.Falls r) r.parents id ∧ h.RankFault r id e) =
      h.Breaks := by
    funext r
    rw [exists_comm, ← exists_isFirst_falls_iff]
    simp only [exists_and_left, exists_rankFault_iff]
    exact propext (exists_congr fun id => and_iff_left_of_imp IsFirst.holds)
  rw [verify, hsize, forM_range_eq_error_iff fun i r hi e => holds.checkCommit_eq_error_iff sound hi,
    hbreaks]

/-- The check of the file fails with what is reported where the rule is first broken. -/
theorem verify_eq_error_iff :
    t.verify = .error e ↔ ∃ c p, h.FirstFall c p ∧ e = h.rankError c p := by
  rw [holds.verify_eq_error_iff_isFirst sound]
  simp only [Revision.isFirst_iff_least (List.pairwise_map.mp holds.prepared.ids_rise),
    (Revision.sort_perm h.revisions).mem_iff]
  constructor
  · rintro ⟨c, ⟨hc, _, hleast⟩, id, first, p, hp, rfl, hfalls, he⟩
    exact ⟨c, p, ⟨hc, hp, hfalls, hleast, first⟩, he⟩
  · rintro ⟨c, p, fall, he⟩
    exact ⟨c, ⟨fall.child_mem, exists_isFirst_falls_iff.mp ⟨_, fall.first⟩, fall.least⟩,
      p.id, fall.first, p, fall.parent_mem, rfl, fall.falls, he⟩

theorem verify_eq_ok_iff : t.verify = .ok () ↔
    ∀ c ∈ h.revisions, ∀ p ∈ h.revisions, p.id ∈ c.parents → c.Outranks p := by
  constructor
  · intro hok c hc p hp hparent
    apply Classical.byContradiction
    intro hfalls
    -- If any revision breaks the rule, there is a first, and something is reported of it.
    have hbreaks : h.Breaks c := ⟨p.id, hparent, p, hp, rfl, hfalls⟩
    obtain ⟨c', first⟩ := exists_isFirst_iff.mpr
      ⟨c, (Revision.sort_perm h.revisions).mem_iff.mpr hc, hbreaks⟩
    obtain ⟨id, firstParent⟩ := exists_isFirst_falls_iff.mpr first.holds
    obtain ⟨e, fault⟩ := exists_rankFault_iff.mpr firstParent.holds
    have herror :=
      (holds.verify_eq_error_iff_isFirst sound).mpr ⟨c', first, id, firstParent, fault⟩
    cases hok.symm.trans herror
  · intro hall
    cases hverify : t.verify with
    | ok => rfl
    | error e =>
      obtain ⟨c, p, fall, _⟩ := (holds.verify_eq_error_iff sound).mp hverify
      exact absurd (hall c fall.child_mem p fall.parent_mem fall.first.mem) fall.falls

end Holds

/-- A written file passes the check exactly when generations rise in the history, and where they do
not the first fall is the error. -/
theorem exists_verify_iff_outranks {file : Bytes} (hencode : h.encode = .ok file)
    (hattached : h.attachments = []) (hedges : Revision.edgeTotal h.revisions < Record.flag) :
    ∃ g, Graph.parse file = .ok g ∧
      (∀ r ∈ h.revisions, g.tables.ids[h.rank r.id]? = some r.id) ∧
      (g.tables.verify = .ok () ↔
        ∀ c ∈ h.revisions, ∀ p ∈ h.revisions, p.id ∈ c.parents → c.Outranks p) ∧
      ∀ e, g.tables.verify = .error e ↔ ∃ c p, h.FirstFall c p ∧
        e = .generationOrder (h.rank c.id) c.generation (h.rank p.id) p.generation := by
  obtain ⟨records, edges, p, rfl⟩ := encode_eq_ok_iff.mp hencode
  have hlength := p.length_file_lt hattached (p.length_edges ▸ hedges)
  have storable : h.Storable := ⟨hedges, by simp [hattached], by simp [hattached]⟩
  have hparse := p.parse_file storable hlength
  have sound := Graph.sound_of_parse hlength hparse
  have holds := p.holds rfl
  exact ⟨_, hparse, fun r hr => holds.getElem?_ids (p.getElem?_rank hr),
    holds.verify_eq_ok_iff sound, fun e => holds.verify_eq_error_iff sound⟩

def fallen : History where
  revisions :=
    [⟨.ofNat 9, .zero, [.ofNat 8], 1, 0⟩,
      ⟨.ofNat 8, .zero, [.ofNat 5, .ofNat 7, .ofNat 4, .ofNat 6], 2, 0⟩, ⟨.ofNat 4, .zero, [], 0, 0⟩,
      ⟨.ofNat 5, .zero, [], 1, 0⟩, ⟨.ofNat 6, .zero, [.ofNat 5], 3, 0⟩,
      ⟨.ofNat 7, .zero, [.ofNat 5], 2, 0⟩]
  attachments := []

theorem writable_fallen : fallen.Writable where
  nonempty := by decide
  distinct := by decide
  whole := by decide
  unclaimed := by decide
  chunks_le := by decide

theorem firstFall_fallen : fallen.FirstFall
    ⟨.ofNat 8, .zero, [.ofNat 5, .ofNat 7, .ofNat 4, .ofNat 6], 2, 0⟩
    ⟨.ofNat 7, .zero, [.ofNat 5], 2, 0⟩ where
  child_mem := by decide
  parent_mem := by decide
  falls := by decide
  least := by decide
  first := ⟨[.ofNat 5], [.ofNat 4, .ofNat 6], rfl, by decide, by decide⟩

/-- The merge is reported with the second of its parents. -/
theorem verify_fallen : Revision.edgeTotal fallen.revisions < Record.flag ∧
    ∃ file g, fallen.encode = .ok file ∧ Graph.parse file = .ok g ∧
      g.tables.verify = .error (.generationOrder 4 2 3 2) := by
  have hroom : Revision.edgeTotal fallen.revisions < Record.flag := by decide
  have hfew : fallen.revisions.length < Record.noParent := by decide
  obtain ⟨records, edges, p⟩ := (exists_prepared_iff_writable hfew hroom).mpr writable_fallen
  have hencode := encode_eq_ok_iff.mpr ⟨records, edges, p, rfl⟩
  obtain ⟨g, hg, _, _, herror⟩ := exists_verify_iff_outranks hencode rfl hroom
  refine ⟨hroom, _, g, hencode, hg, (herror _).mpr ⟨_, _, firstFall_fallen, ?_⟩⟩
  decide

end History

end Ancestry
