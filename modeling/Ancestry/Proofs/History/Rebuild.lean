import Ancestry.Proofs.Graph.Verify
import Ancestry.Proofs.History.RoundTrip

/-!
# Writing a checked graph anew

A file may hold its graph in ways in which it would not be written here: chunks in another order,
runs of extra edges that overlap, a second parent in a run of its own. Once the whole check has
passed, its commits can be told as a history, that history can be written, and the new file holds the
same graph, though not in the same words.
-/

namespace Ancestry

open Outcome

/-- How many extra edges a commit needs where it shares none with other commits. -/
def Commit.edgeNeed (c : Commit) : Nat :=
  if c.parentCount < 3 then 0 else c.parentCount - 1

namespace Tables

def revise (t : Tables) (c : Commit) : Except GraphError Revision :=
  ((t.parents c).mapM (Except.map Commit.id)).map fun parents =>
    { id := c.id, tree := c.tree, parents, generation := c.generation, time := c.time }

def history (t : Tables) : Except GraphError History :=
  (t.commits.mapM (· >>= t.revise)).map fun revisions => { revisions, attachments := [] }

def edgeNeed (t : Tables) : Nat :=
  t.commits.foldr (fun entry need => entry.toOption.elim 0 Commit.edgeNeed + need) 0

/-- Two commits, each of its own tables, that are told alike but for the words of their slots. -/
structure SameCommit (t u : Tables) (c d : Commit) : Prop where
  id : d.id = c.id
  tree : d.tree = c.tree
  generation : d.generation = c.generation
  time : d.time = c.time
  parentCount : d.parentCount = c.parentCount
  positions : ∀ k < c.parentCount, ∃ p, t.parentPosition c k = .ok p ∧ u.parentPosition d k = .ok p

structure Agree (t u : Tables) : Prop where
  size : u.size = t.size
  counts : ∀ b, u.countThrough b = t.countThrough b
  commits : ∀ i < t.size, ∃ c d, t.commitAt i = .ok c ∧ u.commitAt i = .ok d ∧ SameCommit t u c d

variable {t u : Tables} {c d : Commit} {r : Revision} {i : Nat} {ps qs : List Nat} {h : History}

theorem Agree.countBefore (agree : Agree t u) (b : Fin 256) : u.countBefore b = t.countBefore b := by
  rw [Tables.countBefore, Tables.countBefore, agree.counts]

/-- What the check of a graph decides does not depend on the words. -/
theorem verify_of_agree (agree : Agree t u) (hverify : t.verify = .ok ()) : u.verify = .ok () := by
  rw [verify_eq_ok_iff_checkCommit] at hverify ⊢
  intro i hi
  rw [agree.size] at hi
  obtain ⟨c, d, hc, hd, same⟩ := agree.commits i hi
  obtain ⟨c', hc', hbucket, hparents⟩ := checkCommit_eq_ok_iff.mp (hverify i hi)
  cases hc.symm.trans hc'
  refine checkCommit_eq_ok_iff.mpr ⟨d, hd, ?_, ?_⟩
  · rwa [same.id, agree.countBefore, agree.counts]
  · intro n hn
    rw [same.parentCount] at hn
    obtain ⟨p, hp, hlt, parent, hparent, horder⟩ := checkParent_eq_ok_iff.mp (hparents n hn)
    obtain ⟨p', hp', hq⟩ := same.positions n hn
    cases hp.symm.trans hp'
    obtain ⟨e, f, he, hf, sameParent⟩ := agree.commits p hlt
    cases hparent.symm.trans he
    refine checkParent_eq_ok_iff.mpr ⟨p, hq, agree.size ▸ hlt, f, hf, ?_⟩
    rwa [same.generation, sameParent.generation]

namespace Stores

variable (stores : t.Stores i r c ps)
include stores

theorem getElem?_ids : t.ids[i]? = some r.id := by
  obtain ⟨id, _, _, hid, _, _, hcommit⟩ := commitAt_eq_ok_iff.mp stores.commit
  rw [← stores.id, ← hcommit]
  exact hid

theorem fits (sound : t.Sound) : r.Fits t.ids := by
  obtain ⟨_, record, _, _, hrecord, _, hcommit⟩ := commitAt_eq_ok_iff.mp stores.commit
  have hfits := sound.records_fit record (Array.mem_of_getElem? hrecord)
  constructor
  · rw [← stores.generation, ← hcommit]
    exact hfits.generation_le
  · rw [← stores.time, ← hcommit]
    exact hfits.time_le
  · exact ⟨ps, Revision.parentPositions_of_map_getElem? sound.ids_ascending stores.places⟩

theorem revise_eq (hall : ∀ q < t.size, ∃ c, t.commitAt q = .ok c) : t.revise c = .ok r := by
  obtain ⟨parents, hparents, hids⟩ := stores.exists_parents hall
  refine map_eq_ok.mpr ⟨r.parents, mapM_eq_ok.mpr ?_, ?_⟩
  · rw [hparents, ← hids, List.map_map, List.map_map]
    rfl
  · rw [stores.id, stores.tree, stores.generation, stores.time]

theorem edgeNeed_eq : c.edgeNeed = r.edgeCount := by
  rw [Commit.edgeNeed, Revision.edgeCount, stores.parentCount, stores.length_places]

theorem sameCommit (other : u.Stores i r d qs) (hids : u.ids = t.ids)
    (hsorted : t.ids.Ascending) : SameCommit t u c d := by
  have hplaces := other.places
  rw [hids] at hplaces
  have hpositions := Revision.parentPositions_of_map_getElem? hsorted stores.places
  obtain rfl := Except.ok.inj
    (hpositions.symm.trans (Revision.parentPositions_of_map_getElem? hsorted hplaces))
  constructor
  · rw [other.id, stores.id]
  · rw [other.tree, stores.tree]
  · rw [other.generation, stores.generation]
  · rw [other.time, stores.time]
  · rw [other.parentCount, stores.parentCount]
  · intro k hk
    rw [stores.parentCount] at hk
    have hplace := List.getElem?_eq_getElem hk
    exact ⟨_, stores.positions k _ hplace, other.positions k _ hplace⟩

end Stores

/-- The tables store the revisions of a history one after the other, and no others. -/
structure Tells (t : Tables) (h : History) : Prop where
  attachments : h.attachments = []
  length : h.revisions.length = t.size
  stores : ∀ i r, h.revisions[i]? = some r → ∃ c ps, t.Stores i r c ps

section Verified

variable (hverify : t.verify = .ok ())
include hverify

theorem exists_commitAt_of_verify : ∀ q < t.size, ∃ c, t.commitAt q = .ok c := by
  intro q hq
  obtain ⟨c, hc, _⟩ :=
    checkCommit_eq_ok_iff.mp (verify_eq_ok_iff_checkCommit.mp hverify q hq)
  exact ⟨c, hc⟩

theorem exists_stores_of_verify (hi : i < t.size) : ∃ r c ps, t.Stores i r c ps := by
  obtain ⟨c, hc, _, hparents⟩ :=
    checkCommit_eq_ok_iff.mp (verify_eq_ok_iff_checkCommit.mp hverify i hi)
  have hnamed : ∀ k < c.parentCount, ∃ q, t.parentPosition c k = .ok q ∧ q < t.size := by
    intro k hk
    obtain ⟨q, hq, hlt, _⟩ := checkParent_eq_ok_iff.mp (hparents k hk)
    exact ⟨q, hq, hlt⟩
  -- The places of the parents are read from the tables, and the ids from the places.
  obtain ⟨ps, _, hcount, hpositions⟩ := exists_map_range_eq fun k hk =>
    (hnamed k hk).imp fun _ => And.left
  have hplaces : ∀ q ∈ ps, ∃ id, t.ids[q]? = some id := by
    intro q hq
    obtain ⟨k, hk⟩ := List.mem_iff_getElem?.mp hq
    obtain ⟨hlt, _⟩ := List.getElem?_eq_some_iff.mp hk
    obtain ⟨q', hq', hsize⟩ := hnamed k (hcount ▸ hlt)
    cases (hpositions k q hk).symm.trans hq'
    exact ⟨_, Array.getElem?_eq_getElem hsize⟩
  obtain ⟨ids, hids⟩ := exists_map_eq hplaces
  exact ⟨⟨c.id, c.tree, ids, c.generation, c.time⟩, c, ps, hc, rfl, rfl, rfl, rfl, hcount.symm,
    hpositions, hids⟩

theorem exists_history_of_verify : ∃ h, t.history = .ok h ∧ t.Tells h := by
  have hall := exists_commitAt_of_verify hverify
  have hrevise : ∀ i < t.size, ∃ r, (t.commitAt i >>= t.revise) = .ok r ∧
      ∃ c ps, t.Stores i r c ps := by
    intro i hi
    obtain ⟨r, c, ps, stores⟩ := exists_stores_of_verify hverify hi
    exact ⟨r, bind_eq_ok.mpr ⟨c, stores.commit, stores.revise_eq hall⟩, c, ps, stores⟩
  obtain ⟨revisions, hrevisions, hlength, hresult⟩ := exists_map_range_eq fun i hi =>
    (hrevise i hi).imp fun _ => And.left
  refine ⟨⟨revisions, []⟩, map_eq_ok.mpr ⟨revisions, mapM_eq_ok.mpr ?_, rfl⟩, rfl, hlength, ?_⟩
  · rw [commits, List.map_map]
    exact hrevisions
  · intro i r hr
    obtain ⟨hi, _⟩ := List.getElem?_eq_some_iff.mp hr
    obtain ⟨r', hr', stored⟩ := hrevise i (hlength ▸ hi)
    cases (hresult i r hr).symm.trans hr'
    exact stored

end Verified

namespace Tells

variable (tells : t.Tells h)
include tells

theorem map_id_revisions : h.revisions.map Revision.id = t.ids.toList := by
  apply List.ext_getElem
  · rw [List.length_map, tells.length, Array.length_toList]
    rfl
  · intro i hi hi'
    rw [List.length_map] at hi
    obtain ⟨_, _, stores⟩ := tells.stores i _ (List.getElem?_eq_getElem hi)
    obtain ⟨_, hid⟩ := Array.getElem?_eq_some_iff.mp stores.getElem?_ids
    rw [List.getElem_map, Array.getElem_toList, hid]

theorem map_edgeCount_revisions : h.revisions.map Revision.edgeCount =
    t.commits.map fun entry => entry.toOption.elim 0 Commit.edgeNeed := by
  apply List.ext_getElem
  · rw [List.length_map, List.length_map, commits, List.length_map, List.length_range, tells.length]
  · intro i hi hi'
    rw [List.length_map] at hi
    obtain ⟨_, _, stores⟩ := tells.stores i _ (List.getElem?_eq_getElem hi)
    simp only [commits, List.getElem_map, List.getElem_range, stores.commit]
    exact stores.edgeNeed_eq.symm

theorem edgeTotal_eq : Revision.edgeTotal h.revisions = t.edgeNeed := by
  have hneeds := congrArg (List.foldr (· + ·) 0) tells.map_edgeCount_revisions
  rw [List.foldr_map, List.foldr_map] at hneeds
  rw [Revision.edgeTotal_eq_foldr, hneeds, edgeNeed]

theorem storable (hneed : t.edgeNeed < Record.flag) : h.Storable where
  edges_lt := tells.edgeTotal_eq ▸ hneed
  tags := by simp [tells.attachments]
  last := by simp [tells.attachments]

variable (sound : t.Sound)
include sound

theorem sort_eq : Revision.sort h.revisions = h.revisions := by
  apply Revision.sort_eq_of_perm (List.Perm.refl _)
  have hsorted := sound.ids_ascending
  rw [ObjectId.Table.Ascending, ← tells.map_id_revisions, List.pairwise_map] at hsorted
  exact hsorted

theorem sortedIds_eq : h.sortedIds = t.ids.toList := by
  rw [History.sortedIds, tells.sort_eq sound, tells.map_id_revisions]

/-- What has been read and checked passes all checks of the writer. -/
theorem exists_prepared (hsize : t.size < Record.noParent) (hneed : t.edgeNeed < Record.flag) :
    ∃ records edges, h.Prepared records edges := by
  have hfits : ∀ r ∈ h.revisions, r.Fits t.ids := by
    intro r hr
    obtain ⟨i, hi⟩ := List.mem_iff_getElem?.mp hr
    obtain ⟨_, _, stores⟩ := tells.stores i r hi
    exact stores.fits sound
  have hroom : 0 + Revision.edgeTotal h.revisions ≤ Record.flag := by
    rw [tells.edgeTotal_eq]
    omega
  obtain ⟨records, edges, hplaced⟩ := Revision.exists_placeAll hfits hroom
  have hids := tells.sortedIds_eq sound
  refine ⟨records, edges, ?_, ?_, ?_, ?_, ?_, ?_⟩
  · rw [← List.length_pos_iff, tells.length]
    exact sound.size_pos
  · rwa [tells.length]
  · rw [hids]
    exact sound.ids_ascending
  · rwa [hids, tells.sort_eq sound]
  · rw [tells.attachments]
    rfl
  · rw [History.payloads, tells.attachments, List.append_nil, History.corePayloads]
    split
    · exact (by decide : 3 < 256)
    · exact (by decide : 4 < 256)

theorem agree {records : List Record} {edges : List Nat} (buckets : t.InBuckets)
    (holds : h.Holds records edges u) (sound' : u.Sound) : Agree t u := by
  have hsorted := tells.sort_eq sound
  have hids := tells.sortedIds_eq sound
  constructor
  · rw [holds.size_eq, tells.length]
  · intro b
    rw [holds.counts, hids, countThrough_of_inBuckets sound buckets]
  · intro i hi
    obtain ⟨r, hr⟩ : ∃ r, h.revisions[i]? = some r :=
      ⟨_, List.getElem?_eq_getElem (tells.length ▸ hi)⟩
    obtain ⟨c, ps, stores⟩ := tells.stores i r hr
    obtain ⟨d, qs, other⟩ := holds.exists_stores sound' (hsorted ▸ hr)
    -- The ids are the same, so the parents of the one revision have the same places.
    exact ⟨c, d, stores.commit, other.commit,
      stores.sameCommit other (holds.ids.trans (hids ▸ rfl)) sound.ids_ascending⟩

end Tells

theorem inBuckets_of_verify (sound : t.Sound) (hverify : t.verify = .ok ()) : t.InBuckets := by
  intro i id hid
  obtain ⟨hi, _⟩ := Array.getElem?_eq_some_iff.mp hid
  have hcheck := verify_eq_ok_iff_checkCommit.mp hverify i hi
  exact (coherent_of_checkCommit sound hcheck).in_bucket id hid

end Tables

theorem History.Prepared.length_file_lt {h : History} {records : List Record} {edges : List Nat}
    (p : h.Prepared records edges) (hnone : h.attachments = [])
    (hlt : edges.length < Record.flag) :
    (h.file records edges).length < Format.sizeLimit := by
  have hids := p.sortedIds_lt
  have hcount := p.payloads_lt
  rw [p.length_file, Payload.start, hnone, Payload.size_nil]
  simp only [Record.noParent, Record.flag, Format.sizeLimit] at *
  omega

namespace Graph

open Tables

/-- The commits of a checked graph can be written anew, and what is read of the new file passes the
check and is the same graph. -/
theorem exists_rebuild {file : Bytes} {g : Graph} (hfile : file.length < Format.sizeLimit)
    (hparse : Graph.parse file = .ok g) (hverify : g.tables.verify = .ok ())
    (hsize : g.tables.size < Record.noParent) (hneed : g.tables.edgeNeed < Record.flag) :
    ∃ h file' g', g.tables.history = .ok h ∧ h.encode = .ok file' ∧
      Graph.parse file' = .ok g' ∧ g'.tables.verify = .ok () ∧ Agree g.tables g'.tables := by
  have sound := sound_of_parse hfile hparse
  obtain ⟨h, hhistory, tells⟩ := exists_history_of_verify hverify
  obtain ⟨records, edges, p⟩ := tells.exists_prepared sound hsize hneed
  have hstore := tells.storable hneed
  have hlength := p.length_file_lt tells.attachments (p.length_edges ▸ hstore.edges_lt)
  have hparse' := p.parse_file hstore hlength
  have buckets := inBuckets_of_verify sound hverify
  have agree := tells.agree sound buckets (p.holds rfl) (sound_of_parse hlength hparse')
  exact ⟨h, _, _, hhistory, History.encode_eq_ok_iff.mpr ⟨records, edges, p, rfl⟩, hparse',
    verify_of_agree agree hverify, agree⟩

theorem verify_rebuilt_sampleGraph : History.sampleFile.length < Format.sizeLimit ∧
    Graph.parse History.sampleFile = .ok History.sampleGraph ∧
    History.sampleGraph.tables.verify = .ok () ∧
    History.sampleGraph.tables.size < Record.noParent ∧
    History.sampleGraph.tables.edgeNeed < Record.flag ∧
    ∃ h file g, History.sampleGraph.tables.history = .ok h ∧ h.encode = .ok file ∧
      Graph.parse file = .ok g ∧ g.tables.verify = .ok () ∧ g.tables.size = 3 := by
  have hverify : History.sampleGraph.tables.verify = .ok () := by
    rw [History.tables_sampleGraph]
    rfl
  have hsize : History.sampleGraph.tables.size = 3 := by
    rw [History.tables_sampleGraph]
    rfl
  have hneed : History.sampleGraph.tables.edgeNeed = 2 := by
    rw [History.tables_sampleGraph]
    rfl
  have hfew : History.sampleGraph.tables.size < Record.noParent := hsize ▸ by decide
  have hroom : History.sampleGraph.tables.edgeNeed < Record.flag := hneed ▸ by decide
  obtain ⟨h, file, g, hhistory, hencode, hparse, hpasses, agree⟩ :=
    exists_rebuild History.length_sampleFile History.parse_sampleFile hverify hfew hroom
  exact ⟨History.length_sampleFile, History.parse_sampleFile, hverify, hfew, hroom, h, file, g,
    hhistory, hencode, hparse, hpasses, agree.size.trans hsize⟩

end Graph

end Ancestry
