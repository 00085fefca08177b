import Ancestry.Proofs.Graph.Lookup
import Ancestry.Proofs.History.Encode

/-!
# What is written is read back

A written file is read as a graph with a commit for each revision of the history and no others. A
commit is found by its id and has the figures of its revision, and its parents are the commits with
the ids that the revision names, in the order in which it names them.
-/

namespace Ancestry

open Outcome

namespace Tables

variable {t : Tables} {c : Commit} {ps : List Nat}

theorem exists_commits {ids : List ObjectId} (hids : ps.map (t.ids[·]?) = ids.map some)
    (h : ∀ q ∈ ps, ∃ c, t.commitAt q = .ok c) :
    ∃ cs : List Commit, ps.map t.commitAt = cs.map .ok ∧ cs.map Commit.id = ids := by
  induction ps generalizing ids with
  | nil =>
    cases ids with
    | nil => exact ⟨[], rfl, rfl⟩
    | cons id ids => cases hids
  | cons q ps ih =>
    cases ids with
    | nil => cases hids
    | cons id ids =>
      rw [List.map_cons, List.map_cons, List.cons.injEq] at hids
      obtain ⟨c, hc⟩ := h q List.mem_cons_self
      obtain ⟨cs, hcs, hrest⟩ := ih hids.2 fun x hx => h x (List.mem_cons_of_mem q hx)
      obtain ⟨id', _, _, hid', _, _, rfl⟩ := Tables.commitAt_eq_ok_iff.mp hc
      refine ⟨_ :: cs, by rw [List.map_cons, hc, hcs, List.map_cons], ?_⟩
      rw [List.map_cons, hrest]
      congr 1
      exact Option.some.inj (hid'.symm.trans hids.1)

theorem parents_eq_map (hcount : c.parentCount = ps.length)
    (h : ∀ k q, ps[k]? = some q → t.parentPosition c k = .ok q) :
    t.parents c = ps.map t.commitAt := by
  apply List.ext_getElem
  · rw [Tables.parents, List.length_map, List.length_range, List.length_map, hcount]
  · intro k hk hk'
    rw [List.length_map] at hk'
    have hposition := h k _ (List.getElem?_eq_getElem hk')
    simp only [Tables.parents, List.getElem_map, List.getElem_range, Tables.parentAt, hposition]
    rfl

/-- A revision stands at a place of the tables. It is decoded there as the commit `c`, whose parents
are named by the places `ps` of their ids. -/
structure Stores (t : Tables) (i : Nat) (r : Revision) (c : Commit) (ps : List Nat) : Prop where
  commit : t.commitAt i = .ok c
  id : c.id = r.id
  tree : c.tree = r.tree
  generation : c.generation = r.generation
  time : c.time = r.time
  parentCount : c.parentCount = ps.length
  positions : ∀ k q, ps[k]? = some q → t.parentPosition c k = .ok q
  places : ps.map (t.ids[·]?) = r.parents.map some

namespace Stores

variable {i : Nat} {r : Revision} (stores : t.Stores i r c ps)
include stores

theorem length_places : ps.length = r.parents.length := by
  have hlength := congrArg List.length stores.places
  rwa [List.length_map, List.length_map] at hlength

theorem place_lt : ∀ q ∈ ps, q < t.size := by
  intro q hq
  have hmem : t.ids[q]? ∈ r.parents.map some := by
    rw [← stores.places]
    exact List.mem_map.mpr ⟨q, hq, rfl⟩
  obtain ⟨id, _, hid⟩ := List.mem_map.mp hmem
  exact (Array.getElem?_eq_some_iff.mp hid.symm).1

theorem exists_parents (h : ∀ q < t.size, ∃ c, t.commitAt q = .ok c) :
    ∃ parents : List Commit, t.parents c = parents.map .ok ∧
      parents.map Commit.id = r.parents := by
  rw [parents_eq_map stores.parentCount stores.positions]
  exact exists_commits stores.places fun q hq => h q (stores.place_lt q hq)

end Stores

end Tables

namespace History

open Tables

/-- The tables hold what was computed of a history. Behind its extra edges there may be others. -/
structure Holds (h : History) (records : List Record) (edges : List Nat) (t : Tables) : Prop where
  prepared : h.Prepared records edges
  ids : t.ids = h.sortedIds.toArray
  counts : ∀ b, t.countThrough b = h.sortedIds.countP (·.firstByte ≤ b)
  records : t.records = records.toArray
  edges : edges <+: t.edges.toList

variable {h : History} {records : List Record} {edges : List Nat} {t : Tables}

namespace Holds

variable (holds : h.Holds records edges t)
include holds

theorem size_eq : t.size = h.revisions.length := by
  rw [Tables.size, holds.ids, List.size_toArray, length_sortedIds]

theorem getElem?_ids {i : Nat} {r : Revision} (hr : (Revision.sort h.revisions)[i]? = some r) :
    t.ids[i]? = some r.id := by
  rw [holds.ids, List.getElem?_toArray, sortedIds, List.getElem?_map, hr]
  rfl

variable (sound : t.Sound)
include sound

theorem exists_stores {i : Nat} {r : Revision} (hr : (Revision.sort h.revisions)[i]? = some r) :
    ∃ c ps, t.Stores i r c ps := by
  obtain ⟨record, before, run, after, ps, w, hrecord, hedges, placed⟩ :=
    Revision.exists_placed_of_placeAll holds.prepared.placed hr
  obtain ⟨rest, hrest⟩ := holds.edges
  have hps := placed.parents_lt holds.prepared.sortedIds_lt
  have hfirst : record.first = w.first := by rw [placed.record]
  have hsecond : record.second = w.second := by rw [placed.record]
  have hwrites := placed.writes
  rw [Nat.zero_add] at hwrites
  have hrun : t.edges.toList = before ++ w.run ++ (after ++ rest) := by
    rw [← hrest, ← placed.run, hedges, List.append_assoc]
  have hrecord' : t.records[i]? = some record := by
    rw [holds.records, List.getElem?_toArray, hrecord]
  have hcount := parentCount_of_writes hwrites hps hfirst hsecond hrun
  have hplaces := Revision.map_getElem?_of_parentPositions placed.parents
  rw [← holds.ids] at hplaces
  refine ⟨_, ps, commitAt_eq_ok_iff.mpr ⟨_, _, _, holds.getElem?_ids hr, hrecord', hcount, rfl⟩,
    rfl, ?_, ?_, ?_, rfl, ?_, hplaces⟩
  · exact congrArg Record.tree placed.record
  · exact congrArg Record.generation placed.record
  · exact congrArg Record.time placed.record
  · intro k q hk
    exact parentPosition_of_writes hwrites hps hfirst hsecond hrun sound hk

theorem exists_commitAt {i : Nat} (hi : i < t.size) : ∃ c, t.commitAt i = .ok c := by
  rw [holds.size_eq, ← (Revision.sort_perm h.revisions).length_eq] at hi
  obtain ⟨c, _, stores⟩ := holds.exists_stores sound (List.getElem?_eq_getElem hi)
  exact ⟨c, stores.commit⟩

end Holds

namespace Prepared

variable (p : h.Prepared records edges)
include p

/-- The tables of the file hold the history wherever the extra edges of the revisions are read. -/
theorem holds_ofLayout {place : Span} {count : Nat} (hedges : edges <+: (Tables.ofLayout
      (h.file records edges)
        { h.layout records edges with edges := place, edgeCount := count }).edges.toList) :
    h.Holds records edges (Tables.ofLayout (h.file records edges)
      { h.layout records edges with edges := place, edgeCount := count }) where
  prepared := p
  ids := p.ids_tables
  counts := p.countThrough_tables
  records := p.records_tables
  edges := hedges

variable (ht : Tables.ofLayout (h.file records edges) (h.layout records edges) = t)
include ht

theorem holds : h.Holds records edges t := by
  have hedges : edges <+: (Tables.ofLayout (h.file records edges)
      (h.layout records edges)).edges.toList :=
    ⟨[], by rw [List.append_nil, p.edges_tables]⟩
  rw [← ht]
  exact p.holds_ofLayout hedges

theorem exists_commitAt (sound : t.Sound) {i : Nat} {r : Revision}
    (hr : (Revision.sort h.revisions)[i]? = some r) :
    ∃ c ps, t.commitAt i = .ok c ∧ r.parentPositions h.sortedIds.toArray = .ok ps ∧
      c.id = r.id ∧ c.tree = r.tree ∧ c.generation = r.generation ∧ c.time = r.time ∧
      c.parentCount = ps.length ∧ ∀ k q, ps[k]? = some q → t.parentPosition c k = .ok q := by
  obtain ⟨c, ps, stores⟩ := (p.holds ht).exists_stores sound hr
  have hplaces := stores.places
  rw [(p.holds ht).ids] at hplaces
  exact ⟨c, ps, stores.commit, Revision.parentPositions_of_map_getElem? p.ids_rise hplaces,
    stores.id, stores.tree, stores.generation, stores.time, stores.parentCount, stores.positions⟩

theorem exists_commitAt_of_lt (sound : t.Sound) {i : Nat} (hi : i < h.sortedIds.toArray.size) :
    ∃ c, t.commitAt i = .ok c :=
  (p.holds ht).exists_commitAt sound (by rwa [size, (p.holds ht).ids])

end Prepared

variable {file : Bytes}

/-- Every history that can be written comes back from its file as it was. -/
theorem exists_parse_of_encode (hencode : h.encode = .ok file) (hstore : h.Storable)
    (hfile : file.length < Format.sizeLimit) :
    ∃ g, Graph.parse file = .ok g ∧ g.tables.size = h.revisions.length ∧
      g.tables.ids.toList.Perm (h.revisions.map Revision.id) ∧
      (g.tables.ids.toList.map ObjectId.toBytes).Pairwise (· < ·) ∧
      ∀ r ∈ h.revisions, ∃ c, g.tables.find r.id 40 = .ok c ∧
        c.id = r.id ∧ c.tree = r.tree ∧ c.generation = r.generation ∧ c.time = r.time ∧
        c.parentCount = r.parents.length ∧
        ∃ parents : List Commit, g.tables.parents c = parents.map .ok ∧
          parents.map Commit.id = r.parents := by
  obtain ⟨records, edges, p, rfl⟩ := encode_eq_ok_iff.mp hencode
  have hparse := p.parse_file hstore hfile
  refine ⟨_, hparse, ?_⟩
  have sound := Graph.sound_of_parse hfile hparse
  have hids := p.ids_tables
  have buckets := p.inBuckets_tables
  change (Format.graph _ _).tables.ids = _ at hids
  change (Format.graph _ _).tables.InBuckets at buckets
  have htables : Tables.ofLayout (h.file records edges) (h.layout records edges) =
    (Format.graph (h.file records edges) (h.layout records edges)).tables := rfl
  generalize (Format.graph (h.file records edges) (h.layout records edges)).tables = t at *
  refine ⟨?_, ?_, ?_, ?_⟩
  · rw [Tables.size, hids, List.size_toArray, length_sortedIds]
  · rw [hids]
    exact (Revision.sort_perm h.revisions).map _
  · rw [hids, List.pairwise_map]
    exact p.ids_rise.imp ObjectId.lt_iff_toBytes_lt.mp
  · intro r hr
    obtain ⟨i, hi⟩ := List.mem_iff_getElem?.mp ((Revision.sort_perm h.revisions).mem_iff.mpr hr)
    obtain ⟨c, ps, hc, hps, hid, htree, hgeneration, htime, hcount, hpositions⟩ :=
      p.exists_commitAt htables sound hi
    have hplace : t.ids[i]? = some r.id := by
      rw [hids, List.getElem?_toArray, sortedIds, List.getElem?_map, hi]
      rfl
    have hparents := Revision.map_getElem?_of_parentPositions hps
    have hlength : ps.length = r.parents.length := by
      have := congrArg List.length hparents
      rwa [List.length_map, List.length_map] at this
    rw [← hids] at hparents
    refine ⟨c, ?_, hid, htree, hgeneration, htime, hcount.trans hlength, ?_⟩
    · rw [Tables.find_of_getElem? sound buckets (Nat.le_refl 40) hplace, hc]
    · rw [parents_eq_map hcount hpositions]
      exact exists_commits hparents fun q hq =>
        p.exists_commitAt_of_lt htables sound (Revision.lt_size_of_parentPositions hps q hq)

/-- The revision with three parents comes back with three parents. -/
theorem parents_sampleGraph : sample.encode = .ok sampleFile ∧ sample.Storable ∧
    sampleFile.length < Format.sizeLimit ∧ ∃ g c, Graph.parse sampleFile = .ok g ∧
      g.tables.find (.ofNat 0x0700000000000000000000000000000000000009) 40 = .ok c ∧
      ∃ parents : List Commit, g.tables.parents c = parents.map .ok ∧ parents.map Commit.id =
        [.ofNat 5, .ofNat 0x0700000000000000000000000000000000000000, .ofNat 5] := by
  have hencode : sample.encode = .ok sampleFile :=
    encode_eq_ok_iff.mpr ⟨_, _, prepared_sample, rfl⟩
  obtain ⟨g, hg, _, _, _, hall⟩ :=
    exists_parse_of_encode hencode storable_sample length_sampleFile
  obtain ⟨c, hc, _, _, _, _, _, hparents⟩ := hall _ List.mem_cons_self
  exact ⟨hencode, storable_sample, length_sampleFile, g, c, hg, hc, hparents⟩

end History

end Ancestry
