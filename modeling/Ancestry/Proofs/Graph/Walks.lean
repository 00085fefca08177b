import Mathlib.Data.List.Chain
import Ancestry.Proofs.Graph.Verify

/-!
# Walks from commit to parent

A walk says at each commit which of its parents comes next. In a graph that passes the whole check
every walk can be made. Generations that are known and below the cap fall from commit to parent, so
a walk through such commits has no more of them than its first generation says. A walk that comes
back to where it started meets a commit of unknown generation, or none but commits at the cap.
-/

namespace Ancestry.Tables

open Outcome

/-- The commits on the way from `c`, which is the first of them. Each number says which parent of
the commit at hand comes next. -/
def walk (t : Tables) (c : Commit) : List Nat → Except GraphError (List Commit)
  | [] => .ok [c]
  | n :: ns => do
    let parent ← t.parentAt c n
    let rest ← t.walk parent ns
    .ok (c :: rest)

/-- Each number is below the number of parents of the commit that the walk has come to. -/
def NamesParents (t : Tables) (c : Commit) : List Nat → Prop
  | [] => True
  | n :: ns => n < c.parentCount ∧ ∀ parent, t.parentAt c n = .ok parent → t.NamesParents parent ns

def InOrder (c parent : Commit) : Prop :=
  InGenerationOrder c.generation parent.generation

def Falls (c parent : Commit) : Prop :=
  parent.generation < c.generation

section Walking

variable {t : Tables} {c : Commit} {cs : List Commit} {ns : List Nat} {i n : Nat}

theorem commitAt_position (hc : t.commitAt i = .ok c) : t.commitAt c.position = .ok c := by
  obtain ⟨id, r, count, _, _, _, rfl⟩ := commitAt_eq_ok_iff.mp hc
  exact hc

theorem lt_size_of_commitAt (hc : t.commitAt i = .ok c) : i < t.size := by
  obtain ⟨id, r, count, hid, _⟩ := commitAt_eq_ok_iff.mp hc
  exact (Array.getElem?_eq_some_iff.mp hid).1

theorem exists_parentAt (hverify : t.verify = .ok ()) (hc : t.commitAt i = .ok c)
    (hn : n < c.parentCount) :
    ∃ p parent, t.parentAt c n = .ok parent ∧ t.commitAt p = .ok parent ∧ InOrder c parent := by
  have hcheck := verify_eq_ok_iff_checkCommit.mp hverify i (lt_size_of_commitAt hc)
  obtain ⟨c', hc', _, hparents⟩ := checkCommit_eq_ok_iff.mp hcheck
  cases hc.symm.trans hc'
  obtain ⟨p, hp, _, parent, hparent, horder⟩ := checkParent_eq_ok_iff.mp (hparents n hn)
  refine ⟨p, parent, ?_, hparent, horder⟩
  rw [parentAt, hp]
  exact hparent

theorem exists_walk (hverify : t.verify = .ok ()) (hc : t.commitAt i = .ok c)
    (hns : t.NamesParents c ns) :
    ∃ cs, t.walk c ns = .ok (c :: cs) ∧ cs.length = ns.length ∧ (c :: cs).IsChain InOrder ∧
      ∀ d ∈ c :: cs, t.commitAt d.position = .ok d := by
  induction ns generalizing c i with
  | nil =>
    refine ⟨[], rfl, rfl, List.isChain_singleton c, ?_⟩
    intro d hd
    obtain rfl := List.mem_singleton.mp hd
    exact commitAt_position hc
  | cons n ns ih =>
    obtain ⟨hn, hrest⟩ := hns
    obtain ⟨p, parent, hparent, hp, horder⟩ := exists_parentAt hverify hc hn
    obtain ⟨cs, hwalk, hlength, hchain, hcommits⟩ := ih hp (hrest parent hparent)
    refine ⟨parent :: cs, ?_, congrArg Nat.succ hlength, hchain.cons_cons horder, ?_⟩
    · exact bind_eq_ok.mpr ⟨parent, hparent, bind_eq_ok.mpr ⟨_, hwalk, rfl⟩⟩
    · intro d hd
      rcases List.mem_cons.mp hd with rfl | hd
      · exact commitAt_position hc
      · exact hcommits d hd

end Walking

section Chains

variable {c : Commit} {cs : List Commit}
variable (hchain : (c :: cs).IsChain InOrder) (known : ∀ d ∈ c :: cs, d.generation ≠ 0)
include hchain known

theorem pairwise_falls (hlt : c.generation < Record.maxGeneration) :
    (c :: cs).Pairwise Falls := by
  induction cs generalizing c with
  | nil => exact List.pairwise_singleton _ _
  | cons b cs ih =>
    obtain ⟨horder, htail⟩ := List.isChain_cons_cons.mp hchain
    have hc := known c List.mem_cons_self
    have hb := known b (List.mem_cons_of_mem c List.mem_cons_self)
    have hfall : b.generation < c.generation := by
      rcases horder with h | h | h | h
      · exact absurd h hc
      · exact absurd h hb
      · exact absurd h (Nat.not_le.mpr hlt)
      · exact h
    have hrest := ih htail (fun d hd => known d (List.mem_cons_of_mem c hd)) (hfall.trans hlt)
    refine List.pairwise_cons.mpr ⟨?_, hrest⟩
    intro d hd
    rcases List.mem_cons.mp hd with rfl | hd
    · exact hfall
    · exact Nat.lt_trans (List.rel_of_pairwise_cons hrest hd) hfall

/-- On the way from a commit back to itself all generations stand at the cap. -/
theorem maxGeneration_le_of_closed (hcs : cs ≠ []) (hlast : (c :: cs).getLast? = some c) :
    ∀ d ∈ c :: cs, Record.maxGeneration ≤ d.generation := by
  have hback : c ∈ cs := by
    rw [List.getLast?_cons_of_ne_nil hcs] at hlast
    exact List.mem_of_getLast? hlast
  have hcap : Record.maxGeneration ≤ c.generation := by
    apply Nat.not_lt.mp
    intro hlt
    exact Nat.lt_irrefl _ (List.rel_of_pairwise_cons (pairwise_falls hchain known hlt) hback)
  intro d hd
  apply Nat.not_lt.mp
  intro hlt
  -- From `d` on the generations would fall, and the walk ends at `c`.
  obtain ⟨before, after, hsplit⟩ := List.append_of_mem hd
  rw [hsplit] at hchain known hlast
  have hfalls := pairwise_falls hchain.right_of_append
    (fun e he => known e (List.mem_append_right before he)) hlt
  rw [List.getLast?_append_of_ne_nil _ (List.cons_ne_nil d after)] at hlast
  rcases List.mem_cons.mp (List.mem_of_getLast? hlast) with rfl | hafter
  · exact Nat.not_lt.mpr hcap hlt
  · have hfall : c.generation < d.generation := List.rel_of_pairwise_cons hfalls hafter
    exact Nat.not_lt.mpr hcap (hfall.trans hlt)

omit hchain in
theorem length_le_generation (hfalls : (c :: cs).Pairwise Falls) :
    (c :: cs).length ≤ c.generation := by
  induction cs generalizing c with
  | nil => exact Nat.pos_of_ne_zero (known c List.mem_cons_self)
  | cons b cs ih =>
    obtain ⟨hc, hrest⟩ := List.pairwise_cons.mp hfalls
    have hfall : b.generation < c.generation := hc b List.mem_cons_self
    have hlength := ih (fun d hd => known d (List.mem_cons_of_mem c hd)) hrest
    exact Nat.lt_of_le_of_lt hlength hfall

end Chains

theorem nodup_positions {t : Tables} {cs : List Commit} (hfalls : cs.Pairwise Falls)
    (hcommits : ∀ d ∈ cs, t.commitAt d.position = .ok d) : (cs.map Commit.position).Nodup := by
  rw [List.Nodup, List.pairwise_map]
  refine hfalls.imp_of_mem ?_
  intro a b ha hb hfall heq
  have hab := hcommits a ha
  rw [heq, hcommits b hb] at hab
  cases hab
  exact Nat.lt_irrefl _ hfall

theorem generation_le {t : Tables} {c : Commit} {i : Nat} (fit : ∀ r ∈ t.records, r.Fits)
    (hc : t.commitAt i = .ok c) : c.generation ≤ Record.maxGeneration := by
  obtain ⟨id, r, count, _, hr, _, rfl⟩ := commitAt_eq_ok_iff.mp hc
  exact (fit r (Array.mem_of_getElem? hr)).generation_le

end Ancestry.Tables

namespace Ancestry.Graph

open Tables

/-- In a graph that passes the whole check every walk can be made. If it starts below the cap and
all its generations are known, they fall, so it is short and comes to no place twice. If it comes
back to its start, some generation is not known or all of them are capped. -/
theorem walks_of_verify {file : Bytes} {g : Graph} (h : Graph.parse file = .ok g)
    (hverify : g.tables.verify = .ok ()) :
    ∀ i < g.tables.size, ∃ c, g.tables.commitAt i = .ok c ∧
      ∀ ns, g.tables.NamesParents c ns →
        ∃ cs, g.tables.walk c ns = .ok cs ∧ cs.length = ns.length + 1 ∧
          (c.generation < Record.maxGeneration → (∀ d ∈ cs, d.generation ≠ 0) →
            cs.Pairwise Falls ∧ cs.length ≤ c.generation ∧ (cs.map Commit.position).Nodup) ∧
          (ns ≠ [] → cs.getLast? = some c →
            (∃ d ∈ cs, d.generation = 0) ∨ ∀ d ∈ cs, d.generation = Record.maxGeneration) := by
  intro i hi
  obtain ⟨c, hc, _⟩ := checkCommit_eq_ok_iff.mp (verify_eq_ok_iff_checkCommit.mp hverify i hi)
  refine ⟨c, hc, fun ns hns => ?_⟩
  obtain ⟨cs, hwalk, hlength, hchain, hcommits⟩ := exists_walk hverify hc hns
  refine ⟨c :: cs, hwalk, congrArg Nat.succ hlength, ?_, ?_⟩
  · intro hlt known
    have hfalls := pairwise_falls hchain known hlt
    exact ⟨hfalls, length_le_generation known hfalls, nodup_positions hfalls hcommits⟩
  · intro hns hlast
    by_cases hunknown : ∃ d ∈ c :: cs, d.generation = 0
    · exact .inl hunknown
    · have known : ∀ d ∈ c :: cs, d.generation ≠ 0 := fun d hd hzero => hunknown ⟨d, hd, hzero⟩
      have hcs : cs ≠ [] := by
        rintro rfl
        exact hns (List.length_eq_zero_iff.mp hlength.symm)
      obtain ⟨_, _, _, _, _, _, _, _, _, _, hg⟩ := Format.parse_eq_ok_iff_steps.mp h
      have fit : ∀ r ∈ g.tables.records, r.Fits := by
        rw [← hg]
        exact records_fit_ofLayout file g.layout
      refine .inr fun d hd => Nat.le_antisymm (generation_le fit (hcommits d hd)) ?_
      exact maxGeneration_le_of_closed hchain known hcs hlast d hd

end Ancestry.Graph

namespace Ancestry.History

def loop : History where
  revisions := [⟨.ofNat 7, .ofNat 1, [.ofNat 7], Record.maxGeneration, 10⟩]
  attachments := []

def loopRecords : List Record := [⟨.ofNat 1, 0, Record.noParent, Record.maxGeneration, 10⟩]

theorem sort_loop : Revision.sort loop.revisions = loop.revisions :=
  Revision.sort_eq_of_perm (List.Perm.refl _) (List.pairwise_singleton _ _)

theorem sortedIds_loop : loop.sortedIds = [.ofNat 7] := by
  rw [sortedIds, sort_loop]
  rfl

theorem placeAll_loop : Revision.placeAll #[.ofNat 7] 0 (Revision.sort loop.revisions) =
    .ok (loopRecords, []) := by
  have hself : Revision.positionOf #[.ofNat 7] (.ofNat 7) = some 0 :=
    Revision.positionOf_of_getElem? (List.pairwise_singleton _ _) rfl
  rw [sort_loop]
  simp only [loop, Revision.placeAll, Revision.place, Revision.parentPositions, List.mapM_cons,
    List.mapM_nil, hself]
  rfl

theorem prepared_loop : loop.Prepared loopRecords [] where
  nonempty := List.cons_ne_nil _ _
  length_lt := by decide
  ids_rise := by
    rw [sortedIds_loop]
    exact List.pairwise_singleton _ _
  placed := by
    rw [sortedIds_loop]
    exact placeAll_loop
  unclaimed := rfl
  payloads_lt := by decide

def loopFile : Bytes := loop.file loopRecords []

def loopGraph : Graph := Format.graph loopFile (loop.layout loopRecords [])

theorem parse_loopFile : Graph.parse loopFile = .ok loopGraph := by
  have storable : loop.Storable := ⟨by decide, by simp [loop], by simp [loop]⟩
  apply prepared_loop.parse_file storable
  rw [prepared_loop.length_file, length_sortedIds]
  decide

def loopTables : Tables where
  fanout := ⟨(fanout [.ofNat 7]).toArray, length_fanout _⟩
  ids := #[.ofNat 7]
  records := loopRecords.toArray
  edges := #[]
  size_records := rfl

theorem tables_loopGraph : loopGraph.tables = loopTables := by
  apply Tables.eq_of_fields
  · exact prepared_loop.fanout_tables.trans (congrArg fanout sortedIds_loop)
  · exact prepared_loop.ids_tables.trans (congrArg List.toArray sortedIds_loop)
  · exact prepared_loop.records_tables
  · exact prepared_loop.edges_tables

end Ancestry.History

namespace Ancestry.Graph

open History

/-- From the merge of the sample by way of its second parent, and round the loop. -/
theorem walks_sampleGraph :
    (Graph.parse sampleFile = .ok sampleGraph ∧ sampleGraph.tables.verify = .ok () ∧
      ∃ c cs, sampleGraph.tables.commitAt 2 = .ok c ∧ sampleGraph.tables.walk c [1, 0] = .ok cs ∧
        cs.length = 3 ∧ cs.Pairwise Tables.Falls) ∧
    (Graph.parse loopFile = .ok loopGraph ∧ loopGraph.tables.verify = .ok () ∧
      ∃ c cs, loopGraph.tables.commitAt 0 = .ok c ∧ loopGraph.tables.walk c [0, 0] = .ok cs ∧
        cs.length = 3 ∧ ∀ d ∈ cs, d.generation = Record.maxGeneration) := by
  constructor
  · have hverify : sampleGraph.tables.verify = .ok () := by
      rw [tables_sampleGraph]
      rfl
    have hwalks := walks_of_verify parse_sampleFile hverify
    refine ⟨parse_sampleFile, hverify, ?_⟩
    rw [tables_sampleGraph] at hwalks ⊢
    obtain ⟨c, hc, hwalk⟩ := hwalks 2 (by decide)
    cases hc
    obtain ⟨cs, hcs, hlength, hfalls, _⟩ := hwalk [1, 0] (by
      refine ⟨by decide, ?_⟩
      rintro parent ⟨⟩
      exact ⟨by decide, fun _ _ => trivial⟩)
    refine ⟨_, cs, rfl, hcs, hlength, (hfalls (by decide) ?_).1⟩
    cases hcs
    decide
  · have hverify : loopGraph.tables.verify = .ok () := by
      rw [tables_loopGraph]
      rfl
    have hwalks := walks_of_verify parse_loopFile hverify
    refine ⟨parse_loopFile, hverify, ?_⟩
    rw [tables_loopGraph] at hwalks ⊢
    obtain ⟨c, hc, hwalk⟩ := hwalks 0 (by decide)
    cases hc
    obtain ⟨cs, hcs, hlength, _, hcycle⟩ := hwalk [0, 0] (by
      refine ⟨by decide, ?_⟩
      rintro parent ⟨⟩
      exact ⟨by decide, fun _ _ => trivial⟩)
    refine ⟨_, cs, rfl, hcs, hlength, ?_⟩
    have hback := hcycle (List.cons_ne_nil _ _) (by cases hcs; rfl)
    refine hback.resolve_left ?_
    cases hcs
    decide

end Ancestry.Graph
