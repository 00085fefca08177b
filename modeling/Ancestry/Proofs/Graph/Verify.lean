import Ancestry.Graph.Verify
import Ancestry.Proofs.History.Encode

/-!
# What a whole check decides

The check goes from commit to commit and stops at the first fault, and a fault may also be that a
commit or a parent cannot be decoded. What it decides is still a property of each place by itself:
runs of edges close, ids stand in their buckets, parents are commits of the graph, and generations
rise.
-/

namespace Ancestry.Tables

open Outcome

variable {t : Tables} {c : Commit} {i n : Nat}

/-- The commit at place `i` fits in with the rest of the graph. -/
structure Coherent (t : Tables) (i : Nat) : Prop where
  edges_close : ∀ r, t.records[i]? = some r → t.EdgesClose r
  in_bucket : ∀ id, t.ids[i]? = some id →
    t.countBefore id.firstByte ≤ i ∧ i < t.countThrough id.firstByte
  parents_lt : ∀ c n p, t.commitAt i = .ok c → n < c.parentCount → t.parentPosition c n = .ok p →
    p < t.size
  generations_rise : ∀ c n p r, t.commitAt i = .ok c → n < c.parentCount →
    t.parentPosition c n = .ok p → t.records[p]? = some r →
      c.generation = 0 ∨ r.generation = 0 ∨ c.generation = Record.maxGeneration ∨
        r.generation < c.generation

theorem inGenerationOrder_iff {generation parent : Nat} (h : generation ≤ Record.maxGeneration) :
    InGenerationOrder generation parent ↔
      generation = 0 ∨ parent = 0 ∨ generation = Record.maxGeneration ∨ parent < generation := by
  have hmax : Record.maxGeneration ≤ generation ↔ generation = Record.maxGeneration := by omega
  rw [InGenerationOrder, hmax]

theorem checkParent_eq_ok_iff : t.checkParent c n = .ok () ↔
    ∃ p, t.parentPosition c n = .ok p ∧ p < t.size ∧
      ∃ parent, t.commitAt p = .ok parent ∧
        InGenerationOrder c.generation parent.generation := by
  unfold checkParent
  rw [bind_eq_ok]
  refine exists_congr fun p => and_congr_right fun _ => ?_
  by_cases hp : t.size ≤ p
  · simp [hp, Nat.not_lt.mpr hp]
  · rw [if_neg hp, bind_eq_ok, and_iff_right (Nat.not_le.mp hp)]
    refine exists_congr fun parent => and_congr_right fun _ => ?_
    by_cases hgen : InGenerationOrder c.generation parent.generation <;> simp [hgen]

theorem checkCommit_eq_ok_iff : t.checkCommit i = .ok () ↔
    ∃ c, t.commitAt i = .ok c ∧
      (t.countBefore c.id.firstByte ≤ i ∧ i < t.countThrough c.id.firstByte) ∧
        ∀ n < c.parentCount, t.checkParent c n = .ok () := by
  unfold checkCommit
  rw [bind_eq_ok]
  refine exists_congr fun c => and_congr_right fun _ => ?_
  dsimp only
  split
  · next h =>
    rw [forM_eq_ok, and_iff_right h]
    simp only [List.mem_range]
  · next h => simp [h]

theorem verify_eq_ok_iff_checkCommit :
    t.verify = .ok () ↔ ∀ i < t.size, t.checkCommit i = .ok () := by
  rw [verify, forM_eq_ok]
  simp only [List.mem_range]

theorem coherent_of_checkCommit (sound : t.Sound) (h : t.checkCommit i = .ok ()) :
    t.Coherent i := by
  obtain ⟨c, hc, hbucket, hparents⟩ := checkCommit_eq_ok_iff.mp h
  obtain ⟨id, r, count, hid, hr, hcount, hcommit⟩ := commitAt_eq_ok_iff.mp hc
  constructor
  · intro r' hr'
    cases hr.symm.trans hr'
    exact exists_parentCount_iff.mp ⟨count, hcount⟩
  · intro id' hid'
    cases hid.symm.trans hid'
    rwa [← hcommit] at hbucket
  · intro c' n p hc' hn hp
    cases hc.symm.trans hc'
    obtain ⟨p', hp', hlt, _⟩ := checkParent_eq_ok_iff.mp (hparents n hn)
    cases hp.symm.trans hp'
    exact hlt
  · intro c' n p r' hc' hn hp hr'
    cases hc.symm.trans hc'
    obtain ⟨p', hp', _, parent, hparent, horder⟩ := checkParent_eq_ok_iff.mp (hparents n hn)
    cases hp.symm.trans hp'
    obtain ⟨_, r'', _, _, hr'', _, rfl⟩ := commitAt_eq_ok_iff.mp hparent
    cases hr'.symm.trans hr''
    have hfit := sound.records_fit r (Array.mem_of_getElem? hr)
    refine (inGenerationOrder_iff ?_).mp horder
    rw [← hcommit]
    exact hfit.generation_le

theorem exists_commitAt (hi : i < t.size) (h : ∀ r, t.records[i]? = some r → t.EdgesClose r) :
    ∃ c, t.commitAt i = .ok c := by
  obtain ⟨id, r, hid, hr⟩ := exists_record hi
  obtain ⟨count, hcount⟩ := exists_parentCount_iff.mpr (h r hr)
  exact ⟨_, commitAt_eq_ok_iff.mpr ⟨id, r, count, hid, hr, hcount, rfl⟩⟩

theorem checkCommit_of_coherent (sound : t.Sound) (h : ∀ j < t.size, t.Coherent j)
    (hi : i < t.size) : t.checkCommit i = .ok () := by
  obtain ⟨c, hc⟩ := exists_commitAt hi (h i hi).edges_close
  obtain ⟨id, r, count, hid, hr, hcount, hcommit⟩ := commitAt_eq_ok_iff.mp hc
  refine checkCommit_eq_ok_iff.mpr ⟨c, hc, ?_, ?_⟩
  · rw [← hcommit]
    exact (h i hi).in_bucket id hid
  · intro n hn
    obtain ⟨p, hp⟩ := exists_parentPosition sound hc hn
    have hlt := (h i hi).parents_lt c n p hc hn hp
    obtain ⟨parent, hparent⟩ := exists_commitAt hlt (h p hlt).edges_close
    obtain ⟨_, r', _, _, hr', _, rfl⟩ := commitAt_eq_ok_iff.mp hparent
    have hfit := sound.records_fit r (Array.mem_of_getElem? hr)
    refine checkParent_eq_ok_iff.mpr ⟨p, hp, hlt, _, hparent, (inGenerationOrder_iff ?_).mpr ?_⟩
    · rw [← hcommit]
      exact hfit.generation_le
    · exact (h i hi).generations_rise c n p r' hc hn hp hr'

end Ancestry.Tables

namespace Ancestry.Graph

variable {file : Bytes} {g : Graph}

/-- The check of a whole graph passes exactly when each of its commits fits in with the rest, and
where the run of edges of a commit closes there is nothing of it that cannot be decoded. -/
theorem verify_eq_ok_iff_coherent (hfile : file.length < Format.sizeLimit)
    (h : Graph.parse file = .ok g) :
    (g.tables.verify = .ok () ↔ ∀ i < g.tables.size, g.tables.Coherent i) ∧
      ∀ i < g.tables.size, (∀ r, g.tables.records[i]? = some r → g.tables.EdgesClose r) →
        ∃ c, g.tables.commitAt i = .ok c ∧
          ∀ n < c.parentCount, ∃ p, g.tables.parentPosition c n = .ok p := by
  have sound := sound_of_parse hfile h
  constructor
  · rw [Tables.verify_eq_ok_iff_checkCommit]
    constructor
    · exact fun hall i hi => Tables.coherent_of_checkCommit sound (hall i hi)
    · exact fun hall i hi => Tables.checkCommit_of_coherent sound hall hi
  · intro i hi hclose
    obtain ⟨c, hc⟩ := Tables.exists_commitAt hi hclose
    exact ⟨c, hc, fun n hn => Tables.exists_parentPosition sound hc hn⟩

theorem coherent_sampleGraph : History.sampleFile.length < Format.sizeLimit ∧
    Graph.parse History.sampleFile = .ok History.sampleGraph ∧
    History.sampleGraph.tables.verify = .ok () ∧
    ∀ i < 3, History.sampleGraph.tables.Coherent i := by
  obtain ⟨hverify, _⟩ := verify_eq_ok_iff_coherent History.length_sampleFile
    History.parse_sampleFile
  have hpasses : History.sampleGraph.tables.verify = .ok () := by
    rw [History.tables_sampleGraph]
    rfl
  have hcoherent := hverify.mp hpasses
  have hsize : History.sampleGraph.tables.size = 3 := by
    rw [History.tables_sampleGraph]
    rfl
  rw [hsize] at hcoherent
  exact ⟨History.length_sampleFile, History.parse_sampleFile, hpasses, hcoherent⟩

end Ancestry.Graph
