import Ancestry.Proofs.Graph.Astray
import Ancestry.Proofs.Graph.Faults
import Ancestry.Proofs.Graph.Parents
import Ancestry.Proofs.Graph.Seal

/-!
# Which errors tell of a corrupt file

A file that is refused is always told to be malformed or altered, as long as its extra edges can be
counted in 32 bits at all. The check of a graph that was read tells the same of all faults but one: a
record that points beyond the last extra edge is reported as a lookup that found nothing.
-/

namespace Ancestry

open Outcome

namespace GraphError

variable {e : GraphError}

def Malformed (e : GraphError) : Prop := e.isMalformed

theorem Malformed.isFatal (h : e.Malformed) : e.isFatal := by
  rw [GraphError.isFatal, h]
  rfl

/-- What is fatal is neither a lookup that found nothing nor one that found too much. -/
theorem not_isAbsent_of_isFatal (h : e.isFatal) : ¬ e.isAbsent := by
  cases e with
  | noCommit | noEdge | noParent | noMatch => cases h
  | _ => exact Bool.false_ne_true

theorem not_isAmbiguous_of_isFatal (h : e.isFatal) : ¬ e.isAmbiguous := by
  cases e with
  | ambiguous => cases h
  | _ => exact Bool.false_ne_true

theorem IsCheckFault.malformed_or (h : e.IsCheckFault) :
    e.Malformed ∨ ∃ position count, e = .noEdge position count := by
  cases e with
  | noEdge position count => exact .inr ⟨position, count, rfl⟩
  | outsideBucket | badParent | generationOrder | openEdgeRun => exact .inl rfl
  | _ => exact h.elim

end GraphError

section Reading

open GraphError

theorem Bytes.slice_malformed (region : Bytes) (offset length : Nat) :
    FailsWith Malformed (region.slice offset length) := by
  unfold slice
  split
  · exact .ok _
  · exact .error rfl

namespace Directory

theorem check_malformed (trailer floor : Nat) (entries : List Entry) :
    FailsWith Malformed (check trailer floor entries) := by
  induction entries generalizing floor with
  | nil => exact .ok _
  | cons e rest ih =>
    unfold check
    split
    · exact .error rfl
    · split
      · exact .error rfl
      · split
        · exact .error rfl
        · exact .map (ih e.offset)

theorem read_malformed (file : Bytes) (header : Header) (trailer : Nat) :
    FailsWith Malformed (read file header trailer) := by
  unfold read
  dsimp only
  split
  · next e hslice => exact .error (Bytes.slice_malformed _ _ _ e hslice)
  · exact .map (check_malformed _ _ _)

end Directory

namespace Layout

variable {file : Bytes} {chunk : Option Chunk} {count : Nat}

theorem required_malformed (kind : Kind) (chunk : Option Chunk) :
    FailsWith Malformed (required kind chunk) := by
  unfold required
  split
  · exact .error rfl
  · split
    · exact .error rfl
    · exact .ok _

theorem expectLength_malformed (expected : Nat) (c : Chunk) :
    FailsWith Malformed (expectLength expected c) := by
  unfold expectLength
  split
  · exact .ok _
  · exact .error rfl

theorem required_expectLength_malformed {β : Type} {kind : Kind} {expected : Nat}
    {f : Chunk → Except GraphError β} (hf : ∀ c, FailsWith Malformed (f c)) :
    FailsWith Malformed (do
      let c ← required kind chunk
      let c ← expectLength expected c
      f c) :=
  .bind (required_malformed kind chunk) fun c _ =>
    .bind (expectLength_malformed expected c) fun c _ => hf c

theorem checkFanout_malformed : FailsWith Malformed (checkFanout file chunk) := by
  refine required_expectLength_malformed fun c => .bind (Bytes.slice_malformed _ _ _) fun table _ => ?_
  dsimp only
  split
  · exact .error rfl
  · exact .ok _

theorem checkIds_malformed : FailsWith Malformed (checkIds file chunk count) := by
  refine required_expectLength_malformed fun c => .bind (Bytes.slice_malformed _ _ _) fun table _ => ?_
  split
  · exact .error rfl
  · exact .ok _

theorem checkCommits_malformed : FailsWith Malformed (checkCommits chunk count) :=
  required_expectLength_malformed fun c => .ok c.span

/-- Extra edges can be too many only in a chunk of 16 gibibytes. -/
theorem checkEdges_malformed (h : ∀ c, chunk = some c → c.length < 4 * UInt32.size) :
    FailsWith Malformed (checkEdges chunk) := by
  unfold checkEdges
  split
  · exact .ok _
  · next c =>
    split
    · exact .ok _
    · split
      · exact .error rfl
      · split
        · next hmany =>
          have hlength := h c rfl
          rw [wordSize] at hmany
          omega
        · exact .ok _

end Layout

namespace Draft

theorem claim_malformed (taken : Option Chunk) (c : Chunk) (d : Draft) :
    FailsWith Malformed (claim taken c d) := by
  unfold claim
  split
  · exact .error rfl
  · exact .ok _

theorem push_malformed (d : Draft) (c : Chunk) : FailsWith Malformed (d.push c) := by
  unfold push
  split
  · exact claim_malformed _ _ _
  · exact claim_malformed _ _ _
  · exact claim_malformed _ _ _
  · exact claim_malformed _ _ _
  · exact .ok _

theorem ofChunks_malformed (chunks : List Chunk) : FailsWith Malformed (ofChunks chunks) :=
  .foldlM push_malformed chunks empty

theorem finish_malformed {file : Bytes} {d : Draft}
    (h : ∀ c, d.edges = some c → c.length < 4 * UInt32.size) :
    FailsWith Malformed (d.finish file) :=
  .bind Layout.checkFanout_malformed fun _ _ =>
    .bind Layout.checkIds_malformed fun _ _ =>
      .bind Layout.checkCommits_malformed fun _ _ =>
        .bind (Layout.checkEdges_malformed h) fun _ _ => .ok _

end Draft

namespace Graph

variable {file : Bytes} (hsize : file.length < 4 * UInt32.size)
include hsize

theorem length_lt_of_slot {chunks : List Chunk} {d : Draft} {header : Header} {k : Kind} {c : Chunk}
    (hread : Directory.read file header (Format.trailer file) = .ok chunks)
    (hdraft : Draft.ofChunks chunks = .ok d) (hc : d.slot k = some c) :
    c.length < 4 * UInt32.size := by
  have hlimit : Format.trailer file < UInt64.size := by
    rw [Format.trailer]
    exact Nat.lt_of_le_of_lt (Nat.sub_le _ _) (Nat.lt_trans hsize (by decide))
  obtain ⟨_, marks, hcheck, rfl⟩ := Directory.read_eq_ok_iff.mp hread
  obtain ⟨horder, hnamed⟩ := Directory.check_eq_ok_iff.mp hcheck
  obtain ⟨hwithin, _⟩ := Directory.tile_of_named horder hnamed hlimit
  have hstop := (hwithin c (Draft.mem_of_slot hdraft hc)).stop_le
  rw [Format.trailer] at hstop
  omega

/-- A file that is refused is malformed or has been altered. -/
theorem parse_isFatal : FailsWith (fun e => e.isFatal) (Graph.parse file) := by
  unfold Graph.parse
  split
  · exact .error rfl
  · next hlong =>
    refine .bind (fun e he => ?_) fun header _ => ?_
    · refine isFatal_of_isFrameFault (Header.isFrameFault_of_parse ?_ he)
      exact Nat.le_trans (by decide : 8 ≤ minSize) (Nat.not_lt.mp hlong)
    · dsimp only
      split
      · exact .error rfl
      · split
        · exact .error rfl
        · refine .mono (.bind (Directory.read_malformed _ _ _) fun chunks hread => ?_)
            fun e => Malformed.isFatal
          refine .bind (Draft.ofChunks_malformed chunks) fun draft hdraft => ?_
          exact .bind (Draft.finish_malformed fun c hc =>
            length_lt_of_slot hsize hread hdraft (k := .edges) hc) fun layout _ => .ok _

end Graph

end Reading

namespace Tables

variable {t : Tables} {c : Commit} {i n start count : Nat}

section Check

variable (sound : t.Sound)
include sound

/-- An edge that is not there is missed only where a commit is decoded. -/
theorem commitAt_noEdge_of_checkParent (hc : t.commitAt i = .ok c) (hn : n < c.parentCount)
    (he : t.checkParent c n = .error (.noEdge start count)) :
    ∃ p < t.size, t.commitAt p = .error (.noEdge start count) := by
  obtain ⟨p, hp⟩ := exists_parentPosition sound hc hn
  rw [checkParent, hp] at he
  change (if t.size ≤ p then _ else _) = _ at he
  split at he
  · cases he
  · next hlt =>
    rcases bind_eq_error.mp he with hparent | ⟨parent, _, horder⟩
    · exact ⟨p, Nat.not_le.mp hlt, hparent⟩
    · split at horder <;> cases horder

theorem commitAt_noEdge_of_verify (he : t.verify = .error (.noEdge start count)) :
    ∃ i < t.size, t.commitAt i = .error (.noEdge start count) := by
  obtain ⟨i, hi, hcheck⟩ := exists_mem_of_forM_eq_error he
  rcases bind_eq_error.mp hcheck with hcommit | ⟨c, hc, hrest⟩
  · exact ⟨i, List.mem_range.mp hi, hcommit⟩
  · dsimp only at hrest
    split at hrest
    · obtain ⟨n, hn, hparent⟩ := exists_mem_of_forM_eq_error hrest
      exact commitAt_noEdge_of_checkParent sound hc (List.mem_range.mp hn) hparent
    · cases hrest

end Check

theorem checkCommit_of_outside (hc : t.commitAt i = .ok c)
    (h : ¬ (t.countBefore c.id.firstByte ≤ i ∧ i < t.countThrough c.id.firstByte)) :
    t.checkCommit i = .error (.outsideBucket i c.id.firstByte.val) := by
  rw [checkCommit, hc]
  exact if_neg h

end Tables

namespace Graph

variable {file : Bytes} {g : Graph} {e : GraphError}

structure Stranded (g : Graph) (i start : Nat) : Prop where
  lt_size : i < g.tables.size
  second_eq : g.secondSlot i = Record.flag + start
  edges_le : g.tables.edges.size ≤ start

/-- Whatever the check of a graph finds wrong, the file is told to be malformed, unless a record
points beyond the last extra edge. Such a record is reported as an edge that was not found. -/
theorem malformed_or_stranded (hfile : file.length < Format.sizeLimit)
    (h : Graph.parse file = .ok g) (he : g.tables.verify = .error e) :
    (e.isMalformed ∧ e.isFatal ∧ ¬ e.isAbsent ∧ ¬ e.isAmbiguous) ∨
      ∃ i start, g.Stranded i start ∧ e = .noEdge start g.tables.edges.size ∧
        e.isAbsent ∧ ¬ e.isMalformed ∧ ¬ e.isFatal ∧ ¬ e.isAmbiguous := by
  have sound := sound_of_parse hfile h
  rcases (Tables.isCheckFault_of_verify sound he).malformed_or with hmalformed | ⟨start, count, rfl⟩
  · have hfatal := hmalformed.isFatal
    exact .inl ⟨hmalformed, hfatal, GraphError.not_isAbsent_of_isFatal hfatal,
      GraphError.not_isAmbiguous_of_isFatal hfatal⟩
  · obtain ⟨i, hi, hcommit⟩ := Tables.commitAt_noEdge_of_verify sound he
    cases Tables.commitAt_eq_error_iff.mp hcommit with
    | noEdge record flagged hpast =>
      obtain ⟨_, hsecond⟩ := slots_eq hfile h record
      have hword := (sound.records_fit _ (Array.mem_of_getElem? record)).second_lt
      refine .inr ⟨i, _, ⟨hi, ?_, hpast⟩, rfl, rfl, Bool.false_ne_true, Bool.false_ne_true,
        Bool.false_ne_true⟩
      rw [← hsecond]
      simp only [Record.flag, UInt32.size] at *
      omega

/-- The first commit of the graph with a misleading fan-out stands outside its bucket. -/
theorem malformed_astrayGraph : Tables.astray.file.length < Format.sizeLimit ∧
    Graph.parse Tables.astray.file = .ok astrayGraph ∧
    ∃ e, astrayGraph.tables.verify = .error e ∧
      e.isMalformed ∧ e.isFatal ∧ ¬ e.isAbsent ∧ ¬ e.isAmbiguous := by
  have sound := Tables.sound_astray
  have hparse : Graph.parse Tables.astray.file = .ok astrayGraph := sound.parse_file
  have hcommit : Tables.astray.commitAt 0 = .ok (.ofRecord 0
      (.ofNat 0x0100000000000000000000000000000000000000)
      ⟨.zero, Record.noParent, Record.noParent, 0, 0⟩ 0) := rfl
  have hbucket : (ObjectId.ofNat 0x0100000000000000000000000000000000000000).firstByte = 1 := by
    decide +kernel
  have hbefore : Tables.astray.countBefore 1 = 1 := Tables.countThrough_astray 0
  have hcheck := Tables.checkCommit_of_outside hcommit fun hinside => by
    rw [Commit.ofRecord, hbucket, hbefore] at hinside
    exact absurd hinside.1 (by decide)
  rw [Commit.ofRecord, hbucket] at hcheck
  have hverify : astrayGraph.tables.verify = .error (.outsideBucket 0 1) := by
    rw [show astrayGraph.tables = Tables.astray from sound.ofLayout_file]
    exact bind_eq_error.mpr (.inl hcheck)
  refine ⟨sound.length_file_lt, hparse, _, hverify, ?_⟩
  rcases malformed_or_stranded sound.length_file_lt hparse hverify with
    hmalformed | ⟨_, _, _, hedge, _⟩
  · exact hmalformed
  · cases hedge

end Graph

namespace Tables

def stranded : Tables where
  fanout := Vector.ofFn fun b => min b.val 1
  ids := #[.ofNat 0x0100000000000000000000000000000000000000]
  records := #[⟨.zero, Record.noParent, Record.flag + 7, 0, 0⟩]
  edges := #[]
  size_records := rfl

theorem sound_stranded : stranded.Sound where
  fanout_rises a b hab := by
    have hcount (b : Fin 256) : stranded.countThrough b = min b.val 1 := Vector.getElem_ofFn b.isLt
    have hle : a.val ≤ b.val := hab
    rw [hcount, hcount]
    omega
  fanout_last := Vector.getElem_ofFn (255 : Fin 256).isLt
  ids_ascending := by
    change List.Pairwise _ _
    decide
  size_pos := by decide
  size_lt := by decide
  records_fit r hr := by
    simp only [stranded, List.mem_toArray, List.mem_cons, List.not_mem_nil, or_false] at hr
    rcases hr with rfl
    constructor <;> decide
  edges_lt e he := by
    simp only [stranded, List.mem_toArray, List.not_mem_nil] at he
  edges_size_lt := by decide

end Tables

namespace Graph

def strandedGraph : Graph := Format.graph Tables.stranded.file Tables.stranded.layout

/-- The check of a graph that was read does fail for want of an edge, which is not told to be a
malformed file. -/
theorem not_malformed_strandedGraph : Tables.stranded.file.length < Format.sizeLimit ∧
    Graph.parse Tables.stranded.file = .ok strandedGraph ∧
    strandedGraph.tables.verify = .error (.noEdge 7 0) ∧
    ¬ (GraphError.noEdge 7 0).isMalformed ∧ ¬ (GraphError.noEdge 7 0).isFatal ∧
      (GraphError.noEdge 7 0).isAbsent := by
  have sound := Tables.sound_stranded
  refine ⟨sound.length_file_lt, sound.parse_file, ?_, by decide, by decide, rfl⟩
  rw [show strandedGraph.tables = Tables.stranded from sound.ofLayout_file]
  rfl

end Graph

end Ancestry
