import Ancestry.Proofs.Graph.Reads

/-!
# What a graph refuses

Which questions about a graph have no answer, and which error is given instead. The file may be
hostile: a record may point anywhere, and a commit that is asked about may come from elsewhere.
Still a question fails only for what it asks for, or for a run of extra edges that is not there or
does not close, and never because a read would leave the file.
-/

namespace Ancestry

open Outcome

/-- What can be wrong with a graph whose chunks are each in order. -/
def GraphError.IsCheckFault : GraphError → Prop
  | .outsideBucket _ _ | .badParent _ _ | .generationOrder _ _ _ _ | .noEdge _ _
  | .openEdgeRun _ => True
  | _ => False

namespace Tables

variable {t : Tables} {position start n i : Nat} {r : Record} {c : Commit} {e : GraphError}

inductive CommitFault (t : Tables) (i : Nat) : GraphError → Prop
  | noCommit (h : t.size ≤ i) : CommitFault t i (.noCommit i t.size)
  | noEdge {r : Record} (record : t.records[i]? = some r) (flagged : Record.flag ≤ r.second)
      (h : t.edges.size ≤ r.second % Record.flag) :
      CommitFault t i (.noEdge (r.second % Record.flag) t.edges.size)
  | openEdgeRun {r : Record} (record : t.records[i]? = some r) (flagged : Record.flag ≤ r.second)
      (h : r.second % Record.flag < t.edges.size)
      (unflagged : ∀ j w, r.second % Record.flag ≤ j → t.edges[j]? = some w → w < Record.flag) :
      CommitFault t i (.openEdgeRun (r.second % Record.flag))

theorem idAt_eq_error_iff :
    t.idAt i = .error e ↔ t.size ≤ i ∧ e = .noCommit i t.size := by
  by_cases hi : t.size ≤ i
  · rw [idAt_of_size_le hi, Except.error.injEq, and_iff_right hi]
    exact eq_comm
  · have hid : t.ids[i]? = some _ := Array.getElem?_eq_getElem (Nat.not_le.mp hi)
    simp [idAt_of_getElem? hid, hi]

theorem edgeAt_eq_error_iff :
    t.edgeAt i = .error e ↔ t.edges.size ≤ i ∧ e = .noEdge i t.edges.size := by
  by_cases hi : t.edges.size ≤ i
  · rw [edgeAt_of_size_le hi, Except.error.injEq, and_iff_right hi]
    exact eq_comm
  · have hedge : t.edges[i]? = some _ := Array.getElem?_eq_getElem (Nat.not_le.mp hi)
    simp [edgeAt_of_getElem? hedge, hi]

/-- A run has no length when it starts beyond the last edge or when no edge closes it. -/
theorem runLength_eq_error_iff : t.runLength start = .error e ↔
    (t.edges.size ≤ start ∧ e = .noEdge start t.edges.size) ∨
      (start < t.edges.size ∧ (∀ j w, start ≤ j → t.edges[j]? = some w → w < Record.flag) ∧
        e = .openEdgeRun start) := by
  by_cases hstart : t.edges.size ≤ start
  · simp [runLength, hstart, Nat.not_lt.mpr hstart, eq_comm]
  · have hlt := Nat.not_le.mp hstart
    have hopen : (∀ j w, start ≤ j → t.edges[j]? = some w → w < Record.flag) ↔
        ¬ ∃ length, t.runLength start = .ok length := by
      rw [exists_runLength_iff, and_iff_right hlt]
      constructor
      · rintro hall ⟨j, w, hj, hw, hflag⟩
        exact Nat.not_le.mpr (hall j w hj hw) hflag
      · intro hnone j w hj hw
        exact Nat.not_le.mp fun hflag => hnone ⟨j, w, hj, hw, hflag⟩
    rw [hopen]
    simp only [hstart, hlt, false_and, false_or, true_and]
    rw [runLength, if_neg hstart]
    cases (t.edges.toList.drop start).findIdx? Record.isFlagged with
    | none => simp [eq_comm]
    | some last => simp

theorem parentCount_eq_error_iff : t.parentCount r = .error e ↔
    Record.flag ≤ r.second ∧ t.runLength (r.second % Record.flag) = .error e := by
  rw [parentCount, Record.edgeStart?, Record.isFlagged]
  by_cases hflag : Record.flag ≤ r.second
  · simp only [hflag, decide_true, if_true, map_eq_error, true_and]
    rfl
  · simp [hflag]

theorem commitAt_eq_error_iff : t.commitAt i = .error e ↔ t.CommitFault i e := by
  by_cases hi : t.size ≤ i
  · have hnone : t.records[i]? = none := Array.getElem?_eq_none (t.size_records ▸ hi)
    rw [commitAt_of_size_le hi]
    constructor
    · intro he
      obtain rfl := Except.error.inj he
      exact .noCommit hi
    · intro he
      cases he with
      | noCommit h => rfl
      | noEdge record flagged h => cases hnone.symm.trans record
      | openEdgeRun record flagged h unflagged => cases hnone.symm.trans record
  · obtain ⟨id, r, hid, hr⟩ := exists_record (Nat.not_le.mp hi)
    rw [commitAt_of_getElem? hid hr, map_eq_error, parentCount_eq_error_iff,
      runLength_eq_error_iff]
    constructor
    · rintro ⟨hflag, ⟨hlt, rfl⟩ | ⟨hlt, hopen, rfl⟩⟩
      · exact .noEdge hr hflag hlt
      · exact .openEdgeRun hr hflag hlt hopen
    · intro he
      cases he with
      | noCommit h => exact absurd h hi
      | noEdge record flagged h =>
        cases hr.symm.trans record
        exact ⟨flagged, .inl ⟨h, rfl⟩⟩
      | openEdgeRun record flagged h unflagged =>
        cases hr.symm.trans record
        exact ⟨flagged, .inr ⟨h, unflagged, rfl⟩⟩

/-- A parent of any commit, made up or not, is refused because the commit has no such parent or
because there is no such edge. -/
theorem parentPosition_eq_error (he : t.parentPosition c n = .error e) :
    e = .noParent n c.parentCount ∨ ∃ j, e = .noEdge j t.edges.size := by
  by_cases hn : c.parentCount ≤ n
  · rw [parentPosition_of_le hn] at he
    exact .inl (Except.error.inj he).symm
  · match n, hstart : c.edgeStart with
    | 0, _ =>
      rw [parentPosition_zero (Nat.not_le.mp hn)] at he
      cases he
    | 1, none =>
      rw [parentPosition_one (Nat.not_le.mp hn) hstart] at he
      cases he
    | _ + 2, none =>
      rw [parentPosition_add_two (Nat.not_le.mp hn) hstart] at he
      exact .inl (Except.error.inj he).symm
    | k + 1, some start =>
      rw [parentPosition_edge (Nat.not_le.mp hn) hstart] at he
      split at he
      · exact .inl (Except.error.inj he).symm
      · split at he
        · exact .inr ⟨_, (Except.error.inj he).symm⟩
        · exact .inr ⟨_, (edgeAt_eq_error_iff.mp (map_eq_error.mp he)).2⟩

theorem isCheckFault_of_commitAt (hi : i < t.size) (he : t.commitAt i = .error e) :
    e.IsCheckFault := by
  cases commitAt_eq_error_iff.mp he with
  | noCommit h => exact absurd h (Nat.not_le.mpr hi)
  | noEdge => trivial
  | openEdgeRun => trivial

theorem isCheckFault_of_checkParent (sound : t.Sound) (hc : t.commitAt i = .ok c)
    (hn : n < c.parentCount) (he : t.checkParent c n = .error e) : e.IsCheckFault := by
  obtain ⟨p, hp⟩ := exists_parentPosition sound hc hn
  rw [checkParent, hp] at he
  change (if t.size ≤ p then _ else _) = _ at he
  split at he
  · obtain rfl := Except.error.inj he
    trivial
  · next hlt =>
    rcases bind_eq_error.mp he with hparent | ⟨parent, _, horder⟩
    · exact isCheckFault_of_commitAt (Nat.not_le.mp hlt) hparent
    · split at horder
      · cases horder
      · obtain rfl := Except.error.inj horder
        trivial

theorem isCheckFault_of_checkCommit (sound : t.Sound) (hi : i < t.size)
    (he : t.checkCommit i = .error e) : e.IsCheckFault := by
  rcases bind_eq_error.mp he with hcommit | ⟨c, hc, hrest⟩
  · exact isCheckFault_of_commitAt hi hcommit
  · dsimp only at hrest
    split at hrest
    · obtain ⟨n, hn, hparent⟩ := exists_mem_of_forM_eq_error hrest
      exact isCheckFault_of_checkParent sound hc (List.mem_range.mp hn) hparent
    · obtain rfl := Except.error.inj hrest
      trivial

theorem isCheckFault_of_verify (sound : t.Sound) (he : t.verify = .error e) : e.IsCheckFault := by
  obtain ⟨i, hi, hcommit⟩ := exists_mem_of_forM_eq_error he
  exact isCheckFault_of_checkCommit sound (List.mem_range.mp hi) hcommit

end Tables

namespace Graph

open Checked

variable {file : Bytes} {g : Graph}

/-- Read from the file with all bounds and words checked, every question has the answer that the
tables give, and the errors are those of the question or of a run of edges. -/
theorem reads_eq_lift (hfile : file.length < Format.sizeLimit) (h : Graph.parse file = .ok g) :
    (∀ b, g.readCount b = .ok (g.tables.countThrough b)) ∧
      (∀ i, g.readId i = lift (g.tables.idAt i) ∧
        ∀ e, g.tables.idAt i = .error e ↔ g.tables.size ≤ i ∧ e = .noCommit i g.tables.size) ∧
      (∀ i, g.readCommit i = lift (g.tables.commitAt i) ∧
        ∀ e, g.tables.commitAt i = .error e ↔ g.tables.CommitFault i e) ∧
      (∀ c n, g.readParent c n = lift (g.tables.parentPosition c n) ∧
        ∀ e, g.tables.parentPosition c n = .error e →
          e = .noParent n c.parentCount ∨ ∃ j, e = .noEdge j g.tables.edges.size) ∧
      g.recheck = lift g.tables.verify ∧
        ∀ e, g.tables.verify = .error e → e.IsCheckFault := by
  have sound := sound_of_parse hfile h
  obtain ⟨hwell, hg⟩ := Format.wellFormed_of_parse hfile h
  have hcount := readCount_eq hfile hwell
  have hid := readId_eq hfile hwell
  have hcommit := readCommit_eq hfile hwell
  have hparent := readParent_eq hfile hwell
  have hcheck := recheck_eq hfile hwell
  have htables : Tables.ofLayout file g.layout = g.tables := congrArg Graph.tables hg
  rw [hg, htables] at hcheck
  simp only [hg, htables] at hcount hid hcommit hparent
  exact ⟨hcount, fun i => ⟨hid i, fun e => Tables.idAt_eq_error_iff⟩,
    fun i => ⟨hcommit i, fun e => Tables.commitAt_eq_error_iff⟩,
    fun c n => ⟨hparent c n, fun e he => Tables.parentPosition_eq_error he⟩,
    hcheck, fun e he => Tables.isCheckFault_of_verify sound he⟩

/-- A position beyond the sample, and a made-up commit whose run starts at the last word. -/
theorem reads_sampleGraph : History.sampleFile.length < Format.sizeLimit ∧
    Graph.parse History.sampleFile = .ok History.sampleGraph ∧
    History.sampleGraph.readCommit 3 = .error (.error (.noCommit 3 3)) ∧
    History.sampleGraph.readParent
      ⟨0, .zero, .zero, 0, 0, 9, some (UInt32.size - 1), 0, 0⟩ 2 =
        .error (.error (.noEdge (UInt32.size - 1) 2)) := by
  obtain ⟨_, _, hcommit, hparent, _⟩ := reads_eq_lift History.length_sampleFile
    History.parse_sampleFile
  refine ⟨History.length_sampleFile, History.parse_sampleFile, ?_, ?_⟩
  · rw [(hcommit 3).1, History.tables_sampleGraph]
    rfl
  · rw [(hparent _ 2).1, History.tables_sampleGraph]
    rfl

end Graph

end Ancestry
