import Ancestry.Proofs.History.Generations
import Mathlib.Data.List.ModifyLast

/-!
# The list of extra edges

The writer adds to one list while it goes through the revisions, and sets a bit of its last word
where it stands. No word before is touched, so in the file the list is the runs of the revisions one
after another, and the number in a second slot is the length of all runs before. Both are said here
of the history alone: the place of a parent is the number of ids below it, and a run is what comes
after the first place, the last word with its high bit set.
-/

namespace Ancestry

open Outcome

namespace Placement

def flagLast (ps : List Nat) : List Nat :=
  ps.mapIdx fun k p => if k + 1 = ps.length then Record.flag + p else p

variable {ps : List Nat} {k word : Nat}

theorem setFlag_of_lt {p : Nat} (h : p < Record.flag) : Record.setFlag p = Record.flag + p := by
  rw [Record.setFlag, Nat.mod_eq_of_lt h]

theorem flagLast_cons (p q : Nat) (rest : List Nat) :
    flagLast (p :: q :: rest) = p :: flagLast (q :: rest) := by
  rw [flagLast, List.mapIdx_cons, flagLast]
  simp only [List.length_cons, Nat.add_right_cancel_iff]
  rw [if_neg (by omega)]

theorem closeRun_eq_flagLast (h : ∀ p ∈ ps, p < Record.flag) : closeRun ps = flagLast ps := by
  fun_induction closeRun ps with
  | case1 => rfl
  | case2 p => exact congrArg (fun word => [word]) (setFlag_of_lt (h p List.mem_cons_self))
  | case3 p q rest ih => rw [ih fun x hx => h x (List.mem_cons_of_mem p hx), flagLast_cons]

theorem isFlagged_flagLast (h : ∀ p ∈ ps, p < Record.flag) (hword : (flagLast ps)[k]? = some word) :
    Record.isFlagged word ↔ k + 1 = ps.length := by
  rw [flagLast, List.getElem?_mapIdx] at hword
  obtain ⟨p, hp, rfl⟩ := Option.map_eq_some_iff.mp hword
  have hlt := h p (List.mem_of_getElem? hp)
  rw [Record.isFlagged, decide_eq_true_iff]
  split <;> omega

theorem modifyLast_eq_closeRun (ps : List Nat) : ps.modifyLast Record.setFlag = closeRun ps := by
  fun_induction closeRun ps with
  | case1 => rfl
  | case2 p => exact List.modifyLast_concat Record.setFlag p []
  | case3 p q rest ih =>
    have happend := List.modifyLast_append_of_right_ne_nil Record.setFlag [p] (q :: rest)
      (List.cons_ne_nil q rest)
    rw [ih] at happend
    exact happend

namespace Writes

variable {start : Nat} {w : Placement} (h : Writes start ps w)
include h

theorem first_eq : w.first = ps[0]?.getD Record.noParent := by
  cases h <;> rfl

theorem second_eq : w.second =
    if 3 ≤ ps.length then Record.flag + start else ps[1]?.getD Record.noParent := by
  cases h with
  | root => rfl
  | single p => rfl
  | pair p q => rfl
  | octopus p others many room => exact (if_pos (Nat.succ_le_succ many)).symm

theorem run_eq (hps : ∀ p ∈ ps, p < Record.noParent) :
    w.run = if 3 ≤ ps.length then flagLast ps.tail else [] := by
  cases h with
  | root => rfl
  | single p => rfl
  | pair p q => rfl
  | octopus p others many room =>
    rw [if_pos (show 3 ≤ (p :: others).length from Nat.succ_le_succ many), List.tail_cons]
    exact closeRun_eq_flagLast (lt_flag_of_mem hps)

end Writes

end Placement

/-- What is written so far: the records, and one list of the extra edges of them all. -/
structure Written where
  records : List Record
  edges : List Nat

namespace Written

open Placement Revision

def extend (edges : List Nat) : List Nat → Except GraphError ((Nat × Nat) × List Nat)
  | [] => .ok ((Record.noParent, Record.noParent), edges)
  | [p] => .ok ((p, Record.noParent), edges)
  | [p, q] => .ok ((p, q), edges)
  | p :: others =>
    if Record.flag ≤ edges.length then .error (.tooMany .extraEdges)
    else .ok ((p, Record.flag + edges.length), (edges ++ others).modifyLast Record.setFlag)

def add (ids : ObjectId.Table) (w : Written) (r : Revision) : Except GraphError Written :=
  if Record.maxGeneration < r.generation then .error (.generationTooLarge r.generation)
  else if Record.maxTime < r.time then .error (.timeTooLarge r.time)
  else do
    let parents ← r.parentPositions ids
    let (slots, edges) ← extend w.edges parents
    .ok ⟨w.records ++ [⟨r.tree, slots.1, slots.2, r.generation, r.time⟩], edges⟩

theorem extend_eq (edges ps : List Nat) : extend edges ps =
    (ofParents edges.length ps).map fun w => ((w.first, w.second), edges ++ w.run) := by
  match ps with
  | [] | [_] | [_, _] => simp [extend, ofParents, Except.map]
  | p :: q :: r :: others =>
    have hlast := List.modifyLast_append_of_right_ne_nil Record.setFlag edges (q :: r :: others)
      (List.cons_ne_nil _ _)
    rw [modifyLast_eq_closeRun (q :: r :: others)] at hlast
    simp only [extend, ofParents, hlast]
    split <;> rfl

variable {ids : ObjectId.Table} {w : Written}

theorem add_eq (r : Revision) : w.add ids r = (r.place ids w.edges.length).map fun (record, run) =>
    ⟨w.records ++ [record], w.edges ++ run⟩ := by
  unfold add place
  split
  · rfl
  · split
    · rfl
    · cases r.parentPositions ids with
      | error e => rfl
      | ok parents =>
        change extend w.edges parents >>= _ = Except.map _ (ofParents w.edges.length parents >>= _)
        rw [extend_eq]
        cases ofParents w.edges.length parents <;> rfl

/-- One list that grows in place becomes what the runs are one after another. -/
theorem foldlM_add (revisions : List Revision) : revisions.foldlM (add ids) w =
    (placeAll ids w.edges.length revisions).map fun (records, edges) =>
      ⟨w.records ++ records, w.edges ++ edges⟩ := by
  induction revisions generalizing w with
  | nil => simp [placeAll, Except.map, pure, Except.pure]
  | cons r rest ih =>
    rw [List.foldlM_cons, add_eq, placeAll]
    cases r.place ids w.edges.length with
    | error e => rfl
    | ok placed =>
      obtain ⟨record, run⟩ := placed
      change rest.foldlM (add ids) ⟨w.records ++ [record], w.edges ++ run⟩ =
        Except.map _ (placeAll ids (w.edges.length + run.length) rest >>= _)
      rw [ih, List.length_append]
      cases placeAll ids (w.edges.length + run.length) rest with
      | error e => rfl
      | ok later => simp [Except.map, bind, Except.bind]

end Written

namespace Revision

section PlaceAll

variable {table : ObjectId.Table} {f : Revision → List Nat} {revisions : List Revision}
variable {start i : Nat} {records : List Record} {edges : List Nat} {r : Revision}
variable (hf : ∀ {start r record run ps w}, Placed table start r record run ps w → run = f r)
variable (h : placeAll table start revisions = .ok (records, edges))
include hf h

/-- If the run of a revision does not depend on where it starts, the list is all runs in turn. -/
theorem edges_of_placeAll : edges = revisions.flatMap f := by
  induction revisions generalizing start records edges with
  | nil => exact (Prod.mk.inj (Except.ok.inj h)).2.symm
  | cons r rest ih =>
    obtain ⟨_, _, _, _, _, _, hplaced, hrest, _, rfl⟩ := placeAll_cons_eq_ok h
    rw [List.flatMap_cons, hf hplaced, ih hrest]

/-- A revision is placed behind the runs of those before it. -/
theorem exists_placed_after (hr : revisions[i]? = some r) :
    ∃ record ps w, records[i]? = some record ∧
      Placed table (start + ((revisions.take i).flatMap f).length) r record (f r) ps w := by
  -- Over the revisions; the start of the rest counts the run of the first.
  induction revisions generalizing start records edges i with
  | nil => cases hr
  | cons first rest ih =>
    obtain ⟨record, run, ps, w, _, _, hplaced, hrest, rfl, _⟩ := placeAll_cons_eq_ok h
    obtain rfl := hf hplaced
    cases i with
    | zero =>
      obtain rfl := Option.some.inj hr
      exact ⟨record, ps, w, rfl, hplaced⟩
    | succ i =>
      obtain ⟨record, ps, w, hrecord, hplaced⟩ := ih hrest hr
      refine ⟨record, ps, w, hrecord, ?_⟩
      rwa [List.take_succ_cons, List.flatMap_cons, List.length_append, ← Nat.add_assoc]

omit hf in
theorem exists_placeAll_take (n : Nat) :
    ∃ before, placeAll table start (revisions.take n) = .ok (records.take n, before) := by
  induction revisions generalizing start records edges n with
  | nil =>
    obtain ⟨rfl, rfl⟩ := Prod.mk.inj (Except.ok.inj h)
    exact ⟨[], by rw [List.take_nil, List.take_nil]; rfl⟩
  | cons r rest ih =>
    cases n with
    | zero => exact ⟨[], rfl⟩
    | succ n =>
      obtain ⟨⟨record, run⟩, hplace, h⟩ := bind_eq_ok.mp h
      obtain ⟨⟨later, edges'⟩, hrest, h⟩ := bind_eq_ok.mp h
      obtain ⟨rfl, rfl⟩ := Prod.mk.inj (Except.ok.inj h)
      obtain ⟨before, hbefore⟩ := ih hrest n
      refine ⟨run ++ before, ?_⟩
      rw [List.take_succ_cons, placeAll, hplace]
      exact bind_eq_ok.mpr ⟨_, rfl, bind_eq_ok.mpr ⟨_, hbefore, rfl⟩⟩

end PlaceAll

end Revision

namespace History

def parentRanks (h : History) (r : Revision) : List Nat := r.parents.map h.rank

/-- What a revision adds to the extra edges. -/
def run (h : History) (r : Revision) : List Nat :=
  if 3 ≤ r.parents.length then Placement.flagLast (h.parentRanks r).tail else []

def runsBefore (h : History) (n : Nat) : List Nat :=
  ((Revision.sort h.revisions).take n).flatMap h.run

def runs (h : History) : List Nat := (Revision.sort h.revisions).flatMap h.run

def firstWord (h : History) (r : Revision) : Nat :=
  (h.parentRanks r)[0]?.getD Record.noParent

def secondWord (h : History) (i : Nat) (r : Revision) : Nat :=
  if 3 ≤ r.parents.length then Record.flag + (h.runsBefore i).length
  else (h.parentRanks r)[1]?.getD Record.noParent

/-- Where the parents of the revisions stand in a file. The chunk of the extra edges is there just if
some revision needs it, and is all runs in turn. A run ends at its only flagged word, and only slots
that point to a run are flagged; the places themselves never are, nor are they taken for none. The one list that
grows while the revisions are written is at each of them the runs of those before. -/
structure Laid (h : History) (file : Bytes) : Prop where
  absent : ¬ h.HasOctopus → Format.placed file .edges = []
  present : h.HasOctopus → ∃ span, Format.placed file .edges = [(.edges, span)] ∧
    file.window span.start span.stop = h.runs.flatMap (Bytes.ofNat 4)
  words_lt : ∀ word ∈ h.runs, word < UInt32.size
  slots : ∃ span, Format.placed file .commits = [(.commits, span)] ∧
    ∀ i r, (Revision.sort h.revisions)[i]? = some r →
      Bytes.toNat (file.window (span.start + 36 * i + 20) (span.start + 36 * i + 24)) =
          h.firstWord r ∧
        Bytes.toNat (file.window (span.start + 36 * i + 24) (span.start + 36 * i + 28)) =
          h.secondWord i r
  flagged : ∀ r ∈ h.revisions, ∀ k word, (h.run r)[k]? = some word →
    (Record.isFlagged word ↔ k + 1 = (h.run r).length)
  inline : ∀ i, ∀ r ∈ h.revisions, r.parents.length < 3 → Record.isFlagged (h.secondWord i r) = false
  places : ∀ r ∈ h.revisions, ∀ p ∈ h.parentRanks r,
    p ≠ Record.noParent ∧ Record.isFlagged p = false
  parents : ∀ r ∈ h.revisions, (h.parentRanks r).map (h.sortedIds[·]?) = r.parents.map some
  grown : ∀ n, ∃ records, ((Revision.sort h.revisions).take n).foldlM
    (Written.add h.sortedIds.toArray) ⟨[], []⟩ = .ok ⟨records, h.runsBefore n⟩

variable {h : History} {records : List Record} {edges : List Nat} {r : Revision} {i : Nat}

namespace Prepared

variable (p : h.Prepared records edges)
include p

theorem rank_of_getElem?_sortedIds {id : ObjectId} (hid : h.sortedIds[i]? = some id) :
    h.rank id = i := by
  rw [sortedIds, List.getElem?_map] at hid
  obtain ⟨r, hr, rfl⟩ := Option.map_eq_some_iff.mp hid
  exact p.rank_of_getElem? hr

theorem parentRanks_eq {ps : List Nat}
    (hps : r.parentPositions h.sortedIds.toArray = .ok ps) : h.parentRanks r = ps := by
  have hplaces := Revision.map_getElem?_of_parentPositions hps
  have hrank : ∀ q ∈ ps, h.sortedIds.toArray[q]?.map h.rank = some q := by
    intro q hq
    have hlt := Revision.lt_size_of_parentPositions hps q hq
    rw [Array.getElem?_eq_getElem hlt, Option.map_some]
    exact congrArg some (p.rank_of_getElem?_sortedIds (List.getElem?_eq_getElem hlt))
  have hsome : (h.parentRanks r).map some = ps.map some :=
    calc (h.parentRanks r).map some = (r.parents.map some).map (Option.map h.rank) := by
          simp [parentRanks]
      _ = ps.map fun q => h.sortedIds.toArray[q]?.map h.rank := by
          rw [← hplaces, List.map_map]
          rfl
      _ = ps.map some := List.map_congr_left hrank
  exact (List.map_inj_right fun _ _ => Option.some.inj).mp hsome

section Placed

variable {start : Nat} {record : Record} {word ps : List Nat} {w : Placement}
variable (placed : Revision.Placed h.sortedIds.toArray start r record word ps w)
include placed

theorem run_eq_of_placed : word = h.run r := by
  have hps := placed.parents_lt p.sortedIds_lt
  rw [placed.run, placed.writes.run_eq hps, run, p.parentRanks_eq placed.parents,
    placed.length_parents]

theorem slots_eq_of_placed : record.first = h.firstWord r ∧ record.second =
    if 3 ≤ r.parents.length then Record.flag + start else (h.parentRanks r)[1]?.getD Record.noParent := by
  rw [placed.record, firstWord, p.parentRanks_eq placed.parents]
  refine ⟨placed.writes.first_eq, ?_⟩
  rw [placed.writes.second_eq, placed.length_parents]

end Placed

/-- At each revision the list is as long as the runs before, and no word of them has changed. -/
theorem exists_written (n : Nat) :
    ∃ records, ((Revision.sort h.revisions).take n).foldlM (Written.add h.sortedIds.toArray)
      ⟨[], []⟩ = .ok ⟨records, h.runsBefore n⟩ := by
  obtain ⟨before, hbefore⟩ := Revision.exists_placeAll_take p.placed n
  refine ⟨records.take n, ?_⟩
  rw [Written.foldlM_add, List.length_nil, hbefore, runsBefore,
    ← Revision.edges_of_placeAll p.run_eq_of_placed hbefore]
  rfl

theorem edges_eq_runs : edges = h.runs :=
  Revision.edges_of_placeAll p.run_eq_of_placed p.placed

theorem exists_record (hr : (Revision.sort h.revisions)[i]? = some r) :
    ∃ record, records[i]? = some record ∧ record.first = h.firstWord r ∧
      record.second = h.secondWord i r := by
  obtain ⟨record, ps, w, hrecord, placed⟩ :=
    Revision.exists_placed_after p.run_eq_of_placed p.placed hr
  obtain ⟨hfirst, hsecond⟩ := p.slots_eq_of_placed placed
  rw [Nat.zero_add] at hsecond
  exact ⟨record, hrecord, hfirst, hsecond⟩

theorem parentPositions_eq (hr : r ∈ h.revisions) :
    r.parentPositions h.sortedIds.toArray = .ok (h.parentRanks r) := by
  obtain ⟨i, hi⟩ := List.mem_iff_getElem?.mp ((Revision.sort_perm h.revisions).mem_iff.mpr hr)
  obtain ⟨_, ps, _, _, placed⟩ := Revision.exists_placed_after p.run_eq_of_placed p.placed hi
  rw [p.parentRanks_eq placed.parents]
  exact placed.parents

theorem parentRanks_lt (hr : r ∈ h.revisions) : ∀ q ∈ h.parentRanks r, q < Record.noParent :=
  fun q hq => Nat.lt_trans
    (Revision.lt_size_of_parentPositions (p.parentPositions_eq hr) q hq) p.sortedIds_lt

theorem isFlagged_parentRanks (hr : r ∈ h.revisions) :
    ∀ q ∈ h.parentRanks r, Record.isFlagged q = false := fun q hq =>
  decide_eq_false (Nat.not_le.mpr (Nat.lt_trans (p.parentRanks_lt hr q hq) Record.noParent_lt_flag))

theorem isFlagged_run (hr : r ∈ h.revisions) {k word : Nat} (hword : (h.run r)[k]? = some word) :
    Record.isFlagged word ↔ k + 1 = (h.run r).length := by
  rw [run] at hword ⊢
  split at hword
  · next hmany =>
    have htail : ∀ q ∈ (h.parentRanks r).tail, q < Record.flag := fun q hq =>
      Nat.lt_trans (p.parentRanks_lt hr q (List.mem_of_mem_tail hq)) Record.noParent_lt_flag
    rw [if_pos hmany, Placement.flagLast, List.length_mapIdx]
    exact Placement.isFlagged_flagLast htail hword
  · cases hword

theorem isFlagged_secondWord (hr : r ∈ h.revisions) (hfew : r.parents.length < 3)
    (i : Nat) :
    Record.isFlagged (h.secondWord i r) = false := by
  rw [secondWord, if_neg (Nat.not_le.mpr hfew)]
  cases hsecond : (h.parentRanks r)[1]? with
  | none => decide
  | some q => exact p.isFlagged_parentRanks hr q (List.mem_of_getElem? hsecond)

theorem slots_file (hr : (Revision.sort h.revisions)[i]? = some r) :
    Bytes.toNat ((h.file records edges).window
        ((h.layout records edges).commits.start + 36 * i + 20)
        ((h.layout records edges).commits.start + 36 * i + 24)) = h.firstWord r ∧
      Bytes.toNat ((h.file records edges).window
        ((h.layout records edges).commits.start + 36 * i + 24)
        ((h.layout records edges).commits.start + 36 * i + 28)) = h.secondWord i r := by
  obtain ⟨record, hrecord, hfirst, hsecond⟩ := p.exists_record hr
  obtain ⟨hlt, _⟩ := List.getElem?_eq_some_iff.mp hrecord
  have hi : i < (h.layout records edges).commitCount := Nat.lt_of_lt_of_eq hlt p.length_records
  have hdecoded := Tables.getElem?_records_ofLayout (h.file records edges) hi rfl
  rw [p.records_tables, List.getElem?_toArray, hrecord] at hdecoded
  rw [← hfirst, ← hsecond, Option.some.inj hdecoded]
  obtain ⟨hfirst', hsecond'⟩ := Record.slots_ofBytes_window (h.file records edges) _
  exact ⟨hfirst'.symm, hsecond'.symm⟩

section File

variable (hsize : (h.file records edges).length < Format.sizeLimit)
include hsize

theorem placed_commits : Format.placed (h.file records edges) .commits =
    [(.commits, (h.layout records edges).commits)] := by
  rw [p.placed_file hsize (p.ne_tag_of_mem_core (by simp [corePayloads])), Layout.places]
  split <;> rfl

variable (hfree : ∀ a ∈ h.attachments, a.tag ≠ .edges)
include hfree

theorem placed_edges : Format.placed (h.file records edges) .edges =
    if h.HasOctopus then [(.edges, (h.layout records edges).edges)] else [] := by
  have hcount : (h.layout records edges).edgeCount = 0 ↔ ¬ h.HasOctopus :=
    List.isEmpty_iff_length_eq_zero.symm.trans (isEmpty_edges_iff p.placed)
  rw [p.placed_file hsize hfree, Layout.places]
  by_cases hmany : h.HasOctopus
  · rw [if_neg (fun hzero => hcount.mp hzero hmany), if_pos hmany]
    rfl
  · rw [if_pos (hcount.mpr hmany), if_neg hmany]
    rfl

theorem laid : h.Laid (h.file records edges) := by
  have hedges := p.edges_eq_runs
  have hplaced := p.placed_edges hsize hfree
  constructor
  · intro hnone
    rw [hplaced, if_neg hnone]
  · intro hmany
    obtain ⟨_, _, _, hwindow⟩ := p.windows rfl rfl
    have hne : edges ≠ [] := fun hnil =>
      (isEmpty_edges_iff p.placed).mp (List.isEmpty_iff.mpr hnil) hmany
    rw [hplaced, if_pos hmany, ← hedges]
    exact ⟨_, rfl, hwindow hne⟩
  · rw [← hedges]
    exact (Revision.forall_of_placeAll p.placed p.sortedIds_lt).2
  · exact ⟨_, p.placed_commits hsize, fun i r hr => p.slots_file hr⟩
  · exact fun r hr k word hword => p.isFlagged_run hr hword
  · exact fun i r hr hfew => p.isFlagged_secondWord hr hfew i
  · intro r hr q hq
    exact ⟨Nat.ne_of_lt (p.parentRanks_lt hr q hq), p.isFlagged_parentRanks hr q hq⟩
  · intro r hr
    simpa using Revision.map_getElem?_of_parentPositions (p.parentPositions_eq hr)
  · exact p.exists_written

end File

end Prepared

/-- Whatever is written without extra edges of its own has one run for each revision of three or more
parents, in ascending order of the ids, and each second slot has the place of its run. -/
theorem laid_of_encode {file : Bytes} (hencode : h.encode = .ok file)
    (hfree : ∀ a ∈ h.attachments, a.tag ≠ .edges) (hsize : file.length < Format.sizeLimit) :
    h.Laid file := by
  obtain ⟨records, edges, p, rfl⟩ := encode_eq_ok_iff.mp hencode
  exact p.laid hsize hfree

def merges : History where
  revisions :=
    [⟨.ofNat 1, .zero, [], 1, 0⟩, ⟨.ofNat 2, .zero, [], 1, 0⟩, ⟨.ofNat 3, .zero, [], 1, 0⟩,
      ⟨.ofNat 4, .zero, [.ofNat 2, .ofNat 3, .ofNat 1, .ofNat 2], 2, 0⟩,
      ⟨.ofNat 5, .zero, [.ofNat 4, .ofNat 1], 3, 0⟩,
      ⟨.ofNat 6, .zero, [.ofNat 5, .ofNat 3, .ofNat 4], 4, 0⟩]
  attachments := []

theorem writable_merges : merges.Writable where
  nonempty := by decide
  distinct := by decide
  whole := by decide
  unclaimed := by decide
  chunks_le := by decide

theorem sort_merges : Revision.sort merges.revisions = merges.revisions :=
  Revision.sort_eq_of_perm (List.Perm.refl _) (by decide)

theorem runs_merges : merges.runs = [2, 0, Record.flag + 1, 2, Record.flag + 3] := by
  rw [runs, sort_merges]
  decide

theorem secondWord_merges :
    merges.secondWord 5 ⟨.ofNat 6, .zero, [.ofNat 5, .ofNat 3, .ofNat 4], 4, 0⟩ =
      Record.flag + 3 := by
  rw [secondWord, runsBefore, sort_merges]
  decide

/-- The second run begins behind the three words of the first. -/
theorem laid_merges : (∀ a ∈ merges.attachments, a.tag ≠ .edges) ∧
    ∃ file span commits, merges.encode = .ok file ∧ file.length < Format.sizeLimit ∧
      Format.placed file .edges = [(.edges, span)] ∧
      file.window span.start span.stop =
        [0, 0, 0, 2, 0, 0, 0, 0, 128, 0, 0, 1, 0, 0, 0, 2, 128, 0, 0, 3] ∧
      Format.placed file .commits = [(.commits, commits)] ∧
      Bytes.toNat (file.window (commits.start + 36 * 5 + 24) (commits.start + 36 * 5 + 28)) =
        Record.flag + 3 := by
  have hroom : Revision.edgeTotal merges.revisions < Record.flag := by decide
  have hfew : merges.revisions.length < Record.noParent := by decide
  have hfree : ∀ a ∈ merges.attachments, a.tag ≠ .edges := by decide
  obtain ⟨records, edges, p⟩ := (exists_prepared_iff_writable hfew hroom).mpr writable_merges
  have hencode := encode_eq_ok_iff.mpr ⟨records, edges, p, rfl⟩
  have hsize := p.length_file_lt rfl (p.length_edges ▸ hroom)
  have hlaid := laid_of_encode hencode hfree hsize
  obtain ⟨span, hplaced, hwindow⟩ := hlaid.present (by decide)
  rw [runs_merges] at hwindow
  obtain ⟨commits, hcommits, hslots⟩ := hlaid.slots
  have hlast : (Revision.sort merges.revisions)[5]? = some
      ⟨.ofNat 6, .zero, [.ofNat 5, .ofNat 3, .ofNat 4], 4, 0⟩ := by
    rw [sort_merges]
    rfl
  have hsecond := (hslots 5 _ hlast).2.trans secondWord_merges
  exact ⟨hfree, _, span, commits, hencode, hsize, hplaced, hwindow, hcommits, hsecond⟩

end History

end Ancestry
