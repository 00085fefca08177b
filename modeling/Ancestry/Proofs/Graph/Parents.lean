import Ancestry.Proofs.Graph.Verify

/-!
# The parents that a file spells out

What a file says of the parents of a commit stands in two words of its record and, if these do not
suffice, in a run of words among the extra edges. Counting the parents and asking for one of them
are two computations over these words. Together they yield the parents that are spelled out, in the
order in which they stand there.

A record whose first slot is empty while the second is in use spells out nothing.
-/

namespace Ancestry

open Outcome

namespace Graph

section Definitions

variable (g : Graph)

def wordAt (span : Span) (offset : Nat) : Nat :=
  Bytes.toNat (g.file.window (span.start + offset) (span.start + offset + 4))

def firstSlot (i : Nat) : Nat := g.wordAt g.layout.commits (36 * i + 20)

def secondSlot (i : Nat) : Nat := g.wordAt g.layout.commits (36 * i + 24)

def storedEdge (j : Nat) : Nat := g.wordAt g.layout.edges (4 * j)

/-- Of the extra edges from `start` on, the one at `last` is the first with its high bit set. -/
structure EndsRun (start last : Nat) : Prop where
  start_le : start ≤ last
  lt_edgeCount : last < g.layout.edgeCount
  flagged : Record.flag ≤ g.storedEdge last
  unflagged : ∀ j, start ≤ j → j < last → g.storedEdge j < Record.flag

/-- The positions of the parents of the commit at `i`, as the file has them. -/
inductive Spells (i : Nat) : List Nat → Prop
  | none (first : g.firstSlot i = Record.noParent) (second : g.secondSlot i = Record.noParent) :
      Spells i []
  | one (first : g.firstSlot i ≠ Record.noParent) (second : g.secondSlot i = Record.noParent) :
      Spells i [g.firstSlot i]
  | two (first : g.firstSlot i ≠ Record.noParent) (second : g.secondSlot i ≠ Record.noParent)
      (inline : g.secondSlot i < Record.flag) : Spells i [g.firstSlot i, g.secondSlot i]
  | more {last : Nat} (first : g.firstSlot i ≠ Record.noParent)
      (pointer : Record.flag ≤ g.secondSlot i)
      (ends : g.EndsRun (g.secondSlot i % Record.flag) last) :
      Spells i (g.firstSlot i ::
        (List.range' (g.secondSlot i % Record.flag) (last + 1 - g.secondSlot i % Record.flag)).map
          fun j => g.storedEdge j % Record.flag)

end Definitions

theorem EndsRun.unique {g : Graph} {start last last' : Nat} (h : g.EndsRun start last)
    (h' : g.EndsRun start last') : last = last' := by
  rcases Nat.lt_trichotomy last last' with hlt | heq | hlt
  · exact absurd h.flagged (Nat.not_le.mpr (h'.unflagged last h.start_le hlt))
  · exact heq
  · exact absurd h'.flagged (Nat.not_le.mpr (h.unflagged last' h'.start_le hlt))

section Stored

variable {file : Bytes} {g : Graph} {i j start length n : Nat} {r : Record} {c : Commit}
variable (hfile : file.length < Format.sizeLimit) (h : Graph.parse file = .ok g)
include hfile h

theorem edges_size_of_parse : g.tables.edges.size = g.layout.edgeCount := by
  obtain ⟨_, hg⟩ := Format.wellFormed_of_parse hfile h
  rw [← hg]
  exact Tables.edges_size_ofLayout file g.layout

theorem getElem?_edges (hj : j < g.layout.edgeCount) :
    g.tables.edges[j]? = some (g.storedEdge j) := by
  obtain ⟨hwell, hg⟩ := Format.wellFormed_of_parse hfile h
  obtain ⟨hstop, _⟩ := hwell.edges_stop (Nat.zero_lt_of_lt hj)
  have hedge := Tables.getElem?_edges_ofLayout file hj hstop
  rw [← hg]
  exact hedge

theorem slots_eq (hr : g.tables.records[i]? = some r) :
    r.first = g.firstSlot i ∧ r.second = g.secondSlot i := by
  obtain ⟨hwell, hg⟩ := Format.wellFormed_of_parse hfile h
  have hstop := hwell.filled.commits_stop
  have hi : i < g.layout.commitCount := by
    obtain ⟨hlt, _⟩ := Array.getElem?_eq_some_iff.mp hr
    rw [g.tables.size_records, ← hg] at hlt
    exact Nat.lt_of_lt_of_eq hlt (Tables.size_ofLayout file g.layout)
  have hrecord := Tables.getElem?_records_ofLayout file hi hstop
  have htables : Tables.ofLayout file g.layout = g.tables := congrArg Graph.tables hg
  rw [htables, hr] at hrecord
  rw [Option.some.inj hrecord, firstSlot, secondSlot, wordAt, wordAt, ← Nat.add_assoc,
    ← Nat.add_assoc, ← hg]
  exact Record.slots_ofBytes_window file _

theorem getElem_drop_edges {k : Nat} (hk : k < (g.tables.edges.toList.drop start).length) :
    start + k < g.layout.edgeCount ∧
      (g.tables.edges.toList.drop start)[k] = g.storedEdge (start + k) := by
  rw [List.length_drop, Array.length_toList, edges_size_of_parse hfile h] at hk
  have hlt : start + k < g.layout.edgeCount := by omega
  obtain ⟨_, hedge⟩ := Array.getElem?_eq_some_iff.mp (getElem?_edges hfile h hlt)
  refine ⟨hlt, ?_⟩
  rw [List.getElem_drop, Array.getElem_toList]
  exact hedge

theorem exists_endsRun (hrun : g.tables.runLength start = .ok length) :
    ∃ last, g.EndsRun start last ∧ length = last + 1 - start := by
  unfold Tables.runLength at hrun
  split at hrun
  · cases hrun
  · split at hrun
    · next k hk =>
      obtain ⟨hlt, hflag, hbefore⟩ := List.findIdx?_eq_some_iff_getElem.mp hk
      obtain ⟨hcount, hedge⟩ := getElem_drop_edges hfile h hlt
      rw [hedge] at hflag
      refine ⟨start + k, ⟨Nat.le_add_right _ _, hcount, of_decide_eq_true hflag, ?_⟩, ?_⟩
      · intro j hle hj
        have hless : j - start < k := by omega
        have hnot := hbefore (j - start) hless
        rw [(getElem_drop_edges hfile h (Nat.lt_trans hless hlt)).2, Nat.add_sub_cancel' hle] at hnot
        exact Nat.not_le.mp fun hflag => hnot (decide_eq_true hflag)
      · have := Except.ok.inj hrun
        omega
    · cases hrun

section Decoded

variable (hc : g.tables.commitAt i = .ok c)
include hc

theorem slots_of_commitAt : c.first = g.firstSlot i ∧ c.second = g.secondSlot i := by
  obtain ⟨id, r, count, _, hr, _, rfl⟩ := Tables.commitAt_eq_ok_iff.mp hc
  exact slots_eq hfile h hr

theorem parentCount_of_inline (hinline : g.secondSlot i < Record.flag) :
    c.edgeStart = none ∧ c.parentCount =
      (if g.firstSlot i = Record.noParent then 0 else 1) +
        if g.secondSlot i = Record.noParent then 0 else 1 := by
  obtain ⟨id, r, count, _, hr, hcount, rfl⟩ := Tables.commitAt_eq_ok_iff.mp hc
  obtain ⟨hfirst, hsecond⟩ := slots_eq hfile h hr
  have hstart : r.edgeStart? = none := by
    rw [Record.edgeStart?, hsecond, Record.isFlagged, decide_eq_false (Nat.not_le.mpr hinline)]
    rfl
  rw [Tables.parentCount, hstart] at hcount
  refine ⟨hstart, ?_⟩
  rw [← hfirst, ← hsecond]
  exact (Except.ok.inj hcount).symm

theorem parentCount_of_second_empty (hsecond : g.secondSlot i = Record.noParent) :
    c.parentCount = if g.firstSlot i = Record.noParent then 0 else 1 := by
  obtain ⟨_, hcount⟩ := parentCount_of_inline hfile h hc (hsecond ▸ Record.noParent_lt_flag)
  rwa [if_pos hsecond, Nat.add_zero] at hcount

theorem parentCount_of_pointer (hpointer : Record.flag ≤ g.secondSlot i) :
    c.edgeStart = some (g.secondSlot i % Record.flag) ∧
      ∃ last, g.EndsRun (g.secondSlot i % Record.flag) last ∧
        c.parentCount = (if g.firstSlot i = Record.noParent then 0 else 1) +
          (last + 1 - g.secondSlot i % Record.flag) := by
  obtain ⟨id, r, count, _, hr, hcount, rfl⟩ := Tables.commitAt_eq_ok_iff.mp hc
  obtain ⟨hfirst, hsecond⟩ := slots_eq hfile h hr
  have hstart : r.edgeStart? = some (g.secondSlot i % Record.flag) := by
    rw [Record.edgeStart?, hsecond, Record.isFlagged, decide_eq_true hpointer]
    rfl
  have hused : g.secondSlot i ≠ Record.noParent :=
    Nat.ne_of_gt (Nat.lt_of_lt_of_le Record.noParent_lt_flag hpointer)
  rw [Tables.parentCount, hstart] at hcount
  obtain ⟨length, hrun, hsum⟩ := map_eq_ok.mp hcount
  obtain ⟨last, hends, rfl⟩ := exists_endsRun hfile h hrun
  refine ⟨hstart, last, hends, ?_⟩
  change count = _
  rw [← hsum, Record.slotCount, hfirst, hsecond, if_neg hused, Nat.add_sub_cancel]

theorem parentPosition_of_pointer {k : Nat} (hpointer : Record.flag ≤ g.secondSlot i)
    (hk : k + 1 < c.parentCount) (hlt : g.secondSlot i % Record.flag + k < g.layout.edgeCount) :
    g.tables.parentPosition c (k + 1) =
      .ok (g.storedEdge (g.secondSlot i % Record.flag + k) % Record.flag) := by
  obtain ⟨hstart, _⟩ := parentCount_of_pointer hfile h hc hpointer
  obtain ⟨hsize, hedge⟩ := Array.getElem?_eq_some_iff.mp (getElem?_edges hfile h hlt)
  rw [Tables.parentPosition_succ (sound_of_parse hfile h) hk hstart hsize, hedge]
  rfl

theorem parentPositions_of_spells {ps : List Nat} (hps : g.Spells i ps) :
    (List.range c.parentCount).map (g.tables.parentPosition c) = ps.map .ok := by
  obtain ⟨hfirst, hsecond⟩ := slots_of_commitAt hfile h hc
  cases hps with
  | none first second =>
    rw [parentCount_of_second_empty hfile h hc second, if_pos first]
    rfl
  | one first second =>
    have hcount := parentCount_of_second_empty hfile h hc second
    rw [if_neg first] at hcount
    have hzero := Tables.parentPosition_zero (t := g.tables) (c := c) (by omega)
    rw [hcount, ← hfirst]
    exact congrArg (fun p => [p]) hzero
  | two first second inline =>
    obtain ⟨hstart, hcount⟩ := parentCount_of_inline hfile h hc inline
    rw [if_neg first, if_neg second] at hcount
    have hzero := Tables.parentPosition_zero (t := g.tables) (c := c) (by omega)
    have hone := Tables.parentPosition_one (t := g.tables) (c := c) (by omega) hstart
    rw [hcount, ← hfirst, ← hsecond]
    change [g.tables.parentPosition c 0, g.tables.parentPosition c 1] = _
    rw [hzero, hone]
    rfl
  | @more last first pointer ends =>
    obtain ⟨_, last', hends, hcount⟩ := parentCount_of_pointer hfile h hc pointer
    obtain rfl := ends.unique hends
    rw [if_neg first, Nat.add_comm] at hcount
    have hzero := Tables.parentPosition_zero (t := g.tables) (c := c) (by omega)
    have hlt := ends.lt_edgeCount
    rw [hcount, List.range_succ_eq_map, List.map_cons, List.map_cons, hzero, hfirst, List.map_map,
      List.range'_eq_map_range, List.map_map, List.map_map]
    apply congrArg (Except.ok (g.firstSlot i) :: ·)
    apply List.map_congr_left
    intro k hk
    have hk' := List.mem_range.mp hk
    exact parentPosition_of_pointer hfile h hc pointer (by omega) (by omega)

theorem exists_spells (hslots : g.firstSlot i ≠ Record.noParent ∨
    g.secondSlot i = Record.noParent) : ∃ ps, g.Spells i ps := by
  by_cases hsecond : g.secondSlot i = Record.noParent
  · by_cases hfirst : g.firstSlot i = Record.noParent
    · exact ⟨_, .none hfirst hsecond⟩
    · exact ⟨_, .one hfirst hsecond⟩
  · have hfirst := hslots.resolve_right hsecond
    rcases Nat.lt_or_ge (g.secondSlot i) Record.flag with hinline | hpointer
    · exact ⟨_, .two hfirst hsecond hinline⟩
    · obtain ⟨_, last, hends, _⟩ := parentCount_of_pointer hfile h hc hpointer
      exact ⟨_, .more hfirst hpointer hends⟩

end Decoded

/-- The parents of a decoded commit are those that the file spells out, one for each ordinal below
their count and none from there on. -/
theorem parentPositions_eq_spelled (hc : g.tables.commitAt i = .ok c)
    (hslots : g.firstSlot i ≠ Record.noParent ∨ g.secondSlot i = Record.noParent) :
    (c.first = g.firstSlot i ∧ c.second = g.secondSlot i) ∧
      (∃ ps, (List.range c.parentCount).map (g.tables.parentPosition c) = ps.map .ok ∧
        ∀ qs, g.Spells i qs ↔ qs = ps) ∧
      ∀ n, c.parentCount ≤ n →
        g.tables.parentPosition c n = .error (.noParent n c.parentCount) := by
  obtain ⟨ps, hps⟩ := exists_spells hfile h hc hslots
  have hpositions := parentPositions_of_spells hfile h hc hps
  refine ⟨slots_of_commitAt hfile h hc, ⟨ps, hpositions, fun qs => ⟨fun hqs => ?_, ?_⟩⟩, ?_⟩
  · have hsame := (parentPositions_of_spells hfile h hc hqs).symm.trans hpositions
    exact (List.map_inj_right fun _ _ heq => Except.ok.inj heq).mp hsame
  · rintro rfl
    exact hps
  · exact fun n hn => Tables.parentPosition_of_le hn

end Stored

theorem commitAt_sampleGraph : History.sampleGraph.tables.commitAt 2 =
    .ok (.ofRecord 2 (.ofNat 0x0700000000000000000000000000000000000009)
      ⟨.ofNat 1, 0, Record.flag, 3, 30⟩ 3) := by
  rw [History.tables_sampleGraph]
  rfl

/-- The merge of the sample has its first parent in a slot and the others among the extra edges. -/
theorem spells_sampleGraph : History.sampleFile.length < Format.sizeLimit ∧
    Graph.parse History.sampleFile = .ok History.sampleGraph ∧
    ∃ c, History.sampleGraph.tables.commitAt 2 = .ok c ∧ c.parentCount = 3 ∧
      History.sampleGraph.firstSlot 2 ≠ Record.noParent ∧
      History.sampleGraph.Spells 2 [0, 1, 0] := by
  have hfile := History.length_sampleFile
  have hparse := History.parse_sampleFile
  have hslot : History.sampleGraph.firstSlot 2 ≠ Record.noParent := by
    rw [← (slots_of_commitAt hfile hparse commitAt_sampleGraph).1]
    decide
  obtain ⟨_, ⟨ps, hpositions, hspells⟩, _⟩ :=
    parentPositions_eq_spelled hfile hparse commitAt_sampleGraph (.inl hslot)
  have hps : [0, 1, 0] = ps := by
    rw [History.tables_sampleGraph] at hpositions
    exact (List.map_inj_right fun _ _ heq => Except.ok.inj heq).mp hpositions
  exact ⟨hfile, hparse, _, commitAt_sampleGraph, rfl, hslot, (hspells _).mpr hps⟩

end Graph

end Ancestry
