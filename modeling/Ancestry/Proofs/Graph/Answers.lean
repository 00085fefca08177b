import Ancestry.Proofs.Graph.Lookup
import Ancestry.Proofs.Graph.Reads

/-!
# What the answers depend on

All questions to a graph, asked of its decoded tables and asked of the file itself. Both ways only
the bytes of the four chunks count: where the chunks stand, what stands between them and what else
the file says has no part in any answer, and in no error either.
-/

namespace Ancestry

open Outcome

structure Answers (Outcome : Type → Type) where
  commitCount : Nat
  edgeCount : Nat
  count : Fin 256 → Outcome Nat
  id : Nat → Outcome ObjectId
  commit : Nat → Outcome Commit
  lookup : ObjectId → Nat → Match
  contains : ObjectId → Bool
  find : ObjectId → Nat → Outcome Commit
  findHex : String → Outcome Commit
  parentPosition : Commit → Nat → Outcome Nat
  parent : Commit → Nat → Outcome Commit
  parents : Commit → List (Outcome Commit)
  commits : List (Outcome Commit)
  verify : Outcome Unit

namespace Tables

def answers (t : Tables) : Answers (Except GraphError) where
  commitCount := t.size
  edgeCount := t.edges.size
  count b := .ok (t.countThrough b)
  id := t.idAt
  commit := t.commitAt
  lookup := t.lookup
  contains := t.contains
  find := t.find
  findHex := t.findHex
  parentPosition := t.parentPosition
  parent := t.parentAt
  parents := t.parents
  commits := t.commits
  verify := t.verify

/-- How many buckets there are for ids that share so many digits. -/
def rowLength : Nat → Nat
  | 0 => 256
  | 1 => 16
  | _ => 1

variable (first : Fin 256) (digits : Nat)

theorem rowStart_lt : first.val / rowLength digits * rowLength digits < 256 :=
  Nat.lt_of_le_of_lt (Nat.div_mul_le_self _ _) first.isLt

theorem rowStop_lt :
    first.val / rowLength digits * rowLength digits + (rowLength digits - 1) < 256 := by
  match digits with
  | 0 | 1 | digits + 2 =>
    simp only [rowLength]
    omega

/-- The first and the last bucket for ids that share so many digits with one whose first byte is
`first`. -/
def bucketsFor : Fin 256 × Fin 256 :=
  (⟨_, rowStart_lt first digits⟩, ⟨_, rowStop_lt first digits⟩)

theorem bucketsFor_zero : bucketsFor first 0 = (0, 255) := by
  have hrow : first.val / 256 = 0 := Nat.div_eq_of_lt first.isLt
  apply Prod.ext <;> apply Fin.ext <;> simp [bucketsFor, rowLength, hrow]

theorem bucketsFor_add_two : bucketsFor first (digits + 2) = (first, first) := by
  apply Prod.ext <;> apply Fin.ext <;> simp [bucketsFor, rowLength]

theorem candidates_eq (t : Tables) :
    t.candidates first digits =
      (t.countBefore (bucketsFor first digits).1, t.countThrough (bucketsFor first digits).2) := by
  match digits with
  | 0 =>
    rw [bucketsFor_zero]
    rfl
  | 1 => rfl
  | digits + 2 =>
    rw [bucketsFor_add_two]
    rfl

end Tables

def Answers.lift (a : Answers (Except GraphError)) : Answers Checked where
  commitCount := a.commitCount
  edgeCount := a.edgeCount
  count b := Checked.lift (a.count b)
  id i := Checked.lift (a.id i)
  commit i := Checked.lift (a.commit i)
  lookup := a.lookup
  contains := a.contains
  find id digits := Checked.lift (a.find id digits)
  findHex text := Checked.lift (a.findHex text)
  parentPosition c n := Checked.lift (a.parentPosition c n)
  parent c n := Checked.lift (a.parent c n)
  parents c := (a.parents c).map Checked.lift
  commits := a.commits.map Checked.lift
  verify := Checked.lift a.verify

namespace Graph

section Definitions

variable (g : Graph)

def chunk (span : Span) : Bytes :=
  g.file.window span.start span.stop

def readTable : ObjectId.Table :=
  match g.file.sub g.layout.ids with
  | .ok bytes => .ofBytes bytes
  | .error _ => #[]

def readCandidates (first : Fin 256) (digits : Nat) : Checked (Nat × Nat) := do
  let lo ← g.readCountBefore (Tables.bucketsFor first digits).1
  let hi ← g.readCount (Tables.bucketsFor first digits).2
  .ok (lo, hi)

def readMatchesAt (key : ObjectId) (digits position : Nat) : Bool :=
  position < g.layout.commitCount && g.readTable[position]?.any (·.sharesDigits key digits)

def readLookup (target : ObjectId) (digits : Nat) : Match :=
  let digits := min digits ObjectId.digitCount
  let key := target.truncate digits
  let settle (position : Nat) : Match :=
    if digits < ObjectId.digitCount ∧ g.readMatchesAt key digits (position + 1) then .several
    else .only position
  match g.readCandidates key.firstByte digits with
  | .error _ => .none
  | .ok (lo, hi) =>
    match g.readTable.search lo hi key with
    | .hit position => settle position
    | .gap position => if g.readMatchesAt key digits position then settle position else .none

def readContains (id : ObjectId) : Bool :=
  match g.readLookup id ObjectId.digitCount with
  | .only _ => true
  | _ => false

def readFind (target : ObjectId) (digits : Nat) : Checked Commit :=
  match g.readLookup target digits with
  | .only position => g.readCommit position
  | .none => .error (.error (.noMatch (target.abbreviate digits)))
  | .several => .error (.error (.ambiguous (target.abbreviate digits)))

def readFindHex (text : String) : Checked Commit :=
  match Abbreviation.ofText text with
  | .error cause => .error (.error (.badId cause))
  | .ok a => g.readFind a.id a.length

def readParentAt (c : Commit) (n : Nat) : Checked Commit := do
  let position ← g.readParent c n
  g.readCommit position

/-- The answers that are read from the file at every question. -/
def readAnswers : Answers Checked where
  commitCount := g.layout.commitCount
  edgeCount := g.layout.edgeCount
  count := g.readCount
  id := g.readId
  commit := g.readCommit
  lookup := g.readLookup
  contains := g.readContains
  find := g.readFind
  findHex := g.readFindHex
  parentPosition := g.readParent
  parent := g.readParentAt
  parents c := (List.range c.parentCount).map (g.readParentAt c)
  commits := (List.range g.layout.commitCount).map g.readCommit
  verify := g.recheck

end Definitions

section Agreement

variable {file : Bytes} {layout : Layout}
variable (hfile : file.length < Format.sizeLimit) (h : Format.WellFormed file layout)
include h

theorem readTable_eq : (Format.graph file layout).readTable = (Tables.ofLayout file layout).ids := by
  have hstop := h.filled.ids_stop
  have hsub := (Bytes.sub_eq_ok_iff (by omega)).mpr ⟨h.ids_stop_le, rfl⟩
  have hlength : (file.window layout.ids.start layout.ids.stop).length / ObjectId.byteCount =
      layout.commitCount := by
    rw [Bytes.length_window h.ids_stop_le, hstop, Nat.add_sub_cancel_left]
    exact Nat.mul_div_cancel_left _ (by decide)
  unfold readTable
  change (match file.sub layout.ids with
    | .ok bytes => ObjectId.Table.ofBytes bytes
    | .error _ => #[]) = _
  rw [hsub]
  change ObjectId.Table.ofBytes _ = _
  rw [ObjectId.Table.ofBytes, hlength]
  rfl

theorem readMatchesAt_eq (key : ObjectId) (digits position : Nat) :
    (Format.graph file layout).readMatchesAt key digits position =
      (Tables.ofLayout file layout).matchesAt key digits position := by
  have hsize := Tables.size_ofLayout file layout
  rw [readMatchesAt, readTable_eq h, Tables.matchesAt]
  change (decide (position < layout.commitCount) && _) = _
  by_cases hposition : position < layout.commitCount
  · rw [decide_eq_true hposition, Bool.true_and]
  · have hnone : (Tables.ofLayout file layout).ids[position]? = none := by
      apply Array.getElem?_eq_none
      rw [← Tables.size, hsize]
      exact Nat.not_lt.mp hposition
    rw [hnone, Option.any_none, Bool.and_false]

include hfile

theorem readCandidates_eq (first : Fin 256) (digits : Nat) :
    (Format.graph file layout).readCandidates first digits =
      .ok ((Tables.ofLayout file layout).candidates first digits) := by
  rw [Tables.candidates_eq, readCandidates, readCountBefore_eq hfile h, readCount_eq hfile h]
  rfl

theorem readLookup_eq (target : ObjectId) (digits : Nat) :
    (Format.graph file layout).readLookup target digits =
      (Tables.ofLayout file layout).lookup target digits := by
  simp only [readLookup, readCandidates_eq hfile h, readTable_eq h, readMatchesAt_eq h]
  rfl

theorem readFind_eq (target : ObjectId) (digits : Nat) :
    (Format.graph file layout).readFind target digits =
      Checked.lift ((Tables.ofLayout file layout).find target digits) := by
  rw [readFind, Tables.find, readLookup_eq hfile h]
  cases (Tables.ofLayout file layout).lookup target digits with
  | only position => exact readCommit_eq hfile h position
  | none => rfl
  | several => rfl

theorem readFindHex_eq (text : String) : (Format.graph file layout).readFindHex text =
    Checked.lift ((Tables.ofLayout file layout).findHex text) := by
  rw [readFindHex, Tables.findHex]
  cases Abbreviation.ofText text with
  | error cause => rfl
  | ok a => exact readFind_eq hfile h a.id a.length

theorem readParentAt_eq (c : Commit) (n : Nat) : (Format.graph file layout).readParentAt c n =
    Checked.lift ((Tables.ofLayout file layout).parentAt c n) := by
  have hcommit : (Format.graph file layout).readCommit = fun position =>
      Checked.lift ((Tables.ofLayout file layout).commitAt position) :=
    funext fun position => readCommit_eq hfile h position
  rw [readParentAt, readParent_eq hfile h, hcommit, Tables.parentAt]
  exact (Checked.lift_bind _ _).symm

theorem readAnswers_eq : (Format.graph file layout).readAnswers =
    (Tables.ofLayout file layout).answers.lift := by
  have hcommit := readCommit_eq hfile h
  have hparent := readParentAt_eq hfile h
  simp only [readAnswers, Answers.lift, Tables.answers, Answers.mk.injEq]
  refine ⟨(Tables.size_ofLayout file layout).symm, (Tables.edges_size_ofLayout file layout).symm,
    funext (readCount_eq hfile h), funext (readId_eq hfile h), funext hcommit,
    funext fun id => funext (readLookup_eq hfile h id), ?_,
    funext fun id => funext (readFind_eq hfile h id), funext (readFindHex_eq hfile h),
    funext fun c => funext (readParent_eq hfile h c), funext fun c => funext (hparent c), ?_, ?_,
    recheck_eq hfile h⟩
  · funext id
    rw [readContains, readLookup_eq hfile h]
    rfl
  · funext c
    rw [Tables.parents, List.map_map]
    exact List.map_congr_left fun n _ => hparent c n
  · rw [Tables.commits, List.map_map, Tables.size_ofLayout]
    exact List.map_congr_left fun i _ => hcommit i

end Agreement

section SameChunks

variable {file other : Bytes} {layout layout' : Layout}

theorem length_window_edges (h : Format.WellFormed file layout) :
    (file.window layout.edges.start layout.edges.stop).length = 4 * layout.edgeCount := by
  rcases Nat.eq_zero_or_pos layout.edgeCount with hzero | hpos
  · obtain ⟨span, _, hedges⟩ := h.edges
    generalize layout.edges = edges at hedges
    generalize layout.edgeCount = count at hedges hzero
    cases hedges with
    | absent => rfl
    | empty start => rfl
    | listed start count pos lt => omega
  · obtain ⟨hstop, hle⟩ := h.edges_stop hpos
    rw [Bytes.length_window hle, hstop, Nat.add_sub_cancel_left]

variable (h : Format.WellFormed file layout) (h' : Format.WellFormed other layout')
variable (hfanout : file.window layout.fanout.start layout.fanout.stop =
  other.window layout'.fanout.start layout'.fanout.stop)

section Fanout

include hfanout

theorem fanout_congr : (Tables.ofLayout file layout).fanout = (Tables.ofLayout other layout').fanout := by
  simp only [Tables.ofLayout, hfanout]

include h h'

/-- The last count of the fan-out is the number of commits, so it need not be told otherwise. -/
theorem commitCount_congr : layout.commitCount = layout'.commitCount := by
  have hlast := (Tables.sound_ofLayout h).fanout_last
  have hlast' := (Tables.sound_ofLayout h').fanout_last
  rw [Tables.size_ofLayout, Tables.countThrough, fanout_congr hfanout] at hlast
  rw [Tables.size_ofLayout, Tables.countThrough] at hlast'
  exact hlast.symm.trans hlast'

end Fanout

include h h' hfanout in
theorem ofLayout_congr
    (hids : file.window layout.ids.start layout.ids.stop =
      other.window layout'.ids.start layout'.ids.stop)
    (hcommits : file.window layout.commits.start layout.commits.stop =
      other.window layout'.commits.start layout'.commits.stop)
    (hedges : file.window layout.edges.start layout.edges.stop =
      other.window layout'.edges.start layout'.edges.stop) :
    Tables.ofLayout file layout = Tables.ofLayout other layout' := by
  have hcount := commitCount_congr h h' hfanout
  have hedgeCount : layout.edgeCount = layout'.edgeCount := by
    have hlength := length_window_edges h
    rw [hedges, length_window_edges h'] at hlength
    omega
  apply Tables.eq_of_fields
  · rw [fanout_congr hfanout]
  · simp only [Tables.ofLayout, hids, hcount]
  · simp only [Tables.ofLayout, hcommits, hcount]
  · simp only [Tables.ofLayout, hedges, hedgeCount]

end SameChunks

variable {file other : Bytes} {g g' : Graph}

/-- Two files that agree on the bytes of the four chunks give the same answers to all questions,
refusals included, whether their tables are asked or the files themselves. -/
theorem answers_eq_of_same_chunks (hfile : file.length < Format.sizeLimit)
    (hother : other.length < Format.sizeLimit) (h : Graph.parse file = .ok g)
    (h' : Graph.parse other = .ok g')
    (hfanout : g.chunk g.layout.fanout = g'.chunk g'.layout.fanout)
    (hids : g.chunk g.layout.ids = g'.chunk g'.layout.ids)
    (hcommits : g.chunk g.layout.commits = g'.chunk g'.layout.commits)
    (hedges : g.chunk g.layout.edges = g'.chunk g'.layout.edges) :
    g.tables.answers = g'.tables.answers ∧ g.readAnswers = g'.readAnswers := by
  obtain ⟨hwell, hg⟩ := Format.wellFormed_of_parse hfile h
  obtain ⟨hwell', hg'⟩ := Format.wellFormed_of_parse hother h'
  rw [← hg, ← hg'] at hfanout hids hcommits hedges ⊢
  have htables := ofLayout_congr hwell hwell' hfanout hids hcommits hedges
  constructor
  · exact congrArg Tables.answers htables
  · rw [readAnswers_eq hfile hwell, readAnswers_eq hother hwell', htables]

end Graph

namespace History

def plain : History := { sample with attachments := [] }

theorem prepared_plain : plain.Prepared sampleRecords sampleEdges where
  nonempty := prepared_sample.nonempty
  length_lt := prepared_sample.length_lt
  ids_rise := prepared_sample.ids_rise
  placed := prepared_sample.placed
  unclaimed := rfl
  payloads_lt := by decide

def plainFile : Bytes := plain.file sampleRecords sampleEdges

def plainGraph : Graph := Format.graph plainFile (plain.layout sampleRecords sampleEdges)

theorem length_plainFile : plainFile.length < Format.sizeLimit := by
  rw [plainFile, prepared_plain.length_file, length_sortedIds]
  decide

theorem parse_plainFile : Graph.parse plainFile = .ok plainGraph := by
  have storable : plain.Storable := ⟨storable_sample.edges_lt, by simp [plain], by simp [plain]⟩
  exact prepared_plain.parse_file storable length_plainFile

end History

open History in
/-- The sample with and without Bloom chunks: the other chunks stand elsewhere in the file. -/
theorem Graph.answers_plainGraph : sampleFile.length < Format.sizeLimit ∧
    plainFile.length < Format.sizeLimit ∧ Graph.parse sampleFile = .ok sampleGraph ∧
    Graph.parse plainFile = .ok plainGraph ∧ sampleGraph.layout ≠ plainGraph.layout ∧
    sampleGraph.tables.answers = plainGraph.tables.answers ∧
    sampleGraph.readAnswers = plainGraph.readAnswers := by
  have hlayout : sample.layout sampleRecords sampleEdges = sampleGraph.layout := rfl
  have hlayout' : plain.layout sampleRecords sampleEdges = plainGraph.layout := rfl
  obtain ⟨hfanout, hids, hcommits, hedges⟩ := prepared_sample.windows rfl hlayout
  obtain ⟨hfanout', hids', hcommits', hedges'⟩ := prepared_plain.windows rfl hlayout'
  have hanswers := answers_eq_of_same_chunks length_sampleFile length_plainFile parse_sampleFile
    parse_plainFile (hfanout.trans hfanout'.symm) (hids.trans hids'.symm)
    (hcommits.trans hcommits'.symm)
    ((hedges (List.cons_ne_nil _ _)).trans (hedges' (List.cons_ne_nil _ _)).symm)
  refine ⟨length_sampleFile, length_plainFile, parse_sampleFile, parse_plainFile, ?_, hanswers⟩
  intro heq
  have hstart := congrArg (fun layout => layout.fanout.start) heq
  exact absurd hstart (by decide)

end Ancestry
