import Ancestry.Proofs.Graph.Verify

/-!
# Reading in the file itself

The tables of a graph are decoded in one go. Here the same questions are answered from the bytes of
the file, by reads that check their bounds and by arithmetic that has to fit its words. In a file
that was read both give the same answers: no read leaves its chunk, no number leaves its word, and
what is refused is refused by the tables too.
-/

namespace Ancestry

open Outcome

/-- How a checked computation fails: with an error, or by a number that leaves its word. -/
inductive ReadFault
  | error (e : GraphError)
  | overflow

abbrev Checked (α : Type) := Except ReadFault α

namespace Checked

variable {α β : Type}

/-- A computation without arithmetic of its own. -/
def lift : Except GraphError α → Checked α
  | .ok a => .ok a
  | .error e => .error (.error e)

def fit (size n : Nat) : Checked Nat :=
  if n < size then .ok n else .error .overflow

def minus (a b : Nat) : Checked Nat :=
  if b ≤ a then .ok (a - b) else .error .overflow

theorem fit_of_lt {size n : Nat} (h : n < size) : fit size n = .ok n := if_pos h

theorem minus_of_le {a b : Nat} (h : b ≤ a) : minus a b = .ok (a - b) := if_pos h

theorem lift_bind (x : Except GraphError α) (f : α → Except GraphError β) :
    lift (x >>= f) = lift x >>= fun a => lift (f a) := by
  cases x <;> rfl

theorem lift_map (x : Except GraphError α) (f : α → β) :
    lift (x.map f) = (lift x).map f := by
  cases x <;> rfl

theorem lift_forM (f : α → Except GraphError Unit) (as : List α) :
    lift (as.forM f) = as.forM fun a => lift (f a) := by
  induction as with
  | nil => rfl
  | cons a as ih =>
    have hstep : (a :: as).forM f = f a >>= fun _ => as.forM f := rfl
    rw [hstep, lift_bind, ih]
    rfl

end Checked

namespace Graph

open Checked

section Definitions

/-- What `read` finds at `offset` in a chunk. The offset is a word of 64 bits. -/
def readField {α : Type} (read : Bytes → Nat → Except GraphError α) (file : Bytes) (span : Span)
    (offset : Nat) : Checked α := do
  let offset ← fit UInt64.size offset
  let chunk ← lift (file.sub span)
  lift (read chunk offset)

def readWord : Bytes → Span → Nat → Checked Nat :=
  readField fun chunk => chunk.number Layout.wordSize

def readObjectId : Bytes → Span → Nat → Checked ObjectId :=
  readField Bytes.objectId

variable (g : Graph)

def readCount (bucket : Fin 256) : Checked Nat :=
  readWord g.file g.layout.fanout (bucket.val * Layout.wordSize)

def readCountBefore : Fin 256 → Checked Nat
  | ⟨0, _⟩ => .ok 0
  | ⟨bucket + 1, hbucket⟩ => g.readCount ⟨bucket, Nat.lt_of_succ_lt hbucket⟩

def readId (position : Nat) : Checked ObjectId :=
  if g.layout.commitCount ≤ position then
    .error (.error (.noCommit position g.layout.commitCount))
  else readObjectId g.file g.layout.ids (position * ObjectId.byteCount)

def readEdge (position : Nat) : Checked Nat :=
  if g.layout.edgeCount ≤ position then .error (.error (.noEdge position g.layout.edgeCount))
  else readWord g.file g.layout.edges (position * Layout.wordSize)

def readRecord (position : Nat) : Checked Record := do
  let base ← fit UInt64.size (position * Record.byteCount)
  let tree ← readObjectId g.file g.layout.commits base
  let first ← readWord g.file g.layout.commits (base + 20)
  let second ← readWord g.file g.layout.commits (base + 24)
  let high ← readWord g.file g.layout.commits (base + 28)
  let low ← readWord g.file g.layout.commits (base + 32)
  let (generation, time) := Record.unpackTimes high low
  .ok ⟨tree, first, second, generation, time⟩

/-- Goes from `position` on to the first flagged edge, and counts the edges from `start` to there.
Positions are words of 32 bits. -/
def walkRun (start position : Nat) : Checked Nat :=
  if position < g.layout.edgeCount then do
    let edge ← g.readEdge position
    if Record.isFlagged edge then
      let steps ← minus position start
      fit UInt64.size (steps + 1)
    else
      let _ ← fit UInt32.size (position + 1)
      walkRun start (position + 1)
  else .error (.error (.openEdgeRun start))
termination_by g.layout.edgeCount - position

def readRun (start : Nat) : Checked Nat := do
  let _ ← g.readEdge start
  g.walkRun start start

def readParentCount (r : Record) : Checked Nat :=
  match r.edgeStart? with
  | none => .ok r.slotCount
  | some start => do
    let slots ← minus r.slotCount 1
    let others ← g.readRun start
    fit UInt64.size (slots + others)

def readCommit (position : Nat) : Checked Commit :=
  if g.layout.commitCount ≤ position then
    .error (.error (.noCommit position g.layout.commitCount))
  else do
    let r ← g.readRecord position
    let parentCount ← g.readParentCount r
    let id ← g.readId position
    .ok (.ofRecord position id r parentCount)

def readParent (c : Commit) (n : Nat) : Checked Nat :=
  if c.parentCount ≤ n then .error (.error (.noParent n c.parentCount))
  else
    match n, c.edgeStart with
    | 0, _ => .ok c.first
    | 1, none => .ok c.second
    | _ + 2, none => .error (.error (.noParent n c.parentCount))
    | k + 1, some start =>
      if UInt32.size ≤ k then .error (.error (.noParent n c.parentCount))
      else if UInt32.size ≤ start + k then
        .error (.error (.noEdge (UInt32.size - 1) g.layout.edgeCount))
      else (g.readEdge (start + k)).map Record.unflag

def recheckParent (c : Commit) (n : Nat) : Checked Unit := do
  let position ← g.readParent c n
  if g.layout.commitCount ≤ position then .error (.error (.badParent c.position position))
  else
    let parent ← g.readCommit position
    if Tables.InGenerationOrder c.generation parent.generation then .ok ()
    else .error (.error
      (.generationOrder c.position c.generation position parent.generation))

def recheckCommit (position : Nat) : Checked Unit := do
  let c ← g.readCommit position
  let bucket := c.id.firstByte
  let before ← g.readCountBefore bucket
  let through ← g.readCount bucket
  if before ≤ position ∧ position < through then
    (List.range c.parentCount).forM (g.recheckParent c)
  else .error (.error (.outsideBucket position bucket.val))

def recheck : Checked Unit :=
  (List.range g.layout.commitCount).forM g.recheckCommit

end Definitions

section Reads

variable {file : Bytes} {layout : Layout} {span : Span}

theorem readField_eq {α : Type} {offset : Nat} {read : Bytes → Nat → Except GraphError α} {decode : Bytes → α}
    {length : Nat} (hread : ∀ chunk, read chunk offset = (chunk.slice offset length).map decode)
    (hfile : file.length < Format.sizeLimit) (hstop : span.stop ≤ file.length)
    (h : span.start + offset + length ≤ span.stop) : readField read file span offset =
      .ok (decode (file.window (span.start + offset) (span.start + offset + length))) := by
  have hoffset : offset < UInt64.size := by
    rw [Format.sizeLimit] at hfile
    rw [UInt64.size]
    omega
  have hchunk := (Bytes.sub_eq_ok_iff (by omega)).mpr ⟨hstop, rfl⟩
  rw [readField, fit_of_lt hoffset, hchunk]
  change lift (read (file.window span.start span.stop) offset) = _
  rw [hread, Bytes.slice_window hstop h]
  rfl

theorem readWord_eq (offset : Nat) (hfile : file.length < Format.sizeLimit) (hstop : span.stop ≤ file.length)
    (h : span.start + offset + 4 ≤ span.stop) : readWord file span offset =
      .ok (Bytes.toNat (file.window (span.start + offset) (span.start + offset + 4))) :=
  readField_eq (fun _ => rfl) hfile hstop h

theorem readObjectId_eq (offset : Nat) (hfile : file.length < Format.sizeLimit) (hstop : span.stop ≤ file.length)
    (h : span.start + offset + 20 ≤ span.stop) : readObjectId file span offset =
      .ok (ObjectId.ofBytes (file.window (span.start + offset) (span.start + offset + 20))) :=
  readField_eq (fun _ => rfl) hfile hstop h

end Reads

section Agreement

variable {file : Bytes} {layout : Layout} {position start n : Nat} {r : Record} {c : Commit}
variable (hfile : file.length < Format.sizeLimit) (h : Format.WellFormed file layout)
include hfile h

theorem readCount_eq (bucket : Fin 256) : (Format.graph file layout).readCount bucket =
    .ok ((Tables.ofLayout file layout).countThrough bucket) := by
  have hstop := h.filled.fanout_stop
  have hle := h.stop_le (h.fanout ▸ List.mem_singleton_self _)
  have hword := readWord_eq (4 * bucket.val) hfile hle (by omega)
  rw [← Tables.countThrough_ofLayout hstop, Nat.mul_comm] at hword
  exact hword

theorem readCountBefore_eq (bucket : Fin 256) : (Format.graph file layout).readCountBefore bucket =
    .ok ((Tables.ofLayout file layout).countBefore bucket) := by
  match bucket with
  | ⟨0, _⟩ => rfl
  | ⟨bucket + 1, hbucket⟩ =>
    rw [Tables.countBefore, if_neg (Nat.succ_ne_zero bucket)]
    exact readCount_eq hfile h _

theorem readId_eq (position : Nat) : (Format.graph file layout).readId position =
    lift ((Tables.ofLayout file layout).idAt position) := by
  have hsize := Tables.size_ofLayout file layout
  unfold readId
  change (if layout.commitCount ≤ position then _ else _) = _
  by_cases hposition : layout.commitCount ≤ position
  · rw [if_pos hposition, Tables.idAt_of_size_le (hsize ▸ hposition), hsize]
    rfl
  · have hstop := h.filled.ids_stop
    have hid := Tables.getElem?_ids_ofLayout file (Nat.not_le.mp hposition) hstop
    have hread := readObjectId_eq (20 * position) hfile h.ids_stop_le (by omega)
    rw [Nat.mul_comm 20] at hread hid
    rw [if_neg hposition, Tables.idAt_of_getElem? hid]
    exact hread

theorem readEdge_eq (position : Nat) : (Format.graph file layout).readEdge position =
    lift ((Tables.ofLayout file layout).edgeAt position) := by
  have hsize := Tables.edges_size_ofLayout file layout
  unfold readEdge
  change (if layout.edgeCount ≤ position then _ else _) = _
  by_cases hposition : layout.edgeCount ≤ position
  · rw [if_pos hposition, Tables.edgeAt_of_size_le (hsize ▸ hposition), hsize]
    rfl
  · obtain ⟨hstop, hle⟩ := h.edges_stop (by omega)
    have hedge := Tables.getElem?_edges_ofLayout file (Nat.not_le.mp hposition) hstop
    have hread := readWord_eq (4 * position) hfile hle (by omega)
    rw [Nat.mul_comm 4] at hread hedge
    rw [if_neg hposition, Tables.edgeAt_of_getElem? hedge]
    exact hread

section Record

variable (hposition : position < layout.commitCount)
include hposition

theorem readWord_commits {k : Nat} (hk : k + 4 ≤ 36) :
    readWord file layout.commits (position * 36 + k) = .ok (Bytes.toNat
      (Bytes.window (file.window (layout.commits.start + position * 36)
        (layout.commits.start + position * 36 + 36)) k (k + 4))) := by
  have hstop := h.filled.commits_stop
  have hle := h.stop_le (h.commits ▸ List.mem_singleton_self _)
  rw [readWord_eq _ hfile hle (by omega), Bytes.window_window (by omega)]
  simp only [Nat.add_assoc]

theorem readObjectId_commits : readObjectId file layout.commits (position * 36) = .ok
    (ObjectId.ofBytes (Bytes.window (file.window (layout.commits.start + position * 36)
      (layout.commits.start + position * 36 + 36)) 0 20)) := by
  have hstop := h.filled.commits_stop
  have hle := h.stop_le (h.commits ▸ List.mem_singleton_self _)
  rw [readObjectId_eq _ hfile hle (by omega), Bytes.window_window (by omega)]
  rfl

theorem readRecord_eq (hr : (Tables.ofLayout file layout).records[position]? = some r) :
    (Format.graph file layout).readRecord position = .ok r := by
  have hstop := h.filled.commits_stop
  have hle := h.stop_le (h.commits ▸ List.mem_singleton_self _)
  have hrecord := Tables.getElem?_records_ofLayout file hposition hstop
  rw [Nat.mul_comm 36] at hrecord
  obtain rfl := Option.some.inj (hr.symm.trans hrecord)
  have hbase : position * 36 < UInt64.size := by
    rw [Format.sizeLimit] at hfile
    rw [UInt64.size]
    omega
  have hword {k : Nat} (hk : k + 4 ≤ 36) := readWord_commits hfile h hposition hk
  rw [readRecord]
  refine bind_eq_ok.mpr ⟨_, fit_of_lt hbase, ?_⟩
  refine bind_eq_ok.mpr ⟨_, readObjectId_commits hfile h hposition, ?_⟩
  refine bind_eq_ok.mpr ⟨_, hword (by decide), bind_eq_ok.mpr ⟨_, hword (by decide), ?_⟩⟩
  exact bind_eq_ok.mpr ⟨_, hword (by decide), bind_eq_ok.mpr ⟨_, hword (by decide), rfl⟩⟩

end Record

/-- The walk ends at the first flagged edge from where it stands, and every position it comes to is
a word of 32 bits. -/
theorem walkRun_eq (hstart : start ≤ position) :
    (Format.graph file layout).walkRun start position =
      match ((Tables.ofLayout file layout).edges.toList.drop position).findIdx? Record.isFlagged with
      | some k => .ok (position - start + k + 1)
      | none => .error (.error (.openEdgeRun start)) := by
  have sound := Tables.sound_ofLayout h
  have hsize := sound.edges_size_lt
  have hcount := Tables.edges_size_ofLayout file layout
  -- The walk moves one edge at a time towards the end of the list.
  induction hsteps : layout.edgeCount - position generalizing position with
  | zero =>
    have hend : (Tables.ofLayout file layout).edges.toList.drop position = [] := by
      rw [List.drop_eq_nil_iff, Array.length_toList]
      omega
    rw [walkRun, hend]
    exact if_neg (Nat.not_lt.mpr (Nat.le_of_sub_eq_zero hsteps))
  | succ k ih =>
    have hposition : position < (Tables.ofLayout file layout).edges.size := by omega
    have hread := readEdge_eq hfile h position
    rw [Tables.edgeAt_of_getElem? (Array.getElem?_eq_getElem hposition)] at hread
    have hdrop : (Tables.ofLayout file layout).edges.toList.drop position =
        (Tables.ofLayout file layout).edges[position] ::
          (Tables.ofLayout file layout).edges.toList.drop (position + 1) :=
      List.drop_eq_getElem_cons (by rwa [Array.length_toList])
    have hwalk := @ih (position + 1) (by omega) (by omega)
    rw [hdrop, List.findIdx?_cons, walkRun, hread]
    change (if position < layout.edgeCount then _ else _) = _
    rw [if_pos (by omega)]
    change (if Record.isFlagged _ then _ else _) = _
    by_cases hflag : Record.isFlagged (Tables.ofLayout file layout).edges[position]
    · rw [if_pos hflag, if_pos hflag, minus_of_le hstart]
      refine fit_of_lt ?_
      rw [UInt32.size] at hsize
      rw [UInt64.size]
      omega
    · rw [if_neg hflag, if_neg hflag, fit_of_lt (by omega)]
      refine hwalk.trans ?_
      cases ((Tables.ofLayout file layout).edges.toList.drop (position + 1)).findIdx?
        Record.isFlagged with
      | none => rfl
      | some k =>
        have hsum : position + 1 - start + k + 1 = position - start + (k + 1) + 1 := by omega
        exact congrArg Except.ok hsum

theorem readRun_eq : (Format.graph file layout).readRun start =
    lift ((Tables.ofLayout file layout).runLength start) := by
  rw [readRun, readEdge_eq hfile h, Tables.runLength]
  by_cases hstart : (Tables.ofLayout file layout).edges.size ≤ start
  · rw [if_pos hstart, Tables.edgeAt_of_size_le hstart]
    rfl
  · rw [if_neg hstart, Tables.edgeAt_of_getElem? (Array.getElem?_eq_getElem (Nat.not_le.mp hstart))]
    refine (walkRun_eq hfile h (Nat.le_refl start)).trans ?_
    cases ((Tables.ofLayout file layout).edges.toList.drop start).findIdx? Record.isFlagged with
    | none => rfl
    | some k =>
      have hsum : start - start + k + 1 = k + 1 := by omega
      exact congrArg Except.ok hsum

theorem readParentCount_eq : (Format.graph file layout).readParentCount r =
    lift ((Tables.ofLayout file layout).parentCount r) := by
  have sound := Tables.sound_ofLayout h
  unfold readParentCount Tables.parentCount
  cases hstart : r.edgeStart? with
  | none => rfl
  | some start =>
    obtain ⟨hpos, hle⟩ := Record.slotCount_of_edgeStart? hstart
    change _ = lift (((Tables.ofLayout file layout).runLength start).map (r.slotCount - 1 + ·))
    change (do
      let slots ← minus r.slotCount 1
      let others ← (Format.graph file layout).readRun start
      fit UInt64.size (slots + others)) = _
    rw [readRun_eq hfile h, minus_of_le hpos]
    cases hrun : (Tables.ofLayout file layout).runLength start with
    | error e => rfl
    | ok length =>
      have hlength := Tables.runLength_le hrun
      have hsize := sound.edges_size_lt
      refine fit_of_lt ?_
      rw [UInt32.size] at hsize
      rw [UInt64.size]
      omega

theorem readCommit_eq (position : Nat) : (Format.graph file layout).readCommit position =
    lift ((Tables.ofLayout file layout).commitAt position) := by
  have hsize := Tables.size_ofLayout file layout
  unfold readCommit
  change (if layout.commitCount ≤ position then _ else _) = _
  by_cases hposition : layout.commitCount ≤ position
  · rw [if_pos hposition, Tables.commitAt_of_size_le (hsize ▸ hposition), hsize]
    rfl
  · obtain ⟨id, r, hid, hr⟩ := Tables.exists_record (hsize ▸ Nat.not_le.mp hposition)
    rw [if_neg hposition, readRecord_eq hfile h (Nat.not_le.mp hposition) hr, readId_eq hfile h,
      Tables.idAt_of_getElem? hid, Tables.commitAt_of_getElem? hid hr]
    change (Format.graph file layout).readParentCount r >>= _ = _
    rw [readParentCount_eq hfile h]
    cases (Tables.ofLayout file layout).parentCount r <;> rfl

omit hfile h in
theorem readParent_edge {g : Graph} {k : Nat} (hn : k + 1 < c.parentCount)
    (hstart : c.edgeStart = some start) : g.readParent c (k + 1) =
      if UInt32.size ≤ k then .error (.error (.noParent (k + 1) c.parentCount))
      else if UInt32.size ≤ start + k then
        .error (.error (.noEdge (UInt32.size - 1) g.layout.edgeCount))
      else (g.readEdge (start + k)).map Record.unflag := by
  unfold readParent
  rw [if_neg (Nat.not_le.mpr hn), hstart]
  cases k <;> rfl

theorem readParent_eq (c : Commit) (n : Nat) : (Format.graph file layout).readParent c n =
    lift ((Tables.ofLayout file layout).parentPosition c n) := by
  by_cases hn : c.parentCount ≤ n
  · unfold readParent Tables.parentPosition
    rw [if_pos hn, if_pos hn]
    rfl
  · match n, hstart : c.edgeStart with
    | 0, _ | 1, none | _ + 2, none =>
      unfold readParent Tables.parentPosition
      rw [if_neg hn, if_neg hn, hstart]
      rfl
    | k + 1, some start =>
      rw [readParent_edge (Nat.not_le.mp hn) hstart,
        Tables.parentPosition_edge (Nat.not_le.mp hn) hstart, readEdge_eq hfile h,
        Tables.edges_size_ofLayout]
      split
      · rfl
      · split
        · rfl
        · rw [lift_map]

theorem recheckParent_eq : (Format.graph file layout).recheckParent c n =
    lift ((Tables.ofLayout file layout).checkParent c n) := by
  have hsize := Tables.size_ofLayout file layout
  unfold recheckParent Tables.checkParent
  rw [readParent_eq hfile h, lift_bind]
  congr 1
  funext p
  change (if layout.commitCount ≤ p then _ else _) = _
  rw [hsize]
  by_cases hp : layout.commitCount ≤ p
  · rw [if_pos hp, if_pos hp]
    rfl
  · rw [if_neg hp, if_neg hp, readCommit_eq hfile h, lift_bind]
    congr 1
    funext parent
    by_cases horder : Tables.InGenerationOrder c.generation parent.generation
    · rw [if_pos horder, if_pos horder]
      rfl
    · rw [if_neg horder, if_neg horder]
      rfl

theorem recheckCommit_eq : (Format.graph file layout).recheckCommit position =
    lift ((Tables.ofLayout file layout).checkCommit position) := by
  unfold recheckCommit Tables.checkCommit
  rw [readCommit_eq hfile h, lift_bind]
  congr 1
  funext c
  have hparents : (Format.graph file layout).recheckParent c = fun n =>
      lift ((Tables.ofLayout file layout).checkParent c n) :=
    funext fun n => recheckParent_eq hfile h
  simp only [readCountBefore_eq hfile h, readCount_eq hfile h, hparents, ← lift_forM]
  change (if _ ∧ _ then _ else _) = lift (if _ ∧ _ then _ else _)
  split <;> rfl

theorem recheck_eq : (Format.graph file layout).recheck =
    lift (Tables.ofLayout file layout).verify := by
  have hcommits : (Format.graph file layout).recheckCommit = fun position =>
      lift ((Tables.ofLayout file layout).checkCommit position) :=
    funext fun position => recheckCommit_eq hfile h
  rw [recheck, hcommits, ← lift_forM, Tables.verify, Tables.size_ofLayout]
  rfl

end Agreement

end Graph

end Ancestry
