import Ancestry.Layout

/-!
# The tables of a graph

What the four chunks of a file hold, decoded: the fan-out counts, the ids, a record for each id, and
the extra edges. Every question to a graph is answered from these tables alone.

A commit is named by its position, which is the place of its id among the ids in ascending order.
-/

namespace Ancestry

structure Tables where
  fanout : Vector Nat 256
  ids : ObjectId.Table
  records : Array Record
  edges : Array Nat
  size_records : records.size = ids.size

/-- A commit as it stands in the tables, with the number of its parents counted out. -/
structure Commit where
  position : Nat
  id : ObjectId
  tree : ObjectId
  first : Nat
  second : Nat
  parentCount : Nat
  edgeStart : Option Nat
  generation : Nat
  time : Nat
deriving DecidableEq

namespace Commit

def isMerge (c : Commit) : Bool :=
  1 < c.parentCount

def isRoot (c : Commit) : Bool :=
  c.parentCount = 0

end Commit

namespace Tables

def size (t : Tables) : Nat := t.ids.size

def ofLayout (file : Bytes) (layout : Layout) : Tables :=
  let blocks (size count : Nat) (span : Span) : List Bytes :=
    Bytes.blocks size count (file.window span.start span.stop)
  { fanout :=
      ⟨((blocks Layout.wordSize Layout.buckets layout.fanout).map Bytes.toNat).toArray,
        by simp [blocks, Layout.buckets]⟩
    ids := ((blocks ObjectId.byteCount layout.commitCount layout.ids).map ObjectId.ofBytes).toArray
    records := ((blocks Record.byteCount layout.commitCount layout.commits).map
      Record.ofBytes).toArray
    edges := ((blocks Layout.wordSize layout.edgeCount layout.edges).map Bytes.toNat).toArray
    size_records := by simp [blocks] }

/-- How many ids have a first byte of at most `bucket`, as the file claims. -/
def countThrough (t : Tables) (bucket : Fin 256) : Nat :=
  t.fanout[bucket]

/-- How many ids have a first byte below `bucket`, as the file claims. -/
def countBefore (t : Tables) (bucket : Fin 256) : Nat :=
  if bucket.val = 0 then 0 else t.countThrough ⟨bucket.val - 1, by omega⟩

def idAt (t : Tables) (position : Nat) : Except GraphError ObjectId :=
  if h : position < t.ids.size then .ok t.ids[position] else .error (.noCommit position t.size)

def edgeAt (t : Tables) (position : Nat) : Except GraphError Nat :=
  if h : position < t.edges.size then .ok t.edges[position]
  else .error (.noEdge position t.edges.size)

/-- The length of the run of extra edges from `start` to the first flagged one, which counts. -/
def runLength (t : Tables) (start : Nat) : Except GraphError Nat :=
  if t.edges.size ≤ start then .error (.noEdge start t.edges.size)
  else
    match (t.edges.toList.drop start).findIdx? Record.isFlagged with
    | some last => .ok (last + 1)
    | none => .error (.openEdgeRun start)

/-- The parents that a record names: one for each slot in use, where a slot that points to extra
edges stands for the whole run. -/
def parentCount (t : Tables) (r : Record) : Except GraphError Nat :=
  match r.edgeStart? with
  | none => .ok r.slotCount
  | some start => (t.runLength start).map (r.slotCount - 1 + ·)

def commitAt (t : Tables) (position : Nat) : Except GraphError Commit :=
  if h : position < t.ids.size then
    have : position < t.records.size := t.size_records ▸ h
    let r := t.records[position]
    (t.parentCount r).map fun parentCount =>
      { position, parentCount
        id := t.ids[position]
        tree := r.tree
        first := r.first
        second := r.second
        edgeStart := r.edgeStart?
        generation := r.generation
        time := r.time }
  else .error (.noCommit position t.size)

def commits (t : Tables) : List (Except GraphError Commit) :=
  (List.range t.size).map t.commitAt

end Tables

end Ancestry
