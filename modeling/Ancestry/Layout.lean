import Ancestry.Chunk.Directory
import Ancestry.ObjectId.Table
import Ancestry.Record

/-!
# Where a file keeps what

The chunks that carry the graph are collected from the directory, each at most once, and checked:
the fan-out first, since its last count is the number of commits, then the ids, the commits and the
extra edges.
-/

namespace Ancestry

structure Layout where
  fanout : Span
  ids : Span
  commits : Span
  edges : Span
  commitCount : Nat
  edgeCount : Nat
deriving DecidableEq

/-- The chunks collected so far, the first of each kind that carries the graph, and the Bloom chunks
that were passed over, in the order they came. -/
structure Draft where
  fanout : Option Chunk
  ids : Option Chunk
  commits : Option Chunk
  edges : Option Chunk
  skipped : List Chunk
deriving DecidableEq

namespace Layout

def buckets : Nat := 256

def wordSize : Nat := 4

/-- A chunk that must be there and hold something. -/
def required (kind : Kind) : Option Chunk → Except GraphError Chunk
  | none => .error (.missingChunk kind)
  | some c => if c.length = 0 then .error (.emptyChunk kind) else .ok c

def expectLength (expected : Nat) (c : Chunk) : Except GraphError Chunk :=
  if c.length = expected then .ok c else .error (.chunkLength c.kind expected c.length)

def firstFall (position previous : Nat) : List Nat → Option Nat
  | [] => none
  | count :: rest =>
    if count < previous then some position else firstFall (position + 1) count rest

def firstDisorder (position : Nat) : List ObjectId → Option Nat
  | a :: b :: rest => if a < b then firstDisorder (position + 1) (b :: rest) else some (position + 1)
  | _ => none

/-- The fan-out is 256 counts that never fall. Its last one is the number of commits. -/
def checkFanout (file : Bytes) (chunk : Option Chunk) : Except GraphError (Span × Nat) := do
  let c ← required .fanout chunk
  let c ← expectLength (buckets * wordSize) c
  let table ← file.sub c.span
  let counts := (Bytes.blocks wordSize buckets table).map Bytes.toNat
  match firstFall 0 0 counts with
  | some bucket => .error (.fanoutFalls bucket)
  | none => .ok (c.span, counts.getLastD 0)

/-- The ids are strictly increasing, one for each commit. -/
def checkIds (file : Bytes) (chunk : Option Chunk) (commitCount : Nat) :
    Except GraphError Span := do
  let c ← required .ids chunk
  let c ← expectLength (commitCount * ObjectId.byteCount) c
  let table ← file.sub c.span
  match firstDisorder 0 (ObjectId.Table.ofBytes table).toList with
  | some position => .error (.idsOutOfOrder position)
  | none => .ok c.span

def checkCommits (chunk : Option Chunk) (commitCount : Nat) : Except GraphError Span := do
  let c ← required .commits chunk
  let c ← expectLength (commitCount * Record.byteCount) c
  .ok c.span

/-- The extra edges, which may be missing or empty, are whole words. -/
def checkEdges : Option Chunk → Except GraphError (Span × Nat)
  | none => .ok (⟨0, 0⟩, 0)
  | some c =>
    if c.length = 0 then .ok (⟨0, 0⟩, 0)
    else if c.length % wordSize ≠ 0 then .error (.raggedEdges c.length)
    else if UInt32.size ≤ c.length / wordSize then .error (.tooMany .extraEdges)
    else .ok (c.span, c.length / wordSize)

end Layout

namespace Draft

def empty : Draft := ⟨none, none, none, none, []⟩

def claim (taken : Option Chunk) (c : Chunk) (d : Draft) : Except GraphError Draft :=
  if taken.isSome then .error (.duplicateChunk c.kind.tag) else .ok d

/-- Takes in a chunk. A kind that carries the graph comes once, Bloom chunks as often as they like. -/
def push (d : Draft) (c : Chunk) : Except GraphError Draft :=
  match c.kind with
  | .fanout => claim d.fanout c { d with fanout := some c }
  | .ids => claim d.ids c { d with ids := some c }
  | .commits => claim d.commits c { d with commits := some c }
  | .edges => claim d.edges c { d with edges := some c }
  | .bloom _ => .ok { d with skipped := d.skipped ++ [c] }

def ofChunks (chunks : List Chunk) : Except GraphError Draft :=
  chunks.foldlM push empty

def finish (d : Draft) (file : Bytes) : Except GraphError Layout := do
  let (fanout, commitCount) ← Layout.checkFanout file d.fanout
  let ids ← Layout.checkIds file d.ids commitCount
  let commits ← Layout.checkCommits d.commits commitCount
  let (edges, edgeCount) ← Layout.checkEdges d.edges
  .ok { fanout, ids, commits, edges, commitCount, edgeCount }

end Draft

end Ancestry
