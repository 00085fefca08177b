import Ancestry.Chunk
import Ancestry.ObjectId.Text

/-!
# What can go wrong with a graph

One constructor for each cause, with the figures that its message reports. An error may tell that the
file is malformed, that it was altered after it was written, that it lacks what was asked for, or that
it has more than one answer; each is a question of its own.
-/

namespace Ancestry

inductive Capacity
  | commits
  | extraEdges
  | chunks
deriving DecidableEq

inductive GraphError
  | tooShort (size : Nat)
  | badSignature (found : Tag)
  | badVersion (version : UInt8)
  | badHashVersion (version : UInt8)
  | noChunks
  | noRoom (trailer tableEnd : Nat)
  | offsetFalls (offset previous : Nat)
  | offsetBeyondTrailer (offset trailer : Nat)
  | unknownTag (tag : Tag)
  | duplicateChunk (tag : Tag)
  | missingChunk (kind : Kind)
  | emptyChunk (kind : Kind)
  | chunkLength (kind : Kind) (expected actual : Nat)
  | raggedEdges (length : Nat)
  | fanoutFalls (bucket : Nat)
  | idsOutOfOrder (position : Nat)
  | outOfBounds (offset length size : Nat)
  | openEdgeRun (start : Nat)
  | checksum (stored computed : ObjectId)
  | noCommit (position count : Nat)
  | noEdge (position count : Nat)
  | noParent (n count : Nat)
  | noMatch (digits : String)
  | ambiguous (digits : String)
  | badParent (position parent : Nat)
  | outsideBucket (position bucket : Nat)
  | generationOrder (position generation parent parentGeneration : Nat)
  | nothingToWrite
  | duplicateCommit (id : ObjectId)
  | unknownParent (commit parent : ObjectId)
  | generationTooLarge (generation : Nat)
  | timeTooLarge (time : Nat)
  | tooMany (what : Capacity)
  | badId (cause : IdError)
deriving DecidableEq

namespace GraphError

def isMalformed : GraphError → Bool
  | tooShort _ | badSignature _ | badVersion _ | badHashVersion _ | noChunks | noRoom _ _
  | offsetFalls _ _ | offsetBeyondTrailer _ _ | unknownTag _ | duplicateChunk _ | missingChunk _
  | emptyChunk _ | chunkLength _ _ _ | raggedEdges _ | fanoutFalls _ | idsOutOfOrder _
  | outOfBounds _ _ _ | openEdgeRun _ | badParent _ _ | outsideBucket _ _
  | generationOrder _ _ _ _ => true
  | _ => false

def isAltered : GraphError → Bool
  | checksum _ _ => true
  | _ => false

def isAbsent : GraphError → Bool
  | noCommit _ _ | noEdge _ _ | noParent _ _ | noMatch _ => true
  | _ => false

def isAmbiguous : GraphError → Bool
  | ambiguous _ => true
  | _ => false

/-- A file with such an error is not to be used. -/
def isFatal (e : GraphError) : Bool :=
  e.isMalformed || e.isAltered

end GraphError

def Capacity.name : Capacity → String
  | .commits => "commits"
  | .extraEdges => "extra edges"
  | .chunks => "chunks"

def GraphError.byteText (n : Nat) : String :=
  Hex.ofDigits (Digits.ofNat 16 2 n)

def GraphError.message : GraphError → String
  | tooShort size => s!"Commit-graph is too short: {size} bytes"
  | badSignature found =>
    let bytes := ", ".intercalate (found.toBytes.map fun b => byteText b.toNat)
    s!"Invalid commit-graph signature: [{bytes}]"
  | badVersion version => s!"Unsupported commit-graph version: {version.toNat}"
  | badHashVersion version => s!"Unsupported object id version: {version.toNat}"
  | noChunks => "No chunks in commit-graph"
  | noRoom trailer tableEnd =>
    s!"Wrong commit-graph size: trailer at {trailer}, chunk table ends at {tableEnd}"
  | offsetFalls offset previous =>
    s!"Chunks are non-monotonic: offset {offset} follows {previous}"
  | offsetBeyondTrailer offset trailer =>
    s!"Chunk at offset {offset} extends beyond the trailer at {trailer}"
  | unknownTag tag => s!"Unrecognized chunk ID {tag}"
  | duplicateChunk tag => s!"Duplicate chunk ID {tag}"
  | missingChunk kind => s!"Missing {kind} chunk"
  | emptyChunk kind => s!"Empty {kind} chunk"
  | chunkLength kind expected actual =>
    s!"{kind} chunk has wrong length: expected {expected}, got {actual}"
  | raggedEdges length =>
    s!"Malformed Extra Edge List chunk: length {length} is not a multiple of 4"
  | fanoutFalls bucket => s!"OID Fanout is non-monotonic at bucket {bucket}"
  | idsOutOfOrder position => s!"OID Lookup is non-monotonic at index {position}"
  | outOfBounds offset length size =>
    s!"Read of {length} bytes at offset {offset} is out of bounds for {size} bytes"
  | openEdgeRun start => s!"Extra edge run starting at {start} is not terminated"
  | checksum stored computed =>
    s!"Commit-graph checksum mismatch: stored {stored}, computed {computed}"
  | noCommit position count => s!"Commit index {position} does not exist ({count} commits)"
  | noEdge position count => s!"Extra edge index {position} does not exist ({count} edges)"
  | noParent n count => s!"Parent {n} does not exist (commit has {count} parents)"
  | noMatch digits => s!"No commit matches {digits}"
  | ambiguous digits => s!"Prefix {digits} matches multiple commits"
  | badParent position parent => s!"Commit {position} has invalid parent index {parent}"
  | outsideBucket position bucket =>
    s!"Commit {position} is outside fanout bucket 0x{byteText bucket}"
  | generationOrder position generation parent parentGeneration =>
    s!"Commit {position} has generation {generation}, not above parent {parent} " ++
      s!"with generation {parentGeneration}"
  | nothingToWrite => "Commit-graph must contain at least one commit"
  | duplicateCommit id => s!"Duplicate commit {id}"
  | unknownParent commit parent =>
    s!"Commit {commit} references parent {parent} which is not in the graph"
  | generationTooLarge generation => s!"Generation {generation} exceeds 30 bits"
  | timeTooLarge time => s!"Commit time {time} exceeds 34 bits"
  | tooMany what => s!"Too many {what.name} for a commit-graph"
  | badId cause => s!"Object id error: {cause.message}"

end Ancestry
