import Ancestry.Chunk.Assembly
import Ancestry.History

/-!
# Writing a history

`History.encode` gives the bytes of the file, or the first reason why there is none: nothing to
write, too many revisions, an id that comes twice, then revision by revision in ascending order of
ids a field that does not fit or a parent that is not there, and at last the further chunks.
-/

namespace Ancestry

structure History where
  revisions : List Revision
  attachments : List Payload
deriving DecidableEq

namespace History

def fanout (ids : List ObjectId) : List Nat :=
  (List.finRange 256).map fun bucket => ids.countP (·.firstByte ≤ bucket)

/-- The chunks that carry the graph. The extra edges are left out where there are none. -/
def corePayloads (ids : List ObjectId) (records : List Record) (edges : List Nat) : List Payload :=
  [⟨.fanout, (fanout ids).flatMap (Bytes.ofNat 4)⟩,
    ⟨.ids, ids.flatMap ObjectId.toBytes⟩,
    ⟨.commits, records.flatMap Record.toBytes⟩] ++
  if edges.isEmpty then [] else [⟨.edges, edges.flatMap (Bytes.ofNat 4)⟩]

def encode (h : History) : Except GraphError Bytes :=
  if h.revisions.isEmpty then .error .nothingToWrite
  else if Record.noParent ≤ h.revisions.length then .error (.tooMany .commits)
  else
    let sorted := Revision.sort h.revisions
    let ids := sorted.map Revision.id
    match Revision.firstRepeat ids with
    | some id => .error (.duplicateCommit id)
    | none => do
      let (records, edges) ← Revision.placeAll ids.toArray 0 sorted
      let core := corePayloads ids records edges
      match h.attachments.find? (fun a => core.any (·.tag = a.tag)) with
      | some a => .error (.duplicateChunk a.tag)
      | none => Payload.assemble (core ++ h.attachments)

end History

end Ancestry
