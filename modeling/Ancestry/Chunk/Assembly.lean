import Ancestry.Chunk.Directory

/-!
# Files put together from chunks

Header, directory, the chunks one after the other, and the trailer. The closing entry of the
directory has the offset at which the last chunk ends.
-/

namespace Ancestry

structure Payload where
  tag : Tag
  data : Bytes
deriving DecidableEq

namespace Payload

/-- The directory of chunks the first of which starts at `offset`. -/
def directory (offset : Nat) : List Payload → List Entry
  | [] => [⟨.terminator, offset⟩]
  | p :: rest => ⟨p.tag, offset⟩ :: directory (offset + p.data.length) rest

/-- All of a file but its trailer. -/
def body (payloads : List Payload) : Bytes :=
  let header := Header.standalone (UInt8.ofNat payloads.length)
  header.toBytes ++ (directory header.tableEnd payloads).flatMap Entry.toBytes ++
    payloads.flatMap Payload.data

/-- The file of the given chunks. Their number has to fit a byte. -/
def assemble (payloads : List Payload) : Except GraphError Bytes :=
  if 256 ≤ payloads.length then .error (.tooMany .chunks)
  else .ok (body payloads ++ (ObjectId.ofContents (body payloads)).toBytes)

end Payload

end Ancestry
