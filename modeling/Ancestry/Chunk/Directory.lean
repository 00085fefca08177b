import Ancestry.Header

/-!
# The chunk directory

Each entry is a tag and the offset at which its chunk starts. A chunk runs to the start of the next
one and the last to the trailer, so the chunks of a good directory tile what lies between the first
offset and the trailer.
-/

namespace Ancestry

structure Entry where
  tag : Tag
  offset : Nat
deriving DecidableEq

namespace Entry

def byteCount : Nat := 12

def toBytes (e : Entry) : Bytes :=
  e.tag.toBytes ++ Bytes.ofNat 8 e.offset

def ofBytes (bs : Bytes) : Entry :=
  ⟨.ofBytes bs, Bytes.toNat (bs.drop 4)⟩

end Entry

namespace Directory

/-- Offsets never fall and stay below the trailer; tags are known. `floor` bounds the first. -/
def check (trailer floor : Nat) : List Entry → Except GraphError (List (Kind × Nat))
  | [] => .ok []
  | e :: rest =>
    if e.offset < floor then .error (.offsetFalls e.offset floor)
    else if trailer ≤ e.offset then .error (.offsetBeyondTrailer e.offset trailer)
    else
      match Kind.ofTag? e.tag with
      | none => .error (.unknownTag e.tag)
      | some kind => (check trailer e.offset rest).map ((kind, e.offset) :: ·)

/-- Each chunk runs to the start of the next, the last one to the trailer. -/
def tile (trailer : Nat) : List (Kind × Nat) → List Chunk
  | [] => []
  | [(kind, start)] => [⟨kind, start, trailer - start⟩]
  | (kind, start) :: (next, stop) :: rest =>
    ⟨kind, start, stop - start⟩ :: tile trailer ((next, stop) :: rest)

def read (file : Bytes) (header : Header) (trailer : Nat) : Except GraphError (List Chunk) :=
  let count := header.chunkCount.toNat
  match file.slice Header.byteCount (count * Entry.byteCount) with
  | .error e => .error e
  | .ok directory =>
    let entries := (Bytes.blocks Entry.byteCount count directory).map Entry.ofBytes
    (check trailer header.tableEnd entries).map (tile trailer)

end Directory

end Ancestry
