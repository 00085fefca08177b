import Ancestry.Bytes.Read

/-!
# The header of a file

Eight bytes: the signature, the version of the format, the version of the hash, the number of
chunks, and the number of files this one builds on. The last is reported and not otherwise used.
-/

namespace Ancestry

structure Header where
  signature : Tag
  version : UInt8
  hashVersion : UInt8
  chunkCount : UInt8
  baseCount : UInt8
deriving DecidableEq

namespace Header

def byteCount : Nat := 8

def standalone (count : UInt8) : Header :=
  ⟨.signature, 1, 1, count, 0⟩

def toBytes (h : Header) : Bytes :=
  h.signature.toBytes ++ [h.version, h.hashVersion, h.chunkCount, h.baseCount]

def validate (h : Header) : Except GraphError Unit :=
  if h.signature ≠ .signature then .error (.badSignature h.signature)
  else if h.version ≠ 1 then .error (.badVersion h.version)
  else if h.hashVersion ≠ 1 then .error (.badHashVersion h.hashVersion)
  else if h.chunkCount = 0 then .error .noChunks
  else .ok ()

def parse : Bytes → Except GraphError Header
  | s0 :: s1 :: s2 :: s3 :: version :: hashVersion :: chunkCount :: baseCount :: _ =>
    let h : Header := ⟨⟨s0, s1, s2, s3⟩, version, hashVersion, chunkCount, baseCount⟩
    h.validate.map fun () => h
  | short => .error (.tooShort short.length)

/-- Where the directory ends: it has an entry of twelve bytes for each chunk, and one to close. -/
def tableEnd (h : Header) : Nat :=
  byteCount + (h.chunkCount.toNat + 1) * 12

end Header

end Ancestry
