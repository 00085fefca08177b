import Ancestry.Hex

/-!
# Chunks

A file is cut into chunks, each announced in the directory by a tag of four bytes. Four kinds of
chunk carry the graph; two more, for Bloom filters, are known and passed over.
-/

namespace Ancestry

/-- Four bytes that announce a chunk or a whole file. -/
structure Tag where
  b0 : UInt8
  b1 : UInt8
  b2 : UInt8
  b3 : UInt8
deriving DecidableEq

namespace Tag

def toBytes (t : Tag) : Bytes :=
  [t.b0, t.b1, t.b2, t.b3]

def ofBytes : Bytes → Tag
  | b0 :: b1 :: b2 :: b3 :: _ => ⟨b0, b1, b2, b3⟩
  | _ => ⟨0, 0, 0, 0⟩

/-- The letters, if all four bytes are visible ASCII, else the bytes in hexadecimal. -/
def toText (t : Tag) : String :=
  if t.toBytes.all (fun b => 0x21 ≤ b && b ≤ 0x7e) then
    String.ofList (t.toBytes.map fun b => Char.ofNat b.toNat)
  else "0x" ++ Hex.ofBytes t.toBytes

instance : ToString Tag := ⟨toText⟩

def signature : Tag := ⟨0x43, 0x47, 0x50, 0x48⟩

def fanout : Tag := ⟨0x4f, 0x49, 0x44, 0x46⟩

def ids : Tag := ⟨0x4f, 0x49, 0x44, 0x4c⟩

def commits : Tag := ⟨0x43, 0x44, 0x41, 0x54⟩

def edges : Tag := ⟨0x45, 0x44, 0x47, 0x45⟩

def bloomIndex : Tag := ⟨0x42, 0x49, 0x44, 0x58⟩

def bloomData : Tag := ⟨0x42, 0x44, 0x41, 0x54⟩

def terminator : Tag := ⟨0, 0, 0, 0⟩

@[simp] theorem length_toBytes (t : Tag) : t.toBytes.length = 4 := rfl

theorem ofBytes_toBytes (t : Tag) (rest : Bytes) : ofBytes (t.toBytes ++ rest) = t := rfl

end Tag

inductive Kind
  | fanout
  | ids
  | commits
  | edges
  | bloom (tag : Tag)
deriving DecidableEq

namespace Kind

def ofTag? (t : Tag) : Option Kind :=
  if t = .fanout then some .fanout
  else if t = .ids then some .ids
  else if t = .commits then some .commits
  else if t = .edges then some .edges
  else if t = .bloomIndex ∨ t = .bloomData then some (.bloom t)
  else none

def tag : Kind → Tag
  | .fanout => .fanout
  | .ids => .ids
  | .commits => .commits
  | .edges => .edges
  | .bloom t => t

def name : Kind → String
  | .fanout => "OID Fanout"
  | .ids => "OID Lookup"
  | .commits => "Commit Data"
  | .edges => "Extra Edge List"
  | .bloom _ => "unsupported"

instance : ToString Kind := ⟨name⟩

theorem tag_of_ofTag? {t : Tag} {k : Kind} (h : ofTag? t = some k) : k.tag = t := by
  unfold ofTag? at h
  repeat' split at h
  all_goals first | (simp at h; subst h; simp_all [tag]) | simp at h

end Kind

structure Span where
  start : Nat
  stop : Nat
deriving DecidableEq

structure Chunk where
  kind : Kind
  offset : Nat
  length : Nat
deriving DecidableEq

/-- The bytes of a chunk. Offsets are words of 64 bits, so the end is reckoned modulo `2 ^ 64`. -/
def Chunk.span (c : Chunk) : Span :=
  ⟨c.offset, (c.offset + c.length) % UInt64.size⟩

end Ancestry
