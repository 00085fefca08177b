import Ancestry.ObjectId

/-!
# Commit records

A commit takes 36 bytes: the id of its tree, two parent slots, and two words that hold a generation
number of 30 bits and a commit time of 34 bits. The two highest bits of the time stand below the
generation.

A slot holds the position of a parent, or `noParent`. If the second slot has its high bit set, the
rest of it is a position in the list of extra edges, where the second and later parents stand; the
last of them has its high bit set.
-/

namespace Ancestry

structure Record where
  tree : ObjectId
  first : Nat
  second : Nat
  generation : Nat
  time : Nat
deriving DecidableEq

namespace Record

def byteCount : Nat := 36

def noParent : Nat := 0x70000000

def flag : Nat := 0x80000000

def isFlagged (word : Nat) : Bool :=
  flag ≤ word

def unflag (word : Nat) : Nat :=
  word % flag

def setFlag (word : Nat) : Nat :=
  flag + word % flag

def maxGeneration : Nat := 0x3fffffff

def maxTime : Nat := 0x3ffffffff

/-- The words of a generation and a time. What exceeds the widths is cut off. -/
def packTimes (generation time : Nat) : Nat × Nat :=
  (generation * 4 % UInt32.size + time / UInt32.size % 4, time % UInt32.size)

def unpackTimes (high low : Nat) : Nat × Nat :=
  (high / 4, high % 4 * UInt32.size + low)

theorem unpackTimes_packTimes {generation time : Nat} (hg : generation ≤ maxGeneration)
    (ht : time ≤ maxTime) :
    unpackTimes (packTimes generation time).1 (packTimes generation time).2 =
      (generation, time) := by
  simp only [maxGeneration, maxTime] at hg ht
  simp only [unpackTimes, packTimes, UInt32.size, Prod.mk.injEq]
  omega

theorem packTimes_unpackTimes {high low : Nat} (hh : high < UInt32.size) (hl : low < UInt32.size) :
    packTimes (unpackTimes high low).1 (unpackTimes high low).2 = (high, low) := by
  simp only [UInt32.size] at hh hl
  simp only [unpackTimes, packTimes, UInt32.size, Prod.mk.injEq]
  omega

def toBytes (r : Record) : Bytes :=
  let (high, low) := packTimes r.generation r.time
  r.tree.toBytes ++ Bytes.ofNat 4 r.first ++ Bytes.ofNat 4 r.second ++ Bytes.ofNat 4 high ++
    Bytes.ofNat 4 low

def ofBytes (bs : Bytes) : Record :=
  let word (offset : Nat) := Bytes.toNat (bs.window offset (offset + 4))
  let (generation, time) := unpackTimes (word 28) (word 32)
  { tree := .ofBytes (bs.window 0 20), first := word 20, second := word 24, generation, time }

def slotCount (r : Record) : Nat :=
  (if r.first = noParent then 0 else 1) + if r.second = noParent then 0 else 1

/-- Where the further parents start among the extra edges, if the second slot points there. -/
def edgeStart? (r : Record) : Option Nat :=
  if isFlagged r.second then some (unflag r.second) else none

@[simp] theorem length_toBytes (r : Record) : r.toBytes.length = 36 := by
  simp [toBytes]

end Record

end Ancestry
