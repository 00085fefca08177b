import Ancestry.Proofs.Bytes.Window

/-!
# Bounds in words

Files are read by offsets and lengths that are words of 64 bits. A sum that is refused when it wraps
around, and a difference that stops at zero, admit the same slices as numbers without a bound do.
-/

namespace Ancestry

namespace Word

/-- The sum of two words, unless it wraps around and so ends below them. -/
def sum? (a b : UInt64) : Option UInt64 :=
  if a + b < a then none else some (a + b)

def minus (a b : UInt64) : UInt64 :=
  if a < b then 0 else a - b

structure Span where
  start : UInt64
  stop : UInt64

def Span.toNat (span : Span) : Ancestry.Span :=
  ⟨span.start.toNat, span.stop.toNat⟩

variable {a b : UInt64}

theorem add_lt_left_iff : a + b < a ↔ UInt64.size ≤ a.toNat + b.toNat := by
  have ha := a.toNat_lt_size
  have hb := b.toNat_lt_size
  rw [UInt64.lt_iff_toNat_lt, UInt64.toNat_add]
  simp only [UInt64.size] at ha hb ⊢
  omega

theorem toNat_add_of_lt (h : a.toNat + b.toNat < UInt64.size) :
    (a + b).toNat = a.toNat + b.toNat := by
  rw [UInt64.toNat_add]
  exact Nat.mod_eq_of_lt h

theorem toNat_minus (a b : UInt64) : (minus a b).toNat = a.toNat - b.toNat := by
  rw [minus]
  split
  · next h =>
    have hlt := UInt64.lt_iff_toNat_lt.mp h
    rw [UInt64.toNat_zero]
    omega
  · next h => exact UInt64.toNat_sub_of_le a b (UInt64.not_lt.mp h)

end Word

namespace Bytes

def between? (region : Bytes) (start stop : UInt64) : Option Bytes :=
  if start ≤ stop ∧ stop ≤ UInt64.ofNat region.length then
    some (region.window start.toNat stop.toNat)
  else none

def sliceWords (region : Bytes) (offset length : UInt64) : Except GraphError Bytes :=
  ((Word.sum? offset length).bind (region.between? offset)).elim
    (.error (.outOfBounds offset.toNat length.toNat region.length)) .ok

def subWords (region : Bytes) (span : Word.Span) : Except GraphError Bytes :=
  region.sliceWords span.start (Word.minus span.stop span.start)

section Words

variable {region : Bytes} (hregion : region.length < UInt64.size)
include hregion

theorem sliceWords_eq (offset length : UInt64) :
    region.sliceWords offset length = region.slice offset.toNat length.toNat := by
  rw [sliceWords, Word.sum?, slice]
  by_cases hwraps : offset + length < offset
  · have hsum := Word.add_lt_left_iff.mp hwraps
    rw [if_pos hwraps, if_neg (by omega)]
    rfl
  · have hsum := Word.toNat_add_of_lt (Nat.not_le.mp (mt Word.add_lt_left_iff.mpr hwraps))
    have hinside : (offset ≤ offset + length ∧ offset + length ≤ UInt64.ofNat region.length) ↔
        offset.toNat + length.toNat ≤ region.length := by
      rw [UInt64.le_iff_toNat_le, UInt64.le_iff_toNat_le, UInt64.toNat_ofNat_of_lt' hregion, hsum]
      omega
    rw [if_neg hwraps, Option.bind_some, between?]
    simp only [hinside, hsum, window, Nat.add_sub_cancel_left]
    split
    · rfl
    · rfl

theorem subWords_eq (span : Word.Span) : region.subWords span = region.sub span.toNat := by
  rw [subWords, sliceWords_eq hregion, Word.toNat_minus]
  rfl

end Words

end Bytes

end Ancestry
