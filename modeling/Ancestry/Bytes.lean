import Ancestry.Digits

/-!
# Bytes

A file, a chunk of it and a field of a record are all lists of bytes. Numbers stand in them most
significant byte first, so a field is a string of digits in base 256.
-/

namespace Ancestry

abbrev Bytes := List UInt8

namespace Bytes

attribute [local instance (high)] instPowNat

/-- The number whose big-endian form is `bs`. -/
def toNat (bs : Bytes) : Nat :=
  Digits.value 256 (bs.map UInt8.toNat)

/-- The lowest `k` bytes of `n`, big-endian. -/
def ofNat (k n : Nat) : Bytes :=
  (Digits.ofNat 256 k n).map UInt8.ofNat

def blocks (k : Nat) : Nat → Bytes → List Bytes
  | 0, _ => []
  | count + 1, bs => bs.take k :: blocks k count (bs.drop k)

/-- What lies from `start` up to `stop`, as far as there are bytes. -/
def window (bs : Bytes) (start stop : Nat) : Bytes :=
  (bs.drop start).take (stop - start)

@[simp] theorem length_ofNat (k n : Nat) : (ofNat k n).length = k := by
  simp [ofNat]

@[simp] theorem length_blocks (k count : Nat) (bs : Bytes) : (blocks k count bs).length = count := by
  induction count generalizing bs with
  | zero => rfl
  | succ count ih => simp [blocks, ih]

theorem toNat_lt (bs : Bytes) : toNat bs < 256 ^ bs.length := by
  have h : ∀ d ∈ bs.map UInt8.toNat, d < 256 := by
    intro d hd
    obtain ⟨b, _, rfl⟩ := List.mem_map.mp hd
    exact b.toNat_lt
  simpa [toNat] using Digits.value_lt h

theorem toNat_ofNat (k n : Nat) : toNat (ofNat k n) = n % 256 ^ k := by
  have h : ((Digits.ofNat 256 k n).map UInt8.ofNat).map UInt8.toNat = Digits.ofNat 256 k n := by
    rw [List.map_map]
    conv => rhs; rw [← List.map_id (Digits.ofNat 256 k n)]
    apply List.map_congr_left
    intro d hd
    have := Digits.lt_of_mem_ofNat (by decide) hd
    simp [Nat.mod_eq_of_lt this]
  rw [toNat, ofNat, h, Digits.value_ofNat]

theorem ofNat_toNat (bs : Bytes) : ofNat bs.length (toNat bs) = bs := by
  have h : ∀ d ∈ bs.map UInt8.toNat, d < 256 := by
    intro d hd
    obtain ⟨b, _, rfl⟩ := List.mem_map.mp hd
    exact b.toNat_lt
  have := Digits.ofNat_value h
  rw [List.length_map] at this
  rw [ofNat, toNat, this, List.map_map]
  conv => rhs; rw [← List.map_id bs]
  exact List.map_congr_left fun b _ => by simp

end Bytes

end Ancestry
