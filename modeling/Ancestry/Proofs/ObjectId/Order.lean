import Ancestry.ObjectId
import Ancestry.Proofs.Bytes.Window

/-!
# The order of ids and their digits

The order of the numbers is the order of the bytes. Ids that share their first digits form an
interval of this order, and the least of them has zeros for all later digits.
-/

namespace Ancestry.ObjectId

attribute [local instance (high)] instPowNat

variable {a b c : ObjectId} {m n : Nat}

theorem lt_trans (hab : a < b) (hbc : b < c) : a < c := Nat.lt_trans hab hbc

theorem lt_irrefl (a : ObjectId) : ¬ a < a := Nat.lt_irrefl a.number

theorem not_lt : ¬ a < b ↔ b ≤ a := Nat.not_lt

theorem le_total (a b : ObjectId) : a ≤ b ∨ b ≤ a := Nat.le_total a.number b.number

theorem le_trans (hab : a ≤ b) (hbc : b ≤ c) : a ≤ c := Nat.le_trans hab hbc

theorem lt_iff_le_and_ne : a < b ↔ a ≤ b ∧ a ≠ b := by
  rw [Ne, ext_iff_number]
  exact Nat.lt_iff_le_and_ne

theorem eq_of_not_lt (hab : ¬ a < b) (hba : ¬ b < a) : a = b :=
  ext_iff_number.mpr (Nat.le_antisymm (Nat.not_lt.mp hba) (Nat.not_lt.mp hab))

theorem number_ofBytes {bs : Bytes} (h : bs.length = byteCount) :
    (ofBytes bs).number = Bytes.toNat bs := by
  apply Nat.mod_eq_of_lt
  have := Bytes.toNat_lt bs
  rwa [h] at this

theorem ofBytes_lt_ofBytes_iff {bs cs : Bytes} (hbs : bs.length = byteCount)
    (hcs : cs.length = byteCount) : ofBytes bs < ofBytes cs ↔ bs < cs := by
  rw [← Bytes.toNat_lt_toNat_iff (hbs.trans hcs.symm), ← number_ofBytes hbs, ← number_ofBytes hcs]
  rfl

theorem lt_iff_toBytes_lt : a < b ↔ a.toBytes < b.toBytes := by
  rw [← ofBytes_lt_ofBytes_iff (length_toBytes a) (length_toBytes b), ofBytes_toBytes,
    ofBytes_toBytes]

theorem number_lt_pow (a : ObjectId) : a.number < 16 ^ digitCount := by
  have hpow : 256 ^ Sha1.size = 16 ^ digitCount := by decide
  exact hpow ▸ a.number_lt

theorem sharesDigits_iff :
    a.sharesDigits b n ↔ a.number / 16 ^ (digitCount - n) = b.number / 16 ^ (digitCount - n) := by
  rw [sharesDigits, beq_iff_eq]

@[simp] theorem sharesDigits_refl (a : ObjectId) (n : Nat) : a.sharesDigits a n :=
  sharesDigits_iff.mpr rfl

theorem sharesDigits_symm (h : a.sharesDigits b n) : b.sharesDigits a n :=
  sharesDigits_iff.mpr (sharesDigits_iff.mp h).symm

theorem sharesDigits_trans (hab : a.sharesDigits b n) (hbc : b.sharesDigits c n) :
    a.sharesDigits c n :=
  sharesDigits_iff.mpr ((sharesDigits_iff.mp hab).trans (sharesDigits_iff.mp hbc))

theorem sharesDigits_min (a b : ObjectId) (n : Nat) :
    a.sharesDigits b (min n digitCount) = a.sharesDigits b n := by
  have hsub : digitCount - min n digitCount = digitCount - n := by omega
  rw [sharesDigits, sharesDigits, hsub]

theorem sharesDigits_of_le (hm : m ≤ n) (h : a.sharesDigits b n) : a.sharesDigits b m := by
  rw [sharesDigits_iff] at h ⊢
  obtain ⟨k, hk⟩ : ∃ k, digitCount - m = digitCount - n + k :=
    ⟨digitCount - m - (digitCount - n), by omega⟩
  rw [hk, Nat.pow_add, ← Nat.div_div_eq_div_mul, ← Nat.div_div_eq_div_mul, h]

theorem length_digits (a : ObjectId) : a.digits.length = digitCount := Digits.length_ofNat _ _ _

theorem number_eq (a : ObjectId) : a.number = Digits.value 16 a.digits := by
  rw [digits, Digits.value_ofNat, Nat.mod_eq_of_lt (number_lt_pow a)]

theorem number_div_lt (a : ObjectId) (n : Nat) :
    a.number / 16 ^ (digitCount - n) < 16 ^ min n digitCount := by
  apply Nat.div_lt_of_lt_mul
  have hsum : digitCount - n + min n digitCount = digitCount := by omega
  rw [← Nat.pow_add, hsum]
  exact number_lt_pow a

theorem take_digits (a : ObjectId) (n : Nat) : a.digits.take n =
    Digits.ofNat 16 (min n digitCount) (a.number / 16 ^ (digitCount - n)) := by
  have hsub : digitCount - min n digitCount = digitCount - n := by omega
  rw [List.take_eq_take_min, length_digits, digits, Digits.take_ofNat (Nat.min_le_right _ _), hsub]

/-- Two ids share digits exactly when the digits, read one by one, are the same. -/
theorem take_digits_eq_iff : a.digits.take n = b.digits.take n ↔ a.sharesDigits b n := by
  rw [take_digits, take_digits, Digits.ofNat_inj (by decide), sharesDigits_iff,
    Nat.mod_eq_of_lt (number_div_lt a n), Nat.mod_eq_of_lt (number_div_lt b n)]

theorem eq_of_sharesDigits (hn : digitCount ≤ n) (h : a.sharesDigits b n) : a = b := by
  rw [sharesDigits_iff, Nat.sub_eq_zero_of_le hn] at h
  simpa [ext_iff_number] using h

/-- What lies between two ids that share digits shares these too. -/
theorem sharesDigits_of_between (hac : a.sharesDigits c n) (hab : a ≤ b) (hbc : b ≤ c) :
    a.sharesDigits b n := by
  rw [sharesDigits_iff] at hac ⊢
  apply Nat.le_antisymm
  · exact Nat.div_le_div_right hab
  · rw [hac]
    exact Nat.div_le_div_right hbc

theorem sharesDigits_truncate (a : ObjectId) (n : Nat) : (a.truncate n).sharesDigits a n := by
  rw [sharesDigits_iff, truncate, Nat.mul_div_cancel]
  exact Nat.pow_pos (by decide)

theorem truncate_le (h : a.sharesDigits b n) : a.truncate n ≤ b := by
  change a.number / _ * _ ≤ b.number
  rw [sharesDigits_iff.mp h]
  exact Nat.div_mul_le_self _ _

theorem truncate_congr (h : a.sharesDigits b n) : a.truncate n = b.truncate n := by
  rw [ext_iff_number]
  change a.number / _ * _ = b.number / _ * _
  rw [sharesDigits_iff.mp h]

theorem sharesDigits_two : a.sharesDigits b 2 ↔ a.firstByte = b.firstByte := by
  rw [sharesDigits_iff, Fin.ext_iff]
  rfl

theorem sharesDigits_one : a.sharesDigits b 1 ↔ a.firstByte.val / 16 = b.firstByte.val / 16 := by
  have hquot (x : ObjectId) : x.firstByte.val / 16 = x.number / 16 ^ (digitCount - 1) := by
    change x.number / 256 ^ (byteCount - 1) / 16 = _
    rw [Nat.div_div_eq_div_mul]
    rfl
  rw [sharesDigits_iff, hquot, hquot]

theorem firstByte_le_firstByte (h : a ≤ b) : a.firstByte ≤ b.firstByte :=
  Nat.div_le_div_right h

end Ancestry.ObjectId
