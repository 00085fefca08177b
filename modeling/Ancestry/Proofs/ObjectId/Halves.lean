import Ancestry.Proofs.ObjectId.Search
import Ancestry.Proofs.ObjectId.Text

/-!
# Ids by the halves of their bytes

A hexadecimal digit is one half of a byte, so what is said of the digits of ids can be said of their
bytes: an even number of digits is a number of whole bytes, and an odd number leaves the high half
of one byte more. In numbers, in bytes and in text the digits shared, cut off and compared are the
same.
-/

namespace Ancestry

attribute [local instance (high)] instPowNat

namespace Bytes

def halves (b : UInt8) : List Nat := [b.toNat / 16, b.toNat % 16]

/-- The first `n` halves are the same: the whole bytes among them are, and of one half more the
high halves do not differ in a bit. -/
def AgreeTo (bs cs : Bytes) (n : Nat) : Prop :=
  bs.take (n / 2) = cs.take (n / 2) ∧
    (n % 2 = 1 → ∀ b ∈ bs[n / 2]?, ∀ c ∈ cs[n / 2]?, (b ^^^ c) &&& 0xf0 = 0)

def clearFrom (bs : Bytes) (n : Nat) : Bytes :=
  bs.take (n / 2) ++ ((bs.drop (n / 2)).take (n % 2)).map (· &&& 0xf0) ++
    List.replicate (bs.length - (n + 1) / 2) 0

variable {bs cs : Bytes} {b c : UInt8} {n : Nat}

theorem toNat_high (b : UInt8) : (b &&& 0xf0).toNat = b.toNat / 16 * 16 := by
  have all : ∀ n < 256, (UInt8.ofNat n &&& 0xf0).toNat = n / 16 * 16 := by decide +kernel
  have hb := all b.toNat b.toNat_lt
  rwa [UInt8.ofNat_toNat] at hb

theorem xor_high_eq_zero_iff : (b ^^^ c) &&& 0xf0 = 0 ↔ b.toNat / 16 = c.toNat / 16 := by
  have hdistrib : (b ^^^ c) &&& 0xf0 = (b &&& 0xf0) ^^^ (c &&& 0xf0) := by
    rw [← UInt8.toNat_inj, UInt8.toNat_and, UInt8.toNat_xor, UInt8.toNat_xor, UInt8.toNat_and,
      UInt8.toNat_and, Nat.and_xor_distrib_right]
  rw [hdistrib, UInt8.xor_eq_zero_iff, ← UInt8.toNat_inj, toNat_high, toNat_high]
  omega

theorem halves_inj : halves b = halves c ↔ b = c := by
  constructor
  · intro h
    obtain ⟨hhigh, hlow⟩ := List.cons_eq_cons.mp h
    have hlow' := (List.cons_eq_cons.mp hlow).1
    rw [← UInt8.toNat_inj]
    omega
  · rintro rfl
    rfl

theorem agreeTo_cons_iff : AgreeTo (b :: bs) (c :: cs) (n + 2) ↔ b = c ∧ AgreeTo bs cs n := by
  have hdiv : (n + 2) / 2 = n / 2 + 1 := by omega
  have hmod : (n + 2) % 2 = n % 2 := by omega
  rw [AgreeTo, AgreeTo, hdiv, hmod, List.take_succ_cons, List.take_succ_cons, List.cons_eq_cons,
    List.getElem?_cons_succ, List.getElem?_cons_succ, and_assoc]

/-- Bytes agree in their halves as the halves do, written one after the other. -/
theorem take_flatMap_halves_eq_iff (h : bs.length = cs.length) :
    (bs.flatMap halves).take n = (cs.flatMap halves).take n ↔ AgreeTo bs cs n := by
  induction bs generalizing cs n with
  | nil =>
    obtain rfl := List.eq_nil_of_length_eq_zero h.symm
    simp [AgreeTo]
  | cons b bs ih =>
    cases cs with
    | nil => cases h
    | cons c cs =>
      match n with
      | 0 => simp [AgreeTo]
      | 1 => simp [AgreeTo, halves, xor_high_eq_zero_iff]
      | n + 2 =>
        have hfirst (x : UInt8) (xs : Bytes) : ((x :: xs).flatMap halves).take (n + 2) =
            halves x ++ (xs.flatMap halves).take n := rfl
        rw [hfirst, hfirst, agreeTo_cons_iff, ← ih (Nat.succ.inj h), ← halves_inj]
        constructor
        · intro happend
          exact List.append_inj happend rfl
        · intro hparts
          rw [hparts.1, hparts.2]

theorem flatMap_halves_replicate (k : Nat) :
    (List.replicate k 0).flatMap halves = List.replicate (2 * k) 0 := by
  induction k with
  | zero => rfl
  | succ k ih =>
    rw [List.replicate_succ, List.flatMap_cons, ih, Nat.mul_succ, Nat.add_comm,
      ← List.replicate_append_replicate]
    rfl

theorem clearFrom_cons (b : UInt8) (bs : Bytes) (n : Nat) :
    clearFrom (b :: bs) (n + 2) = b :: clearFrom bs n := by
  have hdiv : (n + 2) / 2 = n / 2 + 1 := by omega
  have hmod : (n + 2) % 2 = n % 2 := by omega
  have hsub : bs.length + 1 - (n + 2 + 1) / 2 = bs.length - (n + 1) / 2 := by omega
  rw [clearFrom, clearFrom, hdiv, hmod, List.take_succ_cons, List.drop_succ_cons,
    List.length_cons, hsub, List.cons_append, List.cons_append]

theorem flatMap_halves_clearFrom (bs : Bytes) (n : Nat) :
    (bs.clearFrom n).flatMap halves =
      (bs.flatMap halves).take n ++ List.replicate (2 * bs.length - n) 0 := by
  induction bs generalizing n with
  | nil => simp [clearFrom]
  | cons b bs ih =>
    match n with
    | 0 =>
      have hclear : clearFrom (b :: bs) 0 = List.replicate (bs.length + 1) 0 := rfl
      rw [hclear, flatMap_halves_replicate]
      rfl
    | 1 =>
      have hclear : clearFrom (b :: bs) 1 = (b &&& 0xf0) :: List.replicate bs.length 0 := rfl
      have hhalves : halves (b &&& 0xf0) = [b.toNat / 16, 0] := by
        rw [halves, toNat_high, Nat.mul_div_cancel _ (by decide), Nat.mul_mod_left]
      rw [hclear, List.flatMap_cons, flatMap_halves_replicate, hhalves]
      rfl
    | n + 2 =>
      have hsub : 2 * (bs.length + 1) - (n + 2) = 2 * bs.length - n := by omega
      rw [clearFrom_cons, List.flatMap_cons, ih, List.length_cons, hsub, ← List.append_assoc]
      rfl

end Bytes

/-- The digits of a number in base 16 are the halves of its digits in base 256. -/
theorem Digits.ofNat_flatMap (k n : Nat) :
    (ofNat 256 k n).flatMap (fun d => [d / 16, d % 16]) = ofNat 16 (2 * k) n := by
  induction k with
  | zero => rfl
  | succ k ih =>
    have hpow : 16 ^ (2 * k) = 256 ^ k := Nat.pow_mul 16 2 k
    have hhigh : n / 16 ^ (2 * k + 1) % 16 = n / 256 ^ k % 256 / 16 := by
      rw [Nat.pow_succ, ← Nat.div_div_eq_div_mul, hpow]
      omega
    have hlow : n / 16 ^ (2 * k) % 16 = n / 256 ^ k % 256 % 16 := by
      rw [hpow]
      omega
    rw [Nat.mul_succ, ofNat, ofNat, ofNat, List.flatMap_cons, ih, hhigh, hlow]
    rfl

namespace Hex

theorem digitChar_lt_iff {d e : Nat} (hd : d < 16) (he : e < 16) :
    Nat.digitChar d < Nat.digitChar e ↔ d < e := by
  have all : ∀ d < 16, ∀ e < 16, Nat.digitChar d < Nat.digitChar e ↔ d < e := by decide
  exact all d hd e he

theorem map_digitChar_lt_iff {ds es : List Nat} (hds : ∀ d ∈ ds, d < 16) (hes : ∀ e ∈ es, e < 16) :
    ds.map Nat.digitChar < es.map Nat.digitChar ↔ ds < es := by
  induction ds generalizing es with
  | nil => cases es <;> simp
  | cons d ds ih =>
    cases es with
    | nil => simp
    | cons e es =>
      have hd := hds d List.mem_cons_self
      have he := hes e List.mem_cons_self
      have hrest := ih (fun x hx => hds x (List.mem_cons_of_mem d hx))
        fun x hx => hes x (List.mem_cons_of_mem e hx)
      have heq : Nat.digitChar d = Nat.digitChar e ↔ d = e := by
        have hsame := map_digitChar_inj (List.forall_mem_singleton.mpr hd)
          (List.forall_mem_singleton.mpr he)
        simpa using hsame
      rw [List.map_cons, List.map_cons, List.cons_lt_cons_iff, List.cons_lt_cons_iff, hrest,
        digitChar_lt_iff hd he, heq]

end Hex

namespace ObjectId

variable {a b x : ObjectId} {n : Nat}

theorem digits_eq_halves (a : ObjectId) : a.digits = a.toBytes.flatMap Bytes.halves := by
  have hbytes (ds : List Nat) (hds : ∀ d ∈ ds, d < 256) :
      (ds.map UInt8.ofNat).flatMap Bytes.halves = ds.flatMap fun d => [d / 16, d % 16] := by
    induction ds with
    | nil => rfl
    | cons d ds ih =>
      have hd : (UInt8.ofNat d).toNat = d := Nat.mod_eq_of_lt (hds d List.mem_cons_self)
      rw [List.map_cons, List.flatMap_cons, List.flatMap_cons, Bytes.halves, hd,
        ih fun x hx => hds x (List.mem_cons_of_mem d hx)]
  rw [toBytes, Bytes.ofNat, hbytes _ fun d hd => Digits.lt_of_mem_ofNat (by decide) hd,
    Digits.ofNat_flatMap]
  rfl

theorem toHex_eq (a : ObjectId) : a.toHex = Hex.ofBytes a.toBytes := by
  rw [toHex, digits_eq_halves]
  rfl

theorem sharesDigits_iff_agreeTo : a.sharesDigits b n ↔ Bytes.AgreeTo a.toBytes b.toBytes n := by
  rw [← take_digits_eq_iff, digits_eq_halves, digits_eq_halves]
  apply Bytes.take_flatMap_halves_eq_iff
  rw [length_toBytes, length_toBytes]

theorem digits_truncate (a : ObjectId) (n : Nat) :
    (a.truncate n).digits = a.digits.take n ++ List.replicate (digitCount - n) 0 := by
  have hlength : (a.digits.take n).length = min n digitCount := by
    rw [List.length_take, length_digits]
  have hsub : digitCount - (a.digits.take n).length = digitCount - n := by
    rw [hlength]
    omega
  have hvalue : Digits.value 16 (a.digits.take n) = a.number / 16 ^ (digitCount - n) := by
    rw [take_digits, Digits.value_ofNat, Nat.mod_eq_of_lt (number_div_lt a n)]
  have hpadded := digits_ofNat_padded (hlength ▸ Nat.min_le_right n digitCount) fun d hd =>
    lt_of_mem_digits (List.mem_of_mem_take hd)
  rw [hsub, hvalue] at hpadded
  have hnumber := ofNat_number (a.truncate n)
  rw [← hpadded, ← hnumber]
  rfl

/-- Cutting off digits is clearing halves of bytes. -/
theorem toBytes_truncate (a : ObjectId) (n : Nat) :
    (a.truncate n).toBytes = a.toBytes.clearFrom n := by
  have hclear : (a.toBytes.clearFrom n).length = 20 := by
    simp only [Bytes.clearFrom, List.length_append, List.length_map, List.length_take,
      List.length_drop, List.length_replicate, length_toBytes]
    omega
  have hhalves : (a.truncate n).toBytes.flatMap Bytes.halves =
      (a.toBytes.clearFrom n).flatMap Bytes.halves := by
    rw [Bytes.flatMap_halves_clearFrom, ← digits_eq_halves, ← digits_eq_halves, digits_truncate,
      length_toBytes]
    rfl
  have hagree := (Bytes.take_flatMap_halves_eq_iff ((length_toBytes _).trans hclear.symm)).mp
    (congrArg (List.take digitCount) hhalves)
  have hwhole := hagree.1
  rwa [List.take_of_length_le (by rw [length_toBytes]; decide),
    List.take_of_length_le (by rw [hclear]; decide)] at hwhole

theorem lt_iff_toHex_lt : a < b ↔ a.toHex < b.toHex := by
  have hdigits : a.digits < b.digits ↔ Digits.value 16 a.digits < Digits.value 16 b.digits :=
    (Digits.value_lt_value_iff ((length_digits a).trans (length_digits b).symm)
      (fun _ => lt_of_mem_digits) fun _ => lt_of_mem_digits).symm
  change a.number < b.number ↔ a.toHex.toList < b.toHex.toList
  rw [toList_toHex, toList_toHex, Hex.map_digitChar_lt_iff (fun _ => lt_of_mem_digits)
    fun _ => lt_of_mem_digits, hdigits, ← number_eq, ← number_eq]

theorem truncate_eq_iff : a.truncate n = b.truncate n ↔ a.sharesDigits b n := by
  constructor
  · intro h
    have ha := sharesDigits_symm (sharesDigits_truncate a n)
    rw [h] at ha
    exact sharesDigits_trans ha (sharesDigits_truncate b n)
  · exact truncate_congr

/-- In an ascending table, the ids that share digits with one id stand side by side. -/
theorem Table.Ascending.sharesDigits_of_between {table : Table} (sorted : table.Ascending)
    {i j k : Nat} {c y z : ObjectId} (hij : i ≤ j) (hjk : j ≤ k) (hi : table[i]? = some x)
    (hj : table[j]? = some y) (hk : table[k]? = some z) (hx : x.sharesDigits c n)
    (hz : z.sharesDigits c n) : y.sharesDigits c n := by
  have hxy : x.sharesDigits y n := by
    apply ObjectId.sharesDigits_of_between (sharesDigits_trans hx (sharesDigits_symm hz))
    · exact sorted.le hij hi hj
    · exact sorted.le hjk hj hk
  exact sharesDigits_trans (sharesDigits_symm hxy) hx

/-- Ids share their first digits exactly if they are the same with the other digits cut off, if
their texts begin alike, and if the halves of their bytes agree. With its other digits cut off, an
id is the least of those that share the first ones. The text of an id is that of its bytes, ids are
ordered as their bytes and as their texts are, and what lies between two that share digits shares
these too. -/
theorem sharesDigits_laws (a b : ObjectId) (n : Nat) :
    (a.sharesDigits b n ↔ a.truncate n = b.truncate n) ∧
      (a.sharesDigits b n ↔
        a.toHex.toList.take (min n 40) = b.toHex.toList.take (min n 40)) ∧
      (a.sharesDigits b n ↔ Bytes.AgreeTo a.toBytes b.toBytes n) ∧
      (a.truncate n).toBytes = a.toBytes.clearFrom n ∧
      a.sharesDigits (a.truncate n) n ∧
      (∀ x, a.sharesDigits x n → a.truncate n ≤ x) ∧
      a.toHex = Hex.ofBytes a.toBytes ∧
      (a < b ↔ a.toBytes < b.toBytes) ∧
      (a.toBytes < b.toBytes ↔ a.toHex < b.toHex) ∧
      (∀ x, a ≤ x → x ≤ b → a.sharesDigits b n → a.sharesDigits x n) ∧
      ∀ (table : Table) (i j k : Nat) (x y z : ObjectId), table.Ascending → i ≤ j → j ≤ k →
        table[i]? = some x → table[j]? = some y → table[k]? = some z →
          x.sharesDigits a n → z.sharesDigits a n → y.sharesDigits a n := by
  refine ⟨truncate_eq_iff.symm, ?_, sharesDigits_iff_agreeTo, toBytes_truncate a n,
    sharesDigits_symm (sharesDigits_truncate a n), fun x => truncate_le, toHex_eq a,
    lt_iff_toBytes_lt, ?_, fun x hax hxb hab => sharesDigits_of_between hab hax hxb, ?_⟩
  · rw [take_toHex_eq_iff, take_digits_eq_iff]
    exact (sharesDigits_min a b n).symm ▸ Iff.rfl
  · rw [← lt_iff_toBytes_lt, lt_iff_toHex_lt]
  · intro table i j k x y z sorted hij hjk hi hj hk hx hz
    exact sorted.sharesDigits_of_between hij hjk hi hj hk hx hz

/-- Three ids that begin with `abc`. The digit `c` takes the high half of a byte. -/
def sampleAlike : Table :=
  #[ofNat 0xabc0000000000000000000000000000000000001,
    ofNat 0xabc5000000000000000000000000000000000000,
    ofNat 0xabcf000000000000000000000000000000000002]

theorem sharesDigits_sampleAlike : sampleAlike.Ascending ∧
    sampleAlike[0].sharesDigits sampleAlike[2] 3 ∧
    sampleAlike[0].sharesDigits sampleAlike[1] 3 ∧
    sampleAlike[0].truncate 3 ≤ sampleAlike[1] ∧
    sampleAlike[1].sharesDigits sampleAlike[0] 3 := by
  obtain ⟨_, _, _, _, _, hleast, _, _, _, hbetween, htable⟩ :=
    sharesDigits_laws sampleAlike[0] sampleAlike[2] 3
  have sorted : sampleAlike.Ascending := by
    unfold Table.Ascending
    decide
  have hends : sampleAlike[0].sharesDigits sampleAlike[2] 3 := by decide
  have hmiddle := hbetween sampleAlike[1] (by decide) (by decide) hends
  refine ⟨sorted, hends, hmiddle, hleast _ hmiddle, ?_⟩
  exact htable sampleAlike 0 1 2 _ _ _ sorted (by decide) (by decide) rfl rfl rfl
    (sharesDigits_refl _ 3) (sharesDigits_symm hends)

end ObjectId

end Ancestry
