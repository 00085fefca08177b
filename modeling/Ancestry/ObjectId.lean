import Ancestry.Hex
import Ancestry.Sha1

/-!
# Object ids

An object id is a SHA-1 digest. It is kept as the 160-bit number that its twenty bytes spell, so
the order of the bytes is the order of the numbers, and an abbreviated id is a quotient: two ids
share their first `n` hexadecimal digits exactly when they agree after division by `16 ^ (40 - n)`.
-/

namespace Ancestry

attribute [local instance (high)] instPowNat

structure ObjectId where
  number : Nat
  number_lt : number < 256 ^ Sha1.size
deriving DecidableEq

namespace ObjectId

def byteCount : Nat := Sha1.size

def digitCount : Nat := 40

/-- The id that the lowest 160 bits of `n` spell. -/
def ofNat (n : Nat) : ObjectId :=
  ⟨n % 256 ^ Sha1.size, Nat.mod_lt _ (by decide)⟩

def zero : ObjectId := ofNat 0

instance : Inhabited ObjectId := ⟨zero⟩

instance : LE ObjectId := ⟨fun a b => a.number ≤ b.number⟩

instance : LT ObjectId := ⟨fun a b => a.number < b.number⟩

instance (a b : ObjectId) : Decidable (a ≤ b) := inferInstanceAs (Decidable (a.number ≤ b.number))

instance (a b : ObjectId) : Decidable (a < b) := inferInstanceAs (Decidable (a.number < b.number))

def ofBytes (bs : Bytes) : ObjectId :=
  ofNat (Bytes.toNat bs)

def toBytes (id : ObjectId) : Bytes :=
  Bytes.ofNat byteCount id.number

/-- The id of an object is the digest of its contents. -/
def ofContents (contents : Bytes) : ObjectId :=
  ⟨Sha1.digest contents, Sha1.digest_lt contents⟩

def firstByte (id : ObjectId) : Fin 256 :=
  ⟨id.number / 256 ^ (byteCount - 1), Nat.div_lt_of_lt_mul id.number_lt⟩

def digits (id : ObjectId) : List Nat :=
  Digits.ofNat 16 digitCount id.number

def toHex (id : ObjectId) : String :=
  Hex.ofDigits id.digits

instance : ToString ObjectId := ⟨toHex⟩

/-- Two ids share their first `n` hexadecimal digits; beyond the last digit all of them count. -/
def sharesDigits (a b : ObjectId) (n : Nat) : Bool :=
  a.number / 16 ^ (digitCount - n) == b.number / 16 ^ (digitCount - n)

/-- The least id that shares its first `n` digits with `id`: the later digits become zero. -/
def truncate (id : ObjectId) (n : Nat) : ObjectId :=
  ⟨id.number / 16 ^ (digitCount - n) * 16 ^ (digitCount - n),
    Nat.lt_of_le_of_lt (Nat.div_mul_le_self _ _) id.number_lt⟩

def abbreviate (id : ObjectId) (n : Nat) : String :=
  Hex.ofDigits (id.digits.take n)

theorem ext_iff_number {a b : ObjectId} : a = b ↔ a.number = b.number := by
  cases a; cases b; simp

theorem ofNat_number (id : ObjectId) : ofNat id.number = id := by
  rw [ext_iff_number]
  exact Nat.mod_eq_of_lt id.number_lt

@[simp] theorem length_toBytes (id : ObjectId) : id.toBytes.length = 20 := by
  simp [toBytes, byteCount, Sha1.size]

theorem ofBytes_toBytes (id : ObjectId) : ofBytes id.toBytes = id := by
  have h : Bytes.toNat id.toBytes = id.number := by
    rw [toBytes, Bytes.toNat_ofNat]
    exact Nat.mod_eq_of_lt (by simpa [byteCount] using id.number_lt)
  rw [ofBytes, h, ofNat_number]

theorem toBytes_inj {a b : ObjectId} : a.toBytes = b.toBytes ↔ a = b := by
  constructor
  · intro h
    rw [← ofBytes_toBytes a, h, ofBytes_toBytes]
  · rintro rfl
    rfl

theorem toBytes_ofBytes {bs : Bytes} (h : bs.length = 20) : (ofBytes bs).toBytes = bs := by
  have hlt : Bytes.toNat bs < 256 ^ Sha1.size := by simpa [h, Sha1.size] using Bytes.toNat_lt bs
  have hn : (ofBytes bs).number = Bytes.toNat bs := Nat.mod_eq_of_lt hlt
  rw [toBytes, hn]
  simpa [h, byteCount, Sha1.size] using Bytes.ofNat_toNat bs

end ObjectId

end Ancestry
