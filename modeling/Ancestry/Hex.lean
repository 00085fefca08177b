import Ancestry.Bytes

/-!
# Hexadecimal text

Digits are written in lower case and read in either case. Only ASCII digits count.
-/

namespace Ancestry.Hex

def digit? (c : Char) : Option Nat :=
  if '0' ≤ c ∧ c ≤ '9' then some (c.toNat - 48)
  else if 'a' ≤ c ∧ c ≤ 'f' then some (c.toNat - 87)
  else if 'A' ≤ c ∧ c ≤ 'F' then some (c.toNat - 55)
  else none

def isDigit (c : Char) : Bool :=
  (digit? c).isSome

def ofDigits (ds : List Nat) : String :=
  String.ofList (ds.map Nat.digitChar)

/-- Two digits for each byte, high half first. -/
def ofBytes (bs : Bytes) : String :=
  ofDigits (bs.flatMap fun b => [b.toNat / 16, b.toNat % 16])

theorem digit?_lt {c : Char} {d : Nat} (h : digit? c = some d) : d < 16 := by
  have key : ∀ a : Char, c ≤ a → c.toNat ≤ a.toNat := fun a ha => ha
  unfold digit? at h
  split at h
  · next hc => have := key _ hc.2; simp at h this; omega
  · split at h
    · next hc => have := key _ hc.2; simp at h this; omega
    · split at h
      · next hc => have := key _ hc.2; simp at h this; omega
      · simp at h

theorem digit?_digitChar {d : Nat} (h : d < 16) : digit? (Nat.digitChar d) = some d := by
  have all : ∀ d, d < 16 → digit? (Nat.digitChar d) = some d := by decide
  exact all d h

end Ancestry.Hex
