import Ancestry.Bytes

/-!
# SHA-1

The digest of a message as a 160-bit number. The message is padded to whole blocks of 64 bytes;
each block gives sixteen words, stretched to eighty, and the eighty rounds mix them into a state of
five words.
-/

namespace Ancestry.Sha1

attribute [local instance (high)] instPowNat

structure State where
  a : UInt32
  b : UInt32
  c : UInt32
  d : UInt32
  e : UInt32

def size : Nat := 20

def initial : State :=
  ⟨0x67452301, 0xefcdab89, 0x98badcfe, 0x10325476, 0xc3d2e1f0⟩

def rotateLeft (x : UInt32) (k : UInt32) : UInt32 :=
  (x <<< k) ||| (x >>> (32 - k))

/-- A single one bit, zeros, and the length in bits close the message. -/
def pad (message : Bytes) : Bytes :=
  message ++ 0x80 ::
    (List.replicate ((119 - message.length % 64) % 64) 0 ++ Bytes.ofNat 8 (8 * message.length))

/-- Sixteen words and `n` more, each of which comes from four of the sixteen before it. -/
def stretch : Nat → List UInt32 → List UInt32
  | 0, words => words
  | n + 1, words =>
    words.headD 0 :: stretch n (words.tail ++
      [rotateLeft (words.getD 13 0 ^^^ words.getD 8 0 ^^^ words.getD 2 0 ^^^ words.getD 0 0) 1])

def mix (t : Nat) (b c d : UInt32) : UInt32 × UInt32 :=
  if t < 20 then ((b &&& c) ||| (~~~b &&& d), 0x5a827999)
  else if t < 40 then (b ^^^ c ^^^ d, 0x6ed9eba1)
  else if t < 60 then ((b &&& c) ||| (b &&& d) ||| (c &&& d), 0x8f1bbcdc)
  else (b ^^^ c ^^^ d, 0xca62c1d6)

def round (s : State) : UInt32 × Nat → State
  | (word, t) =>
    let (f, k) := mix t s.b s.c s.d
    ⟨rotateLeft s.a 5 + f + s.e + k + word, s.a, rotateLeft s.b 30, s.c, s.d⟩

def compress (s : State) (block : Bytes) : State :=
  let words := (Bytes.blocks 4 16 block).map fun w => UInt32.ofNat (Bytes.toNat w)
  let r := (stretch 64 words).zipIdx.foldl round s
  ⟨s.a + r.a, s.b + r.b, s.c + r.c, s.d + r.d, s.e + r.e⟩

def State.toNat (s : State) : Nat :=
  Digits.value UInt32.size [s.a.toNat, s.b.toNat, s.c.toNat, s.d.toNat, s.e.toNat]

def digest (message : Bytes) : Nat :=
  let padded := pad message
  ((Bytes.blocks 64 (padded.length / 64) padded).foldl compress initial).toNat

theorem length_pad (message : Bytes) : (pad message).length % 64 = 0 := by
  simp only [pad, List.length_append, List.length_cons, List.length_replicate, Bytes.length_ofNat]
  omega

theorem State.toNat_lt (s : State) : s.toNat < 256 ^ size := by
  have h : ∀ d ∈ [s.a.toNat, s.b.toNat, s.c.toNat, s.d.toNat, s.e.toNat], d < UInt32.size := by
    intro d hd
    simp only [List.mem_cons, List.not_mem_nil, or_false] at hd
    rcases hd with rfl | rfl | rfl | rfl | rfl <;> exact UInt32.toNat_lt _
  have hpow : UInt32.size ^ 5 = 256 ^ size := by decide
  exact hpow ▸ Digits.value_lt h

theorem digest_lt (message : Bytes) : digest message < 256 ^ size :=
  State.toNat_lt _

example : digest [] = 0xda39a3ee5e6b4b0d3255bfef95601890afd80709 := by decide +kernel

end Ancestry.Sha1
