import Ancestry.Bytes.Read
import Ancestry.Proofs.Record

/-!
# Records lose nothing

Every record that lies in commit data can be read, and what was read spells the same 36 bytes again.
Generation and time share two words: shifts and masks put them there and take them out, and this is
the arithmetic of quotients and remainders, since the fields do not overlap.
-/

namespace Ancestry

namespace Bytes

theorem window_append_window (bs : Bytes) {start mid stop : Nat} (hmid : start ≤ mid)
    (hstop : mid ≤ stop) : bs.window start mid ++ bs.window mid stop = bs.window start stop := by
  have hdrop : bs.drop mid = (bs.drop start).drop (mid - start) := by
    rw [List.drop_drop]
    congr 1
    omega
  have hsum : stop - start = mid - start + (stop - mid) := by omega
  rw [window, window, window, hdrop, hsum, List.take_add]

theorem ofNat_toNat_window {bs : Bytes} {start k : Nat} (h : start + k ≤ bs.length) :
    ofNat k (toNat (bs.window start (start + k))) = bs.window start (start + k) := by
  have hlength : (bs.window start (start + k)).length = k := by
    rw [length_window h, Nat.add_sub_cancel_left]
  have hread := ofNat_toNat (bs.window start (start + k))
  rwa [hlength] at hread

end Bytes

namespace Record

attribute [local instance (high)] instPowNat

/-- The record at a place of commit data. Every read checks its bounds. -/
def read (data : Bytes) (position : Nat) : Except GraphError Record := do
  let base := position * byteCount
  let tree ← data.objectId base
  let first ← data.number 4 (base + 20)
  let second ← data.number 4 (base + 24)
  let high ← data.number 4 (base + 28)
  let low ← data.number 4 (base + 32)
  let (generation, time) := unpackTimes high low
  .ok ⟨tree, first, second, generation, time⟩

/-- The generation and the time in two words, by shifts and masks. -/
def unpackWords (high low : UInt32) : UInt32 × UInt64 :=
  (high >>> 2, (high.toUInt64 &&& 3) <<< 32 ||| low.toUInt64)

/-- The words of a generation and a time, by shifts and masks. -/
def packWords (generation : UInt32) (time : UInt64) : UInt32 × UInt32 :=
  (generation <<< 2 ||| ((time >>> 32).toUInt32 &&& 3), time.toUInt32)

theorem and_three (n : Nat) : n &&& 3 = n % 4 := Nat.and_two_pow_sub_one_eq_mod n 2

/-- The top of the time stands above all bits of the low word. -/
theorem unpackTimes_words (high low : UInt32) : unpackTimes high.toNat low.toNat =
    ((unpackWords high low).1.toNat, (unpackWords high low).2.toNat) := by
  have hlow : low.toNat < 2 ^ 32 := low.toNat_lt
  have hshift : (high.toNat % 4) <<< 32 % 2 ^ 64 = (high.toNat % 4) <<< 32 := by
    apply Nat.mod_eq_of_lt
    rw [Nat.shiftLeft_eq]
    omega
  rw [unpackTimes, Prod.mk.injEq]
  constructor
  · exact (Nat.shiftRight_eq_div_pow high.toNat 2).symm
  · change _ = ((high.toNat &&& 3) <<< 32 % 2 ^ 64) ||| low.toNat
    rw [and_three, hshift, ← Nat.shiftLeft_add_eq_or_of_lt hlow, Nat.shiftLeft_eq]

/-- The generation stands above the two bits of the time, and loses what exceeds its width. -/
theorem packTimes_words (generation : UInt32) (time : UInt64) :
    packTimes generation.toNat time.toNat =
      ((packWords generation time).1.toNat, (packWords generation time).2.toNat) := by
  have htop : time.toNat / 2 ^ 32 % 2 ^ 32 % 4 < 2 ^ 2 := Nat.mod_lt _ (by decide)
  have hshift : generation.toNat <<< 2 % 2 ^ 32 = (generation.toNat % 2 ^ 30) <<< 2 := by
    rw [Nat.shiftLeft_eq, Nat.shiftLeft_eq]
    omega
  rw [packTimes, Prod.mk.injEq]
  constructor
  · change _ = (generation.toNat <<< 2 % 2 ^ 32) ||| ((time.toNat >>> 32 % 2 ^ 32) &&& 3)
    rw [and_three, Nat.shiftRight_eq_div_pow, hshift, ← Nat.shiftLeft_add_eq_or_of_lt htop,
      Nat.shiftLeft_eq, UInt32.size]
    omega
  · rfl

section Bytes

variable {data : Bytes} {base position : Nat}

theorem objectId_window (h : base + 36 ≤ data.length) : data.objectId base =
    .ok (.ofBytes (Bytes.window (data.window base (base + 36)) 0 20)) := by
  have hslice : data.slice base ObjectId.byteCount = .ok (data.window base (base + 20)) :=
    Bytes.slice_eq_ok_iff.mpr ⟨Nat.le_trans (Nat.add_le_add_left (by decide) base) h, rfl⟩
  rw [Bytes.objectId, hslice, Bytes.window_window (by omega)]
  rfl

theorem number_window (h : base + 36 ≤ data.length) {k : Nat} (hk : k + 4 ≤ 36) :
    data.number 4 (base + k) =
      .ok (Bytes.toNat (Bytes.window (data.window base (base + 36)) k (k + 4))) := by
  have hslice : data.slice (base + k) 4 = .ok (data.window (base + k) (base + k + 4)) :=
    Bytes.slice_eq_ok_iff.mpr ⟨by omega, rfl⟩
  rw [Bytes.number, hslice, Bytes.window_window (by omega), Nat.add_assoc]
  rfl

theorem read_eq (h : 36 * (position + 1) ≤ data.length) : read data position =
    .ok (ofBytes (data.window (36 * position) (36 * position + 36))) := by
  have hbase : position * byteCount = 36 * position := Nat.mul_comm position 36
  have hle : 36 * position + 36 ≤ data.length := h
  rw [read, hbase, objectId_window hle, number_window hle (by decide),
    number_window hle (by decide), number_window hle (by decide), number_window hle (by decide)]
  rfl

theorem toBytes_of_packTimes {r : Record} {high low : Nat}
    (h : packTimes r.generation r.time = (high, low)) : r.toBytes = r.tree.toBytes ++
      Bytes.ofNat 4 r.first ++ Bytes.ofNat 4 r.second ++ Bytes.ofNat 4 high ++ Bytes.ofNat 4 low := by
  rw [toBytes, h]

theorem toBytes_ofBytes {bs : Bytes} (h : bs.length = 36) : (ofBytes bs).toBytes = bs := by
  have hword (offset : Nat) (hoffset : offset + 4 ≤ 36) :
      Bytes.ofNat 4 (Bytes.toNat (bs.window offset (offset + 4))) = bs.window offset (offset + 4) :=
    Bytes.ofNat_toNat_window (h ▸ hoffset)
  have hlt (offset : Nat) : Bytes.toNat (bs.window offset (offset + 4)) < UInt32.size :=
    Bytes.toNat_window_lt bs
  have htree : (ObjectId.ofBytes (bs.window 0 20)).toBytes = bs.window 0 20 := by
    apply ObjectId.toBytes_ofBytes
    rw [Bytes.length_window (by omega)]
  rw [toBytes_of_packTimes (packTimes_unpackTimes (hlt 28) (hlt 32))]
  change (ObjectId.ofBytes (bs.window 0 20)).toBytes ++
    Bytes.ofNat 4 (Bytes.toNat (bs.window 20 24)) ++ Bytes.ofNat 4 (Bytes.toNat (bs.window 24 28)) ++
    Bytes.ofNat 4 (Bytes.toNat (bs.window 28 32)) ++
    Bytes.ofNat 4 (Bytes.toNat (bs.window 32 36)) = bs
  rw [htree, hword 20 (by decide), hword 24 (by decide), hword 28 (by decide), hword 32 (by decide),
    Bytes.window_append_window bs (by decide) (by decide),
    Bytes.window_append_window bs (by decide) (by decide),
    Bytes.window_append_window bs (by decide) (by decide),
    Bytes.window_append_window bs (by decide) (by decide)]
  exact List.take_of_length_le (Nat.le_of_eq h)

end Bytes

/-- Reading and writing undo each other. Whatever the 36 bytes of a record are, what is read of them
has the widths of its fields and spells them again; and a generation and a time that fit are taken out
of their two words as they were put in, which is what the shifts and masks do. -/
theorem codec_lossless :
    (∀ (data : Bytes) (position : Nat), 36 * (position + 1) ≤ data.length →
      ∃ r, read data position = .ok r ∧
        r = ofBytes (data.window (36 * position) (36 * position + 36)) ∧
        r.generation ≤ maxGeneration ∧ r.time ≤ maxTime ∧
        r.toBytes = data.window (36 * position) (36 * position + 36)) ∧
    (∀ generation time : Nat, generation ≤ maxGeneration → time ≤ maxTime →
      unpackTimes (packTimes generation time).1 (packTimes generation time).2 =
        (generation, time)) ∧
    (∀ high low : UInt32, unpackTimes high.toNat low.toNat =
      ((unpackWords high low).1.toNat, (unpackWords high low).2.toNat)) ∧
    ∀ (generation : UInt32) (time : UInt64), packTimes generation.toNat time.toNat =
      ((packWords generation time).1.toNat, (packWords generation time).2.toNat) := by
  refine ⟨?_, ?_, unpackTimes_words, packTimes_words⟩
  · intro data position h
    have hstop : 36 * position + 36 ≤ data.length := h
    have hlength : (data.window (36 * position) (36 * position + 36)).length = 36 := by
      rw [Bytes.length_window hstop, Nat.add_sub_cancel_left]
    have hfits := fits_ofBytes (data.window (36 * position) (36 * position + 36))
    exact ⟨_, read_eq h, rfl, hfits.generation_le, hfits.time_le, toBytes_ofBytes hlength⟩
  · intro generation time hgeneration htime
    exact unpackTimes_packTimes hgeneration htime

/-- Two records of bytes that are all ones. The figures of the second are the greatest there are. -/
theorem codec_ones : 36 * (1 + 1) ≤ (List.replicate 72 0xff : Bytes).length ∧
    (∃ r, read (List.replicate 72 0xff) 1 = .ok r ∧ r.generation = maxGeneration ∧
      r.time = maxTime ∧ r.toBytes = List.replicate 36 0xff) ∧
    maxGeneration ≤ maxGeneration ∧ maxTime ≤ maxTime ∧
    unpackTimes (packTimes maxGeneration maxTime).1 (packTimes maxGeneration maxTime).2 =
      (maxGeneration, maxTime) := by
  obtain ⟨hread, htimes, _⟩ := codec_lossless
  have hlength : 36 * (1 + 1) ≤ (List.replicate 72 0xff : Bytes).length := by decide
  obtain ⟨r, hr, hfields, _, _, hbytes⟩ := hread _ 1 hlength
  refine ⟨hlength, ⟨r, hr, ?_, ?_, hbytes⟩, Nat.le_refl _, Nat.le_refl _,
    htimes _ _ (Nat.le_refl _) (Nat.le_refl _)⟩
  · rw [hfields]
    rfl
  · rw [hfields]
    rfl

end Record

end Ancestry
