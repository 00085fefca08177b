import Ancestry.Record
import Ancestry.Proofs.Bytes.Window

/-!
# Records and their bytes

Every 36 bytes are a record, whose figures have the widths of their fields. A record with such
figures is read back as it was written.
-/

namespace Ancestry.Record

attribute [local instance (high)] instPowNat

theorem noParent_lt_flag : noParent < flag := by decide

structure Fits (r : Record) : Prop where
  first_lt : r.first < UInt32.size
  second_lt : r.second < UInt32.size
  generation_le : r.generation ≤ maxGeneration
  time_le : r.time ≤ maxTime

theorem fits_ofBytes (bs : Bytes) : (ofBytes bs).Fits := by
  have hword (offset : Nat) : Bytes.toNat (bs.window offset (offset + 4)) < 256 ^ 4 :=
    Bytes.toNat_window_lt bs
  have hhigh := hword 28
  have hlow := hword 32
  constructor
  · exact hword 20
  · exact hword 24
  · change Bytes.toNat (bs.window 28 (28 + 4)) / 4 ≤ 0x3fffffff
    omega
  · change Bytes.toNat (bs.window 28 (28 + 4)) % 4 * 0x100000000 +
      Bytes.toNat (bs.window 32 (32 + 4)) ≤ 0x3ffffffff
    omega

theorem packTimes_lt (generation time : Nat) :
    (packTimes generation time).1 < UInt32.size ∧ (packTimes generation time).2 < UInt32.size := by
  simp only [packTimes, UInt32.size]
  omega

theorem toNat_word {left bs : Bytes} {offset n : Nat} (right : Bytes) (hleft : left.length = offset)
    (hbs : bs = left ++ Bytes.ofNat 4 n ++ right) (hn : n < UInt32.size) :
    Bytes.toNat (bs.window offset (offset + 4)) = n := by
  rw [hbs, Bytes.window_append hleft (by rw [Bytes.length_ofNat])]
  exact Bytes.toNat_ofNat_of_lt hn

theorem ofBytes_toBytes {r : Record} (h : r.Fits) : ofBytes r.toBytes = r := by
  obtain ⟨hhigh, hlow⟩ := packTimes_lt r.generation r.time
  have htimes := unpackTimes_packTimes h.generation_le h.time_le
  have hbytes : r.toBytes = r.tree.toBytes ++ Bytes.ofNat 4 r.first ++ Bytes.ofNat 4 r.second ++
      Bytes.ofNat 4 (packTimes r.generation r.time).1 ++
        Bytes.ofNat 4 (packTimes r.generation r.time).2 := rfl
  generalize packTimes r.generation r.time = times at *
  obtain ⟨high, low⟩ := times
  have htree : r.toBytes.window 0 20 = r.tree.toBytes := by
    rw [hbytes]
    exact List.take_left' r.tree.length_toBytes
  have hwords (k : Nat) (words : List Nat) (hk : words.length = k) :
      (r.tree.toBytes ++ words.flatMap (Bytes.ofNat 4)).length = 20 + 4 * k := by
    rw [List.length_append, r.tree.length_toBytes,
      Bytes.length_flatMap_of_length fun n _ => Bytes.length_ofNat 4 n, hk]
  have hfirst : Bytes.toNat (r.toBytes.window 20 24) = r.first :=
    toNat_word ([r.second, high, low].flatMap (Bytes.ofNat 4)) (hwords 0 [] rfl)
      (by simp [hbytes]) h.first_lt
  have hsecond : Bytes.toNat (r.toBytes.window 24 28) = r.second :=
    toNat_word ([high, low].flatMap (Bytes.ofNat 4)) (hwords 1 [r.first] rfl)
      (by simp [hbytes]) h.second_lt
  have hthird : Bytes.toNat (r.toBytes.window 28 32) = high :=
    toNat_word ([low].flatMap (Bytes.ofNat 4)) (hwords 2 [r.first, r.second] rfl)
      (by simp [hbytes]) hhigh
  have hfourth : Bytes.toNat (r.toBytes.window 32 36) = low :=
    toNat_word [] (hwords 3 [r.first, r.second, high] rfl) (by simp [hbytes]) hlow
  simp only [ofBytes, htree, hfirst, hsecond, hthird, hfourth, htimes, ObjectId.ofBytes_toBytes]

theorem slots_ofBytes_window (bs : Bytes) (start : Nat) :
    (ofBytes (bs.window start (start + 36))).first =
        Bytes.toNat (bs.window (start + 20) (start + 24)) ∧
      (ofBytes (bs.window start (start + 36))).second =
        Bytes.toNat (bs.window (start + 24) (start + 28)) :=
  ⟨congrArg Bytes.toNat (Bytes.window_window (by omega)),
    congrArg Bytes.toNat (Bytes.window_window (by omega))⟩

theorem slotCount_of_edgeStart? {r : Record} {start : Nat} (h : r.edgeStart? = some start) :
    1 ≤ r.slotCount ∧ r.slotCount ≤ 2 := by
  have hsecond : r.second ≠ noParent := by
    intro heq
    rw [edgeStart?, heq] at h
    cases h
  rw [slotCount, if_neg hsecond]
  split <;> decide

end Ancestry.Record
