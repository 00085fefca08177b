import Ancestry.Bytes.Read
import Ancestry.Proofs.Digits

/-!
# Windows of a region

A checked read that succeeds yields the window it names, and blocks of a window are windows again.
So everything a file is asked for is said by offsets into the file itself.
-/

namespace Ancestry.Bytes

attribute [local instance (high)] instPowNat

theorem length_window {bs : Bytes} {start stop : Nat} (h : stop ≤ bs.length) :
    (bs.window start stop).length = stop - start := by
  rw [window, List.length_take, List.length_drop]
  omega

theorem window_window {bs : Bytes} {start stop lo hi : Nat} (h : start + hi ≤ stop) :
    (bs.window start stop).window lo hi = bs.window (start + lo) (start + hi) := by
  rw [window, window, window, List.drop_take, List.drop_drop, List.take_take]
  congr 1
  omega

theorem window_append {left middle right : Bytes} {start stop : Nat} (hstart : left.length = start)
    (hstop : start + middle.length = stop) :
    (left ++ middle ++ right).window start stop = middle := by
  rw [window, List.append_assoc, List.drop_left' hstart]
  exact List.take_left' (by omega)

theorem slice_eq_ok_iff {region bs : Bytes} {offset length : Nat} :
    region.slice offset length = .ok bs ↔
      offset + length ≤ region.length ∧ region.window offset (offset + length) = bs := by
  rw [slice, window, Nat.add_sub_cancel_left]
  split
  · next h => simp [h]
  · next h => simp [h]

theorem sub_eq_ok_iff {region bs : Bytes} {span : Span} (h : span.start ≤ span.stop) :
    region.sub span = .ok bs ↔
      span.stop ≤ region.length ∧ region.window span.start span.stop = bs := by
  have hspan : span.start + (span.stop - span.start) = span.stop := by omega
  rw [sub, slice_eq_ok_iff, hspan]

theorem blocks_eq_map_window (k count : Nat) (bs : Bytes) :
    blocks k count bs = (List.range count).map fun i => bs.window (k * i) (k * i + k) := by
  induction count generalizing bs with
  | zero => rfl
  | succ count ih =>
    rw [blocks, ih, List.range_succ_eq_map, List.map_cons, List.map_map]
    congr 1
    · simp [window]
    · apply List.map_congr_left
      intro i _
      simp only [window, List.drop_drop, Function.comp_apply, Nat.mul_succ,
        Nat.add_sub_cancel_left, Nat.add_comm k]

theorem blocks_window {bs : Bytes} {k count start stop : Nat} (h : start + k * count ≤ stop) :
    blocks k count (bs.window start stop) =
      (List.range count).map fun i => bs.window (start + k * i) (start + k * i + k) := by
  rw [blocks_eq_map_window]
  apply List.map_congr_left
  intro i hi
  have hle := Nat.mul_le_mul_left k (List.mem_range.mp hi)
  rw [Nat.mul_succ] at hle
  rw [window_window (by omega), Nat.add_assoc]

theorem getElem?_blocks_window (bs : Bytes) (k : Nat) {count start stop i : Nat}
    (h : start + k * count ≤ stop) (hi : i < count) :
    (blocks k count (bs.window start stop))[i]? =
      some (bs.window (start + k * i) (start + k * i + k)) := by
  rw [blocks_window h, List.getElem?_map, List.getElem?_range hi]
  rfl

theorem slice_window {region : Bytes} {start stop offset length : Nat} (hstop : stop ≤ region.length)
    (h : start + offset + length ≤ stop) : (region.window start stop).slice offset length =
      .ok (region.window (start + offset) (start + offset + length)) := by
  rw [slice_eq_ok_iff, length_window hstop, window_window (by omega), Nat.add_assoc start]
  exact ⟨by omega, rfl⟩

theorem blocks_flatMap {α : Type} {k : Nat} {f : α → Bytes} {as : List α}
    (h : ∀ a ∈ as, (f a).length = k) : blocks k as.length (as.flatMap f) = as.map f := by
  induction as with
  | nil => rfl
  | cons a as ih =>
    have ha := h a List.mem_cons_self
    rw [List.length_cons, blocks, List.flatMap_cons, List.take_left' ha, List.drop_left' ha,
      ih fun x hx => h x (List.mem_cons_of_mem a hx), List.map_cons]

theorem map_blocks_flatMap {α : Type} {k : Nat} {f : α → Bytes} {g : Bytes → α} {as : List α}
    (h : ∀ a ∈ as, (f a).length = k) (hread : ∀ a ∈ as, g (f a) = a) :
    (blocks k as.length (as.flatMap f)).map g = as := by
  rw [blocks_flatMap h, List.map_map]
  conv => rhs; rw [← List.map_id as]
  exact List.map_congr_left hread

theorem length_flatMap_of_length {α : Type} {k : Nat} {f : α → Bytes} {as : List α}
    (h : ∀ a ∈ as, (f a).length = k) : (as.flatMap f).length = k * as.length := by
  induction as with
  | nil => rfl
  | cons a as ih =>
    rw [List.flatMap_cons, List.length_append, h a List.mem_cons_self,
      ih fun x hx => h x (List.mem_cons_of_mem a hx), List.length_cons, Nat.mul_succ, Nat.add_comm]

theorem length_flatMap_ofNat (k : Nat) (ns : List Nat) :
    (ns.flatMap (ofNat k)).length = k * ns.length :=
  length_flatMap_of_length fun n _ => length_ofNat k n

theorem toNat_window_lt (bs : Bytes) {start k : Nat} :
    toNat (bs.window start (start + k)) < 256 ^ k := by
  have hlen : (bs.window start (start + k)).length ≤ k := by
    rw [window, List.length_take, List.length_drop]
    omega
  exact Nat.lt_of_lt_of_le (toNat_lt _) (Nat.pow_le_pow_right (by decide) hlen)

theorem toNat_lt_of_mem_blocks {k count : Nat} {bs block : Bytes} (h : block ∈ blocks k count bs) :
    toNat block < 256 ^ k := by
  rw [blocks_eq_map_window] at h
  obtain ⟨i, _, rfl⟩ := List.mem_map.mp h
  exact toNat_window_lt bs

theorem toNat_ofNat_of_lt {k n : Nat} (h : n < 256 ^ k) : toNat (ofNat k n) = n := by
  rw [toNat_ofNat, Nat.mod_eq_of_lt h]

theorem map_toNat_lt_iff {bs cs : Bytes} : bs.map UInt8.toNat < cs.map UInt8.toNat ↔ bs < cs := by
  induction bs generalizing cs with
  | nil => cases cs <;> simp
  | cons b bs ih =>
    cases cs with
    | nil => simp
    | cons c cs =>
      simp only [List.map_cons, List.cons_lt_cons_iff, ih, UInt8.lt_iff_toNat_lt,
        UInt8.toNat_inj]

/-- Byte strings of one length are ordered as the numbers they spell. -/
theorem toNat_lt_toNat_iff {bs cs : Bytes} (h : bs.length = cs.length) :
    toNat bs < toNat cs ↔ bs < cs := by
  have hdigit (xs : Bytes) : ∀ d ∈ xs.map UInt8.toNat, d < 256 := by
    intro d hd
    obtain ⟨x, _, rfl⟩ := List.mem_map.mp hd
    exact x.toNat_lt
  rw [toNat, toNat, Digits.value_lt_value_iff (by simpa using h) (hdigit bs) (hdigit cs),
    map_toNat_lt_iff]

end Ancestry.Bytes
