/-!
# Strings of digits as numbers

A number is written with its most significant digit first, in a fixed width. Bytes of a file are
digits in base 256, hexadecimal digits are digits in base 16, so one notation serves both.

`value` reads a string of digits and `ofNat` writes one. They undo each other on strings of proper
digits (`ofNat_value`) and on numbers that fit the width (`value_ofNat`).

Powers of numbers are core's own here, whatever else is in scope.
-/

namespace Ancestry.Digits

attribute [local instance (high)] instPowNat

/-- The number with the digits `ds` in base `b`, by Horner's rule. -/
def value (b : Nat) (ds : List Nat) : Nat :=
  ds.foldl (fun acc d => acc * b + d) 0

/-- The `k` lowest digits of `n` in base `b`. -/
def ofNat (b : Nat) : Nat → Nat → List Nat
  | 0, _ => []
  | k + 1, n => n / b ^ k % b :: ofNat b k n

@[simp] theorem length_ofNat (b k n : Nat) : (ofNat b k n).length = k := by
  induction k with
  | zero => rfl
  | succ k ih => simp [ofNat, ih]

theorem lt_of_mem_ofNat {b : Nat} (hb : 0 < b) {k n d : Nat} (h : d ∈ ofNat b k n) : d < b := by
  induction k with
  | zero => simp [ofNat] at h
  | succ k ih =>
    rcases List.mem_cons.mp h with rfl | h
    · exact Nat.mod_lt _ hb
    · exact ih h

theorem foldl_eq (b : Nat) (ds : List Nat) (acc : Nat) :
    ds.foldl (fun acc d => acc * b + d) acc = acc * b ^ ds.length + value b ds := by
  induction ds generalizing acc with
  | nil => simp [value]
  | cons d ds ih =>
    simp only [value, List.foldl_cons, List.length_cons]
    rw [ih, ih (0 * b + d)]
    simp only [Nat.zero_mul, Nat.zero_add, Nat.add_mul, Nat.pow_succ, Nat.mul_assoc,
      Nat.add_assoc, Nat.mul_comm b]

@[simp] theorem value_nil (b : Nat) : value b [] = 0 := rfl

theorem value_cons (b d : Nat) (ds : List Nat) :
    value b (d :: ds) = d * b ^ ds.length + value b ds := by
  rw [value, List.foldl_cons, foldl_eq, Nat.zero_mul, Nat.zero_add]

theorem value_append (b : Nat) (xs ys : List Nat) :
    value b (xs ++ ys) = value b xs * b ^ ys.length + value b ys := by
  rw [value, List.foldl_append, foldl_eq]
  rfl

theorem value_lt {b : Nat} {ds : List Nat} (h : ∀ d ∈ ds, d < b) : value b ds < b ^ ds.length := by
  induction ds with
  | nil => simp
  | cons d ds ih =>
    have hd : d < b := h d List.mem_cons_self
    have hds := ih fun x hx => h x (List.mem_cons_of_mem d hx)
    have : (d + 1) * b ^ ds.length ≤ b * b ^ ds.length := Nat.mul_le_mul_right _ hd
    rw [value_cons, List.length_cons, Nat.pow_succ, Nat.mul_comm (b ^ ds.length)]
    rw [Nat.add_mul, Nat.one_mul] at this
    omega

theorem value_ofNat (b k n : Nat) : value b (ofNat b k n) = n % b ^ k := by
  induction k with
  | zero => simp [ofNat, Nat.mod_one]
  | succ k ih =>
    rw [ofNat, value_cons, length_ofNat, ih, Nat.pow_succ, Nat.mod_mul, Nat.add_comm,
      Nat.mul_comm (b ^ k)]

theorem ofNat_value {b : Nat} {ds : List Nat} (h : ∀ d ∈ ds, d < b) :
    ofNat b ds.length (value b ds) = ds := by
  suffices ∀ m, ofNat b ds.length (m * b ^ ds.length + value b ds) = ds by
    simpa using this 0
  induction ds with
  | nil => intro m; rfl
  | cons d ds ih =>
    intro m
    have hd : d < b := h d List.mem_cons_self
    have hds : ∀ x ∈ ds, x < b := fun x hx => h x (List.mem_cons_of_mem d hx)
    have hlt := value_lt hds
    have hpos : 0 < b ^ ds.length := Nat.zero_lt_of_lt hlt
    have hsplit : m * b ^ (ds.length + 1) + value b (d :: ds) =
        (m * b + d) * b ^ ds.length + value b ds := by
      rw [value_cons, Nat.pow_succ, Nat.add_mul, Nat.mul_assoc, Nat.mul_comm b, Nat.add_assoc]
    rw [List.length_cons, ofNat, hsplit, ih hds (m * b + d)]
    congr 1
    rw [Nat.add_comm ((m * b + d) * _), Nat.add_mul_div_right _ _ hpos, Nat.div_eq_of_lt hlt,
      Nat.zero_add, Nat.add_comm, Nat.add_mul_mod_self_right, Nat.mod_eq_of_lt hd]

end Ancestry.Digits
