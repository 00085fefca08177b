import Ancestry.Digits

/-!
# The order of digit strings

Strings of one length are ordered as their numbers are, and the first digits of a number are the
digits of a quotient. Both hold for bytes and for hexadecimal digits alike.
-/

namespace Ancestry.Digits

attribute [local instance (high)] instPowNat

variable {b : Nat}

theorem value_lt_value_iff {ds es : List Nat} (hlen : ds.length = es.length)
    (hds : ∀ d ∈ ds, d < b) (hes : ∀ e ∈ es, e < b) :
    value b ds < value b es ↔ ds < es := by
  induction ds generalizing es with
  | nil =>
    cases es with
    | nil => simp
    | cons e es => simp at hlen
  | cons d ds ih =>
    cases es with
    | nil => simp at hlen
    | cons e es =>
      have hlen' : ds.length = es.length := by simpa using hlen
      have hdsl := value_lt fun x hx => hds x (List.mem_cons_of_mem d hx)
      have hesl := value_lt fun x hx => hes x (List.mem_cons_of_mem e hx)
      rw [value_cons, value_cons, List.cons_lt_cons_iff, ← hlen',
        ← ih hlen' (fun x hx => hds x (List.mem_cons_of_mem d hx))
          (fun x hx => hes x (List.mem_cons_of_mem e hx))]
      rw [← hlen'] at hesl
      rcases Nat.lt_trichotomy d e with hde | rfl | hde
      · have := Nat.mul_le_mul_right (b ^ ds.length) hde
        rw [Nat.succ_mul] at this
        exact ⟨fun _ => Or.inl hde, fun _ => by omega⟩
      · simp
      · have := Nat.mul_le_mul_right (b ^ ds.length) hde
        rw [Nat.succ_mul] at this
        constructor
        · intro h
          omega
        · intro h
          rcases h with h | ⟨h, _⟩ <;> omega

/-- The first digits of a number are the digits of its quotient by what the others stand for. -/
theorem take_ofNat {n k : Nat} (hn : n ≤ k) (x : Nat) :
    (ofNat b k x).take n = ofNat b n (x / b ^ (k - n)) := by
  induction n generalizing k with
  | zero => simp [ofNat]
  | succ n ih =>
    cases k with
    | zero => omega
    | succ k =>
      have hk : n ≤ k := by omega
      have hsub : k + 1 - (n + 1) = k - n := by omega
      rw [ofNat, List.take_succ_cons, ih hk, hsub, ofNat, Nat.div_div_eq_div_mul, ← Nat.pow_add,
        Nat.sub_add_cancel hk]

/-- The digits of two numbers agree exactly when the numbers agree as far as the width goes. -/
theorem ofNat_inj (hb : 0 < b) {k x y : Nat} :
    ofNat b k x = ofNat b k y ↔ x % b ^ k = y % b ^ k := by
  have hvalue (z : Nat) : ofNat b k (z % b ^ k) = ofNat b k z := by
    have hdigits : ∀ d ∈ ofNat b k z, d < b := fun d hd => lt_of_mem_ofNat hb hd
    have := ofNat_value hdigits
    rwa [length_ofNat, value_ofNat] at this
  constructor
  · intro h
    rw [← value_ofNat, h, value_ofNat]
  · intro h
    rw [← hvalue x, h, hvalue y]

theorem value_replicate_zero (k : Nat) : value b (List.replicate k 0) = 0 := by
  induction k with
  | zero => rfl
  | succ k ih => rw [List.replicate_succ, value_cons, ih, Nat.zero_mul]

theorem value_append_replicate (ds : List Nat) (k : Nat) :
    value b (ds ++ List.replicate k 0) = value b ds * b ^ k := by
  rw [value_append, value_replicate_zero, List.length_replicate, Nat.add_zero]

end Ancestry.Digits
