import Ancestry.Json
import Ancestry.Proofs.Json.Text

/-!
# How JSON tokens are written

A string of tokens may be written in many ways: each text has several forms, and blanks may stand
wherever a token ends. The reader finds the same tokens in all of them. Only a number must not be
followed by what would go on with it.
-/

namespace Ancestry.Json.Token

/-- Nothing that could belong to a number stands in front. -/
def EndsNumber (cs : List Char) : Prop :=
  ∀ c ∈ cs.head?, c.isDigit = false ∧ c ≠ '.' ∧ c ≠ 'e' ∧ c ≠ 'E'

/-- The ways to write a token. Of numbers only the natural ones are meant. -/
inductive Written : Token → List Char → Prop
  | openArray : Written .openArray ['[']
  | closeArray : Written .closeArray [']']
  | openObject : Written .openObject ['\x7b']
  | closeObject : Written .closeObject ['\x7d']
  | comma : Written .comma [',']
  | colon : Written .colon [':']
  | null : Written .null ['n', 'u', 'l', 'l']
  | bool (b : Bool) : Written (.bool b) (writeBool b)
  | natural (n : Nat) : Written (.number (some n)) (writeNat n)
  | text {t : Text} {cs : List Char} : Text.Written t cs → Written (.text t) ('"' :: cs)

inductive Spells : List Token → List Char → Prop
  | nil {blanks : List Char} : (∀ c ∈ blanks, isBlank c) → Spells [] blanks
  | cons {t : Token} {ts : List Token} {blanks cs rest : List Char} : (∀ c ∈ blanks, isBlank c) →
      t.Written cs → Spells ts rest → (∀ n, t = .number n → EndsNumber rest) →
      Spells (t :: ts) (blanks ++ cs ++ rest)

variable {t : Token} {ts : List Token} {c : Char} {blanks cs ds rest : List Char} {n : Nat}

theorem digits_append (hne : ds ≠ []) (hds : ∀ c ∈ ds, c.isDigit) (hends : EndsNumber rest) :
    digits (ds ++ rest) = some (ds, rest) := by
  have hstop : rest.takeWhile Char.isDigit = [] ∧ rest.dropWhile Char.isDigit = rest := by
    cases rest with
    | nil => exact ⟨rfl, rfl⟩
    | cons c cs =>
      have hc : ¬ c.isDigit = true := by
        rw [(hends c rfl).1]
        exact Bool.false_ne_true
      rw [List.takeWhile_cons_of_neg hc, List.dropWhile_cons_of_neg hc]
      exact ⟨rfl, rfl⟩
  rw [digits, List.takeWhile_append_of_pos hds, List.dropWhile_append_of_pos hds, hstop.1, hstop.2,
    List.append_nil, if_neg hne]

theorem whole_of_ne (hc : c ≠ '0') : whole (c :: cs) = digits (c :: cs) := by
  rw [whole]
  intro _ h
  exact hc (List.cons.inj h).1

theorem fraction_of_endsNumber (hends : EndsNumber rest) : fraction rest = some (false, rest) := by
  rw [fraction]
  rintro cs rfl
  exact (hends '.' rfl).2.1 rfl

theorem exponent_of_endsNumber (hends : EndsNumber rest) : exponent rest = some (false, rest) := by
  cases rest with
  | nil => rfl
  | cons c cs =>
    obtain ⟨_, _, hlower, hupper⟩ := hends c rfl
    simp only [exponent, if_neg (not_or.mpr ⟨hlower, hupper⟩)]

theorem exists_writeNat (h : n ≠ 0) : ∃ c cs, writeNat n = c :: cs ∧ c ≠ '0' := by
  unfold writeNat
  induction n using Nat.strongRecOn with
  | ind n ih =>
    rcases Nat.lt_or_ge n 10 with hlt | hge
    · refine ⟨_, _, Nat.toDigits_of_lt_base hlt, ?_⟩
      rwa [Ne, Nat.digitChar_eq_zero]
    · obtain ⟨c, cs, hdigits, hc⟩ := ih (n / 10) (by omega) (by omega)
      refine ⟨c, cs ++ [Nat.digitChar (n % 10)], ?_, hc⟩
      rw [Nat.toDigits_of_base_le (by decide) hge, hdigits, List.cons_append]

theorem whole_writeNat (n : Nat) (hends : EndsNumber rest) :
    whole (writeNat n ++ rest) = some (writeNat n, rest) := by
  by_cases h : n = 0
  · rw [h]
    rfl
  · obtain ⟨c, cs, hdigits, hc⟩ := exists_writeNat h
    have hall : ∀ d ∈ c :: cs, d.isDigit := by
      intro d hd
      rw [← hdigits] at hd
      exact Nat.isDigit_of_mem_toDigits (by decide) (by decide) hd
    rw [hdigits, List.cons_append, whole_of_ne hc, ← List.cons_append]
    exact digits_append (List.cons_ne_nil c cs) hall hends

theorem unsigned_writeNat (n : Nat) (hends : EndsNumber rest) :
    unsigned (writeNat n ++ rest) = some (some n, rest) := by
  have hvalue : Nat.ofDigitChars 10 (writeNat n) 0 = n := Nat.ofDigitChars_ten_toDigits
  simp only [unsigned, whole_writeNat n hends, fraction_of_endsNumber hends,
    exponent_of_endsNumber hends, Option.bind_eq_bind, Option.bind_some, hvalue, Bool.or_self]
  rfl

theorem next_of_isDigit {v : Option Nat} (hc : c.isDigit) (h : unsigned (c :: cs) = some (v, rest)) :
    next c cs = some (.number v, rest) := by
  rw [next, h]
  · rfl
  all_goals
    rintro rfl
    cases hc

theorem isBlank_of_isDigit (hc : c.isDigit) : isBlank c = false := by
  rw [← Bool.not_eq_true]
  intro hblank
  simp only [isBlank, Bool.or_eq_true, decide_eq_true_eq] at hblank
  rcases hblank with ((rfl | rfl) | rfl) | rfl <;> cases hc

theorem exists_next (h : t.Written cs) (hends : ∀ n, t = .number n → EndsNumber rest) :
    ∃ c ds, cs = c :: ds ∧ isBlank c = false ∧ next c (ds ++ rest) = some (t, rest) := by
  cases h with
  | openArray => exact ⟨_, _, rfl, by decide, rfl⟩
  | closeArray => exact ⟨_, _, rfl, by decide, rfl⟩
  | openObject => exact ⟨_, _, rfl, by decide, rfl⟩
  | closeObject => exact ⟨_, _, rfl, by decide, rfl⟩
  | comma => exact ⟨_, _, rfl, by decide, rfl⟩
  | colon => exact ⟨_, _, rfl, by decide, rfl⟩
  | null => exact ⟨_, _, rfl, by decide, rfl⟩
  | bool b =>
    cases b with
    | false => exact ⟨_, _, rfl, by decide, rfl⟩
    | true => exact ⟨_, _, rfl, by decide, rfl⟩
  | natural n =>
    have hnumber := unsigned_writeNat n (hends _ rfl)
    obtain ⟨c, ds, hdigits⟩ : ∃ c ds, writeNat n = c :: ds :=
      List.exists_cons_of_ne_nil Nat.toDigits_ne_nil
    have hc : c.isDigit := by
      have hmem : c ∈ writeNat n := hdigits ▸ List.mem_cons_self
      exact Nat.isDigit_of_mem_toDigits (by decide) (by decide) hmem
    rw [hdigits] at hnumber
    exact ⟨c, ds, hdigits, isBlank_of_isDigit hc, next_of_isDigit hc hnumber⟩
  | text ht =>
    refine ⟨_, _, rfl, by decide, ?_⟩
    simp only [next, Text.lex_append ht, Option.map_some]

theorem lex_blanks (h : ∀ c ∈ blanks, isBlank c) : lex (blanks ++ cs) = lex cs := by
  induction blanks with
  | nil => rfl
  | cons c blanks ih =>
    rw [List.cons_append, lex, if_pos (h c List.mem_cons_self)]
    exact ih fun x hx => h x (List.mem_cons_of_mem c hx)

theorem lex_next (hblank : isBlank c = false) (h : next c cs = some (t, rest)) :
    lex (c :: cs) = (lex rest).map (t :: ·) := by
  rw [lex, hblank, if_neg Bool.false_ne_true]
  split
  · next hnone =>
    rw [h] at hnone
    cases hnone
  · next hsome =>
    rw [h] at hsome
    cases hsome
    rfl

/-- The tokens of a document are the ones that were written. -/
theorem lex_of_spells (h : Spells ts cs) : lex cs = some ts := by
  induction h with
  | @nil blanks hblanks =>
    rw [← List.append_nil blanks, lex_blanks hblanks, lex]
  | cons hblanks hcs _ hends ih =>
    obtain ⟨c, ds, rfl, hblank, hnext⟩ := exists_next hcs hends
    rw [List.append_assoc, lex_blanks hblanks, List.cons_append, lex_next hblank hnext, ih,
      Option.map_some]

theorem Spells.append (h : Spells ts cs) (hblanks : ∀ c ∈ blanks, isBlank c) :
    Spells ts (blanks ++ cs) := by
  cases h with
  | nil hrest =>
    apply Spells.nil
    intro c hc
    rcases List.mem_append.mp hc with hc | hc
    · exact hblanks c hc
    · exact hrest c hc
  | cons hfirst hcs hrest hends =>
    rw [← List.append_assoc, ← List.append_assoc]
    apply Spells.cons _ hcs hrest hends
    intro c hc
    rcases List.mem_append.mp hc with hc | hc
    · exact hblanks c hc
    · exact hfirst c hc

end Ancestry.Json.Token
