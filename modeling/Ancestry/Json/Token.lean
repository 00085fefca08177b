import Ancestry.Json.Text

/-!
# JSON tokens

A document is a string of tokens with blanks between them. A number is kept only by its value, and
only if it is written with digits alone; with a sign, a fraction or an exponent it is a number all
the same, but none that anything here asks for.
-/

namespace Ancestry.Json

inductive Token
  | openArray
  | closeArray
  | openObject
  | closeObject
  | comma
  | colon
  | null
  | bool (b : Bool)
  | number (natural : Option Nat)
  | text (t : Text)
deriving DecidableEq

namespace Token

def isBlank (c : Char) : Bool :=
  c = ' ' || c = '\n' || c = '\t' || c = '\r'

def digits (cs : List Char) : Option (List Char × List Char) :=
  if cs.takeWhile Char.isDigit = [] then none
  else some (cs.takeWhile Char.isDigit, cs.dropWhile Char.isDigit)

/-- A whole number begins with a zero only if it is zero. -/
def whole : List Char → Option (List Char × List Char)
  | '0' :: rest => some (['0'], rest)
  | cs => digits cs

def fraction : List Char → Option (Bool × List Char)
  | '.' :: rest => (digits rest).map fun (_, rest) => (true, rest)
  | cs => some (false, cs)

def exponent : List Char → Option (Bool × List Char)
  | c :: rest =>
    if c = 'e' ∨ c = 'E' then
      let rest :=
        match rest with
        | d :: more => if d = '+' ∨ d = '-' then more else rest
        | [] => rest
      (digits rest).map fun (_, rest) => (true, rest)
    else some (false, c :: rest)
  | [] => some (false, [])

def unsigned (cs : List Char) : Option (Option Nat × List Char) := do
  let (ds, rest) ← whole cs
  let (hasFraction, rest) ← fraction rest
  let (hasExponent, rest) ← exponent rest
  some (if hasFraction || hasExponent then none else some (Nat.ofDigitChars 10 ds 0), rest)

def after? : List Char → List Char → Option (List Char)
  | [], cs => some cs
  | c :: word, d :: cs => if c = d then after? word cs else none
  | _ :: _, [] => none

def next (c : Char) (cs : List Char) : Option (Token × List Char) :=
  match c with
  | '[' => some (.openArray, cs)
  | ']' => some (.closeArray, cs)
  | '\x7b' => some (.openObject, cs)
  | '\x7d' => some (.closeObject, cs)
  | ',' => some (.comma, cs)
  | ':' => some (.colon, cs)
  | '"' => (Text.lex cs).map fun (t, rest) => (.text t, rest)
  | 'n' => (after? ['u', 'l', 'l'] cs).map (.null, ·)
  | 't' => (after? ['r', 'u', 'e'] cs).map (.bool true, ·)
  | 'f' => (after? ['a', 'l', 's', 'e'] cs).map (.bool false, ·)
  | '-' => (unsigned cs).map fun (_, rest) => (.number none, rest)
  | c => (unsigned (c :: cs)).map fun (n, rest) => (.number n, rest)

theorem length_of_digits {cs ds rest : List Char} (h : digits cs = some (ds, rest)) :
    rest.length < cs.length := by
  unfold digits at h
  split at h
  · simp at h
  · next hne =>
    simp only [Option.some.injEq, Prod.mk.injEq] at h
    have hsplit := congrArg List.length (List.takeWhile_append_dropWhile (p := Char.isDigit) (l := cs))
    have hpos := List.length_pos_iff.mpr hne
    rw [List.length_append] at hsplit
    rw [← h.2]
    omega

theorem length_of_whole {cs ds rest : List Char} (h : whole cs = some (ds, rest)) :
    rest.length < cs.length := by
  unfold whole at h
  split at h
  · simp only [Option.some.injEq, Prod.mk.injEq] at h
    simp [h.2]
  · exact length_of_digits h

theorem length_of_fraction {cs rest : List Char} {b : Bool} (h : fraction cs = some (b, rest)) :
    rest.length ≤ cs.length := by
  unfold fraction at h
  split at h
  · simp only [Option.map_eq_some_iff, Prod.mk.injEq, Prod.exists] at h
    obtain ⟨_, _, hd, _, rfl⟩ := h
    have := length_of_digits hd
    simp only [List.length_cons]
    omega
  · simp only [Option.some.injEq, Prod.mk.injEq] at h
    simp [h.2]

theorem length_of_exponent {cs rest : List Char} {b : Bool} (h : exponent cs = some (b, rest)) :
    rest.length ≤ cs.length := by
  unfold exponent at h
  split at h
  · next c r =>
    split at h
    · simp only [Option.map_eq_some_iff, Prod.mk.injEq, Prod.exists] at h
      obtain ⟨_, _, hd, _, rfl⟩ := h
      have := length_of_digits hd
      split at this
      · split at this <;> simp only [List.length_cons] at this ⊢ <;> omega
      · simp only [List.length_nil] at this
        omega
    · simp only [Option.some.injEq, Prod.mk.injEq] at h
      simp [← h.2]
  · simp only [Option.some.injEq, Prod.mk.injEq] at h
    simp [← h.2]

theorem length_of_unsigned {cs rest : List Char} {n : Option Nat}
    (h : unsigned cs = some (n, rest)) : rest.length < cs.length := by
  unfold unsigned at h
  simp only [Option.bind_eq_bind, Option.bind_eq_some_iff, Prod.exists, Option.some.injEq,
    Prod.mk.injEq] at h
  obtain ⟨_, _, hw, _, _, hf, _, _, he, _, rfl⟩ := h
  have := length_of_whole hw
  have := length_of_fraction hf
  have := length_of_exponent he
  omega

theorem length_of_after? {word cs rest : List Char} (h : after? word cs = some rest) :
    rest.length ≤ cs.length := by
  fun_induction after? word cs with
  | case1 => simp_all
  | case2 c word cs ih =>
    have := ih h
    simp only [List.length_cons]
    omega
  | case3 => simp at h
  | case4 => simp at h

theorem length_of_next {c : Char} {cs rest : List Char} {t : Token}
    (h : next c cs = some (t, rest)) : rest.length ≤ cs.length := by
  unfold next at h
  split at h
  all_goals first
    | (simp only [Option.some.injEq, Prod.mk.injEq] at h; simp [h.2])
    | simp only [Option.map_eq_some_iff, Prod.mk.injEq, Prod.exists] at h
  · obtain ⟨_, _, hl, _, rfl⟩ := h
    exact Nat.le_of_lt (Text.length_of_lex hl)
  · obtain ⟨_, ha, _, rfl⟩ := h
    exact length_of_after? ha
  · obtain ⟨_, ha, _, rfl⟩ := h
    exact length_of_after? ha
  · obtain ⟨_, ha, _, rfl⟩ := h
    exact length_of_after? ha
  · obtain ⟨_, _, hu, _, rfl⟩ := h
    exact Nat.le_of_lt (length_of_unsigned hu)
  · obtain ⟨_, _, hu, _, rfl⟩ := h
    exact Nat.le_of_lt_succ (length_of_unsigned hu)

def lex : List Char → Option (List Token)
  | [] => some []
  | c :: cs =>
    if isBlank c then lex cs
    else
      match h : next c cs with
      | none => none
      | some (t, rest) =>
        have := length_of_next h
        (lex rest).map (t :: ·)
termination_by cs => cs.length
decreasing_by
  all_goals simp only [List.length_cons]; omega

end Token

end Ancestry.Json
