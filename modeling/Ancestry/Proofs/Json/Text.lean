import Ancestry.Json.Text

/-!
# How JSON texts are written

A character can be written in several ways, and the reader takes them all: plainly unless it is a
quote, a backslash or a control character, by a letter behind a backslash if there is one for it,
and by its code units. What is written out here is one of these ways for every character.
-/

namespace Ancestry.Json

attribute [local instance (high)] instPowNat

/-- The ways to write a piece between the quotes. -/
inductive Piece.Written : Piece → List Char → Prop
  | plain {c : Char} : c ≠ '"' → c ≠ '\\' → 0x20 ≤ c.toNat → Written (.char c) [c]
  | letter {e c : Char} : Text.unescape? e = some c → Written (.char c) ['\\', e]
  | unit {a b c d : Char} {u : Nat} : Text.unit? a b c d = some u →
      Written (.unit u) ['\\', 'u', a, b, c, d]

namespace Text

inductive Written : Text → List Char → Prop
  | nil : Written [] ['"']
  | cons {p : Piece} {t : Text} {cs ds : List Char} : p.Written cs → Written t ds →
      Written (p :: t) (cs ++ ds)

variable {t : Text} {cs rest : List Char} {c : Char}

theorem lex_plain (hquote : c ≠ '"') (hescape : c ≠ '\\') (hcontrol : 0x20 ≤ c.toNat)
    (h : lex cs = some (t, rest)) : lex (c :: cs) = some (.char c :: t, rest) := by
  have hplain : ¬ (c = '\\' ∨ c.toNat < 0x20) := by
    rintro (rfl | hlt)
    · exact hescape rfl
    · omega
  rw [lex, if_neg hplain, h]
  · exact hquote
  · exact fun _ _ _ _ _ hc _ => hescape hc
  · exact fun _ _ hc _ => hescape hc

theorem lex_letter {e : Char} (he : unescape? e = some c) (h : lex cs = some (t, rest)) :
    lex ('\\' :: e :: cs) = some (.char c :: t, rest) := by
  rw [lex, he, h]
  rintro _ _ _ _ _ rfl _
  cases he

theorem lex_unit {a b c d : Char} {u : Nat} (hu : unit? a b c d = some u)
    (h : lex cs = some (t, rest)) :
    lex ('\\' :: 'u' :: a :: b :: c :: d :: cs) = some (.unit u :: t, rest) := by
  simp only [lex, hu, h]

/-- Whatever way a text is written, it is read up to its closing quote. -/
theorem lex_append (h : Written t cs) (rest : List Char) : lex (cs ++ rest) = some (t, rest) := by
  induction h with
  | nil => rfl
  | cons hp _ ih =>
    cases hp with
    | plain hquote hescape hcontrol => exact lex_plain hquote hescape hcontrol ih
    | letter he => exact lex_letter he ih
    | unit hu => exact lex_unit hu ih

theorem unit?_digits {n : Nat} (h : n < 16 ^ (4 : Nat)) :
    ∃ a b c d, (Digits.ofNat 16 4 n).map Nat.digitChar = [a, b, c, d] ∧
      unit? a b c d = some n := by
  have hdigit (k : Nat) : Hex.digit? (Nat.digitChar (n / k % 16)) = some (n / k % 16) :=
    Hex.digit?_digitChar (Nat.mod_lt _ (by decide))
  have hvalue := Digits.value_ofNat 16 4 n
  rw [Nat.mod_eq_of_lt h] at hvalue
  refine ⟨_, _, _, _, rfl, ?_⟩
  simp only [unit?, hdigit]
  exact congrArg some hvalue

theorem characters?_unit {u : Nat} (h : u < 0xd800) (t : Text) :
    characters? (.unit u :: t) = (characters? t).map (Char.ofNat u :: ·) := by
  have hhigh : isHigh u = false := by
    rw [isHigh, decide_eq_false (by omega), Bool.false_and]
  have hlow : isLow u = false := by
    rw [isLow, decide_eq_false (by omega), Bool.false_and]
  rw [characters?.eq_def]
  simp only [hhigh, hlow, Bool.false_eq_true, if_false]

def pieceOf (c : Char) : Piece :=
  if c.toNat < 0x20 ∧ c ∉ ['\x08', '\x0c', '\n', '\r', '\t'] then .unit c.toNat else .char c

def ofString (s : String) : Text := s.toList.map pieceOf

theorem written_pieceOf (c : Char) : (pieceOf c).Written (escape c) := by
  unfold escape
  split
  · exact .letter rfl
  · exact .letter rfl
  · exact .letter rfl
  · exact .letter rfl
  · exact .letter rfl
  · exact .letter rfl
  · exact .letter rfl
  · next hquote hescape h1 h2 h3 h4 h5 =>
    have hnone : c ∉ ['\x08', '\x0c', '\n', '\r', '\t'] := by
      simp only [List.mem_cons, List.not_mem_nil, or_false, not_or]
      exact ⟨h1, h2, h3, h4, h5⟩
    split
    · next hcontrol =>
      obtain ⟨a, b, c', d, hdigits, hunit⟩ := unit?_digits (n := c.toNat) (by omega)
      rw [hdigits, pieceOf, if_pos ⟨hcontrol, hnone⟩]
      exact .unit hunit
    · next hcontrol =>
      rw [pieceOf, if_neg fun h => hcontrol h.1]
      exact .plain hquote hescape (Nat.not_lt.mp hcontrol)

theorem characters?_pieceOf (c : Char) (t : Text) :
    characters? (pieceOf c :: t) = (characters? t).map (c :: ·) := by
  unfold pieceOf
  split
  · next h =>
    have hsmall := h.1
    rw [characters?_unit (by omega), Char.ofNat_toNat]
  · rfl

/-- What is written for a string is read as the string. -/
theorem written_ofString (s : String) : Written (ofString s) (s.toList.flatMap escape ++ ['"']) := by
  unfold ofString
  generalize s.toList = cs
  induction cs with
  | nil => exact .nil
  | cons c cs ih =>
    rw [List.flatMap_cons, List.append_assoc]
    exact .cons (written_pieceOf c) ih

theorem toString?_ofString (s : String) : (ofString s).toString? = some s := by
  have hmeans (cs : List Char) : characters? (cs.map pieceOf) = some cs := by
    induction cs with
    | nil => rfl
    | cons c cs ih => rw [List.map_cons, characters?_pieceOf, ih, Option.map_some]
  rw [toString?, ofString, hmeans, Option.map_some, String.ofList_toList]

end Text

end Ancestry.Json
