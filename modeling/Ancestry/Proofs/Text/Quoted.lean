import Ancestry.Digits
import Ancestry.Hex
import Ancestry.Text.Quoted

/-!
# Quoted characters are told apart

A message that quotes a character names it, whatever the character would do to the text around it:
nothing in the quoted text is hidden, and no two characters are quoted alike.
-/

namespace Ancestry.Text

variable {c d x : Char} {cs : List Char}

theorem exists_digitChar {n : Nat} (h : x ∈ Nat.toDigits 16 n) : ∃ k < 16, Nat.digitChar k = x := by
  induction n using Nat.strongRecOn with
  | ind n ih =>
    rw [Nat.toDigits_eq_if (by decide)] at h
    split at h
    · next hlt => exact ⟨n, hlt, (List.mem_singleton.mp h).symm⟩
    · next hle =>
      rcases List.mem_append.mp h with h | h
      · exact ih (n / 16) (by omega) h
      · exact ⟨n % 16, Nat.mod_lt n (by decide), (List.mem_singleton.mp h).symm⟩

theorem value_toDigits (n : Nat) :
    Digits.value 16 ((Nat.toDigits 16 n).filterMap Hex.digit?) = n := by
  induction n using Nat.strongRecOn with
  | ind n ih =>
    rw [Nat.toDigits_eq_if (by decide)]
    split
    · next hlt =>
      rw [List.filterMap_cons_some (Hex.digit?_digitChar hlt)]
      exact Nat.zero_add n
    · next hle =>
      have hlast := Hex.digit?_digitChar (Nat.mod_lt n (by decide : 0 < 16))
      rw [List.filterMap_append, List.filterMap_cons_some hlast, List.filterMap_nil,
        Digits.value_append, ih (n / 16) (by omega)]
      change n / 16 * 16 + (0 + n % 16) = n
      omega

theorem toDigits_inj {m n : Nat} (h : Nat.toDigits 16 m = Nat.toDigits 16 n) : m = n := by
  rw [← value_toDigits m, h, value_toDigits]

/-- The characters with an escape of their own, and the letters that stand for them. -/
def letters : List (Char × Char) :=
  [('\x00', '0'), ('\t', 't'), ('\n', 'n'), ('\r', 'r'), ('\\', '\\'), ('\x27', '\x27')]

inductive Escapes (c : Char) : List Char → Prop
  | letter (x : Char) : (c, x) ∈ letters → Escapes c ['\\', x]
  | codePoint : isHidden c → Escapes c (['\\', 'u', '\x7b'] ++ Nat.toDigits 16 c.toNat ++ ['\x7d'])
  | plain : isHidden c = false → c ≠ '\\' → Escapes c [c]

theorem escapes_escape (c : Char) : Escapes c (escape c).toList := by
  unfold escape
  split
  · exact .letter '0' (by decide)
  · exact .letter 't' (by decide)
  · exact .letter 'n' (by decide)
  · exact .letter 'r' (by decide)
  · exact .letter '\\' (by decide)
  · exact .letter '\x27' (by decide)
  · next hbackslash _ =>
    split
    · next hhidden =>
      have htext : (codePoint c).toList =
          ['\\', 'u', '\x7b'] ++ Nat.toDigits 16 c.toNat ++ ['\x7d'] := by
        simp only [codePoint, String.toList_append, String.toList_ofList]
        rfl
      rw [htext]
      exact .codePoint hhidden
    · next hshown =>
      have htext : c.toString.toList = [c] := by simp
      rw [htext]
      exact .plain (Bool.eq_false_iff.mpr hshown) hbackslash

namespace Escapes

theorem isHidden_of_mem (h : Escapes c cs) (hx : x ∈ cs) : isHidden x = false := by
  have hvisible {cs : List Char} (h : cs.all fun y => !isHidden y) :
      ∀ y ∈ cs, isHidden y = false := fun y hy => (Bool.not_eq_true' _).mp (List.all_eq_true.mp h y hy)
  have hsigns := @hvisible (['\\', 'u', '\x7b'] ++ ['\x7d']) (by decide +kernel)
  have hletters := @hvisible (letters.map Prod.snd) (by decide +kernel)
  have hdigits := @hvisible ((List.range 16).map Nat.digitChar) (by decide +kernel)
  cases h with
  | letter y hy =>
    rcases List.mem_cons.mp hx with rfl | hx
    · exact hsigns _ (by simp)
    · rw [List.mem_singleton.mp hx]
      exact hletters y (List.mem_map.mpr ⟨_, hy, rfl⟩)
  | codePoint hhidden =>
    rcases List.mem_append.mp hx with hx | hx
    · rcases List.mem_append.mp hx with hx | hx
      · exact hsigns x (List.mem_append_left _ hx)
      · obtain ⟨k, hk, rfl⟩ := exists_digitChar hx
        exact hdigits _ (List.mem_map.mpr ⟨k, List.mem_range.mpr hk, rfl⟩)
    · exact hsigns x (List.mem_append_right _ hx)
  | plain hshown =>
    rw [List.mem_singleton.mp hx]
    exact hshown

theorem inj {ds : List Char} (hc : Escapes c cs) (hd : Escapes d ds) (h : cs = ds) : c = d := by
  have hletters : ∀ p ∈ letters, ∀ q ∈ letters, p.2 = q.2 → p.1 = q.1 := by decide
  have hlength := congrArg List.length h
  cases hc with
  | letter x hx =>
    cases hd with
    | letter y hy => exact hletters _ hx _ hy (List.cons.inj (List.cons.inj h).2).1
    | codePoint _ => simp at hlength
    | plain _ _ => cases hlength
  | codePoint _ =>
    cases hd with
    | letter y hy => simp at hlength
    | codePoint _ =>
      have hdigits := List.append_cancel_left (List.append_cancel_right h)
      exact Char.toNat_inj.mp (toDigits_inj hdigits)
    | plain _ _ => simp at hlength
  | plain _ _ =>
    cases hd with
    | letter y hy => cases hlength
    | codePoint _ => simp at hlength
    | plain _ _ => exact (List.cons.inj h).1

end Escapes

/-- All that is shown of a quoted character is visible, and tells it from every other. -/
theorem quoted_shows (c : Char) : (∀ x ∈ (quoted c).toList, isHidden x = false) ∧
    ∀ d, quoted c = quoted d ↔ c = d := by
  have hquoted (d : Char) : (quoted d).toList = ['\x27'] ++ (escape d).toList ++ ['\x27'] := by
    have hquote : "'".toList = ['\x27'] := by decide
    rw [quoted, String.toList_append, String.toList_append, hquote]
  have hmark : isHidden '\x27' = false := by decide +kernel
  constructor
  · intro x hx
    rw [hquoted] at hx
    simp only [List.mem_append, List.mem_singleton] at hx
    rcases hx with (rfl | hx) | rfl
    · exact hmark
    · exact (escapes_escape c).isHidden_of_mem hx
    · exact hmark
  · intro d
    constructor
    · intro h
      have htext := congrArg String.toList h
      rw [hquoted, hquoted] at htext
      exact (escapes_escape c).inj (escapes_escape d)
        (List.append_cancel_left (List.append_cancel_right htext))
    · rintro rfl
      rfl

example : quoted '\n' = "'\\n'" := by decide +kernel
example : quoted (Char.ofNat 0x301) = "'\\u\x7b301\x7d'" := by decide +kernel
example : quoted '\uff9e' = "'\uff9e'" := by decide +kernel

end Ancestry.Text
