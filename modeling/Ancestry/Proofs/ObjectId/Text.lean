import Ancestry.ObjectId.Text
import Ancestry.Proofs.ObjectId.Order

/-!
# Which texts are abbreviated ids

Reading an abbreviated id is described by the text alone. A text of one to forty hexadecimal digits
is read as an id that, written out, begins with the same digits in lower case and goes on with
zeros. Every other text is refused, for the first reason that applies: it is empty, it is too long,
or a character in it is no digit.
-/

namespace Ancestry

attribute [local instance (high)] instPowNat

namespace Hex

def alphabet : List Char := "0123456789abcdefABCDEF".toList

theorem toNat_lt_of_isDigit {c : Char} (h : isDigit c) : c.toNat < 128 := by
  have key : ∀ a : Char, c ≤ a → c.toNat ≤ a.toNat := fun a ha => ha
  obtain ⟨d, hd⟩ := Option.isSome_iff_exists.mp h
  unfold digit? at hd
  split at hd
  · next hc => exact Nat.lt_of_le_of_lt (key _ hc.2) (by decide)
  · split at hd
    · next hc => exact Nat.lt_of_le_of_lt (key _ hc.2) (by decide)
    · split at hd
      · next hc => exact Nat.lt_of_le_of_lt (key _ hc.2) (by decide)
      · cases hd

theorem isDigit_iff_mem_alphabet {c : Char} : isDigit c ↔ c ∈ alphabet := by
  constructor
  · intro h
    have all : ∀ n < 128, isDigit (Char.ofNat n) → Char.ofNat n ∈ alphabet := by decide
    have hmem := all c.toNat (toNat_lt_of_isDigit h)
    rw [Char.ofNat_toNat] at hmem
    exact hmem h
  · intro h
    have all : alphabet.all isDigit := by decide
    exact List.all_eq_true.mp all c h

theorem utf8Size_of_mem_alphabet {c : Char} (h : c ∈ alphabet) : c.utf8Size = 1 := by
  have all : alphabet.all (·.utf8Size = 1) := by decide
  exact of_decide_eq_true (List.all_eq_true.mp all c h)

theorem exists_digit {c : Char} (h : c ∈ alphabet) :
    ∃ d, digit? c = some d ∧ Nat.digitChar d = c.toLower := by
  have all : alphabet.all fun c => (digit? c).map Nat.digitChar = some c.toLower := by decide
  exact Option.map_eq_some_iff.mp (of_decide_eq_true (List.all_eq_true.mp all c h))

theorem map_digitChar_filterMap_digit? {cs : List Char} (h : ∀ c ∈ cs, c ∈ alphabet) :
    (cs.filterMap digit?).map Nat.digitChar = cs.map Char.toLower := by
  induction cs with
  | nil => rfl
  | cons c cs ih =>
    obtain ⟨d, hd, hchar⟩ := exists_digit (h c List.mem_cons_self)
    rw [List.filterMap_cons_some hd, List.map_cons, hchar,
      ih fun x hx => h x (List.mem_cons_of_mem c hx), List.map_cons]

theorem length_filterMap_digit? {cs : List Char} (h : ∀ c ∈ cs, c ∈ alphabet) :
    (cs.filterMap digit?).length = cs.length := by
  have hlength := congrArg List.length (map_digitChar_filterMap_digit? h)
  rwa [List.length_map, List.length_map] at hlength

theorem lt_of_mem_filterMap_digit? {cs : List Char} {d : Nat} (h : d ∈ cs.filterMap digit?) :
    d < 16 := by
  obtain ⟨c, _, hc⟩ := List.mem_filterMap.mp h
  exact digit?_lt hc

theorem filterMap_digit?_map_digitChar {ds : List Nat} (h : ∀ d ∈ ds, d < 16) :
    (ds.map Nat.digitChar).filterMap digit? = ds := by
  induction ds with
  | nil => rfl
  | cons d ds ih =>
    have hd := digit?_digitChar (h d List.mem_cons_self)
    rw [List.map_cons, List.filterMap_cons_some hd,
      ih fun x hx => h x (List.mem_cons_of_mem d hx)]

theorem map_digitChar_inj {ds es : List Nat} (hds : ∀ d ∈ ds, d < 16) (hes : ∀ e ∈ es, e < 16) :
    ds.map Nat.digitChar = es.map Nat.digitChar ↔ ds = es := by
  constructor
  · intro h
    rw [← filterMap_digit?_map_digitChar hds, h, filterMap_digit?_map_digitChar hes]
  · rintro rfl
    rfl

theorem utf8ByteSize_ofList {cs : List Char} (h : ∀ c ∈ cs, c ∈ alphabet) :
    (String.ofList cs).utf8ByteSize = cs.length := by
  induction cs with
  | nil => rfl
  | cons c cs ih =>
    have hc := utf8Size_of_mem_alphabet (h c List.mem_cons_self)
    have hcs := ih fun x hx => h x (List.mem_cons_of_mem c hx)
    rw [← List.singleton_append, String.ofList_append, String.utf8ByteSize_append, hcs,
      ← String.singleton_eq_ofList, String.utf8ByteSize_singleton, hc]
    exact Nat.add_comm 1 _

theorem utf8ByteSize_eq_length {text : String} (h : ∀ c ∈ text.toList, c ∈ alphabet) :
    text.utf8ByteSize = text.length := by
  have hsize := utf8ByteSize_ofList h
  rwa [String.ofList_toList, String.length_toList] at hsize

theorem find?_eq_some_iff {cs : List Char} {c : Char} :
    cs.find? (fun c => !isDigit c) = some c ↔ c ∉ alphabet ∧
      ∃ before after, cs = before ++ c :: after ∧ ∀ x ∈ before, x ∈ alphabet := by
  simp only [List.find?_eq_some_iff_append, ← isDigit_iff_mem_alphabet, Bool.not_eq_true',
    Bool.not_not, Bool.not_eq_true]

theorem find?_eq_none_iff {cs : List Char} :
    cs.find? (fun c => !isDigit c) = none ↔ ∀ c ∈ cs, c ∈ alphabet := by
  simp only [List.find?_eq_none, ← isDigit_iff_mem_alphabet, Bool.not_eq_true', Bool.not_eq_false]

end Hex

namespace ObjectId

variable {a b : ObjectId} {n : Nat}

theorem lt_of_mem_digits {d : Nat} (h : d ∈ a.digits) : d < 16 :=
  Digits.lt_of_mem_ofNat (by decide) h

theorem toList_toHex (id : ObjectId) : id.toHex.toList = id.digits.map Nat.digitChar :=
  String.toList_ofList

theorem toList_abbreviate (id : ObjectId) (n : Nat) :
    (id.abbreviate n).toList = id.toHex.toList.take n := by
  rw [toList_toHex, ← List.map_take]
  exact String.toList_ofList

theorem digits_ofNat_value {ds : List Nat} (hlength : ds.length = digitCount)
    (hds : ∀ d ∈ ds, d < 16) : (ofNat (Digits.value 16 ds)).digits = ds := by
  have hlt : Digits.value 16 ds < 256 ^ Sha1.size := by
    have hvalue := Digits.value_lt hds
    rwa [hlength] at hvalue
  have hnumber : (ofNat (Digits.value 16 ds)).number = Digits.value 16 ds := Nat.mod_eq_of_lt hlt
  rw [digits, hnumber, ← hlength, Digits.ofNat_value hds]

theorem digits_ofNat_padded {ds : List Nat} (hlength : ds.length ≤ digitCount)
    (hds : ∀ d ∈ ds, d < 16) :
    (ofNat (Digits.value 16 ds * 16 ^ (digitCount - ds.length))).digits =
      ds ++ List.replicate (digitCount - ds.length) 0 := by
  rw [← Digits.value_append_replicate]
  apply digits_ofNat_value
  · rw [List.length_append, List.length_replicate]
    exact Nat.add_sub_cancel' hlength
  · intro d hd
    rcases List.mem_append.mp hd with hd | hd
    · exact hds d hd
    · rw [List.eq_of_mem_replicate hd]
      decide

/-- Written out, ids begin alike exactly if they share their first digits. -/
theorem take_toHex_eq_iff :
    a.toHex.toList.take n = b.toHex.toList.take n ↔ a.digits.take n = b.digits.take n := by
  rw [toList_toHex, toList_toHex, ← List.map_take, ← List.map_take]
  exact Hex.map_digitChar_inj (fun d hd => lt_of_mem_digits (List.mem_of_mem_take hd))
    fun d hd => lt_of_mem_digits (List.mem_of_mem_take hd)

theorem toHex_inj : a.toHex = b.toHex ↔ a = b := by
  constructor
  · intro h
    apply eq_of_sharesDigits (Nat.le_refl digitCount)
    rw [← take_digits_eq_iff, ← take_toHex_eq_iff, h]
  · rintro rfl
    rfl

end ObjectId

namespace Abbreviation

structure Readable (text : String) : Prop where
  pos : 0 < text.length
  length_le : text.length ≤ ObjectId.digitCount
  digits : ∀ c ∈ text.toList, c ∈ Hex.alphabet

instance (text : String) : Decidable (Readable text) :=
  decidable_of_iff (0 < text.length ∧ text.length ≤ ObjectId.digitCount ∧
      text.toList.all (· ∈ Hex.alphabet))
    ⟨fun ⟨pos, length_le, digits⟩ =>
        ⟨pos, length_le, fun c hc => of_decide_eq_true (List.all_eq_true.mp digits c hc)⟩,
      fun h => ⟨h.pos, h.length_le,
        List.all_eq_true.mpr fun c hc => decide_eq_true (h.digits c hc)⟩⟩

/-- Why a text is no abbreviated id. An earlier reason goes before a later one. -/
inductive Refused (text : String) : IdError → Prop
  | noDigits : text = "" → Refused text .noDigits
  | tooManyDigits : ObjectId.digitCount < text.utf8ByteSize →
      Refused text (.tooManyDigits text.utf8ByteSize)
  | badDigit {before after : List Char} {c : Char} : text.utf8ByteSize ≤ ObjectId.digitCount →
      text.toList = before ++ c :: after → (∀ x ∈ before, x ∈ Hex.alphabet) → c ∉ Hex.alphabet →
      Refused text (.badDigit c)

/-- The abbreviation is the text in lower case, with zeros behind it. -/
structure Spells (a : Abbreviation) (text : String) : Prop where
  length : a.length = text.length
  digits : a.id.toHex.toList =
    text.toLower.toList ++ List.replicate (ObjectId.digitCount - text.length) '0'

variable {text : String} {a b : Abbreviation} {e : IdError}

theorem toList_toLower (text : String) : text.toLower.toList = text.toList.map Char.toLower :=
  String.toList_map

theorem length_toLower (text : String) : text.toLower.toList.length = text.length := by
  rw [toList_toLower, List.length_map, String.length_toList]

namespace Spells

theorem unique (ha : a.Spells text) (hb : b.Spells text) : a = b := by
  obtain ⟨id, length⟩ := a
  obtain ⟨id', length'⟩ := b
  obtain rfl : length = length' := ha.length.trans hb.length.symm
  obtain rfl : id = id' :=
    ObjectId.toHex_inj.mp (String.toList_inj.mp (ha.digits.trans hb.digits.symm))
  rfl

theorem take_toHex (h : a.Spells text) :
    a.id.toHex.toList.take a.length = text.toLower.toList := by
  rw [h.digits]
  exact List.take_left' ((length_toLower text).trans h.length.symm)

theorem abbreviate_eq (h : a.Spells text) : a.id.abbreviate a.length = text.toLower := by
  rw [← String.toList_inj, ObjectId.toList_abbreviate, h.take_toHex]

end Spells

theorem readable_or_refused (text : String) : Readable text ∨ ∃ e, Refused text e := by
  by_cases hempty : text = ""
  · exact .inr ⟨_, .noDigits hempty⟩
  by_cases hlong : ObjectId.digitCount < text.utf8ByteSize
  · exact .inr ⟨_, .tooManyDigits hlong⟩
  have hshort := Nat.not_lt.mp hlong
  cases hfind : text.toList.find? (fun c => !Hex.isDigit c) with
  | some c =>
    obtain ⟨hc, before, after, htext, hbefore⟩ := Hex.find?_eq_some_iff.mp hfind
    exact .inr ⟨_, .badDigit hshort htext hbefore hc⟩
  | none =>
    have hdigits := Hex.find?_eq_none_iff.mp hfind
    have hsize := Hex.utf8ByteSize_eq_length hdigits
    have hne := mt String.utf8ByteSize_eq_zero_iff.mp hempty
    exact .inl ⟨by omega, by omega, hdigits⟩

theorem ofText_of_refused (h : Refused text e) : ofText text = .error e := by
  unfold ofText
  cases h with
  | noDigits hempty => exact if_pos (String.utf8ByteSize_eq_zero_iff.mpr hempty)
  | tooManyDigits hlong =>
    rw [if_neg (Nat.ne_of_gt (Nat.zero_lt_of_lt hlong)), if_pos hlong]
  | @badDigit before after c hshort htext hbefore hc =>
    have hfind := Hex.find?_eq_some_iff.mpr ⟨hc, before, after, htext, hbefore⟩
    have hne : text.utf8ByteSize ≠ 0 := by
      intro hzero
      rw [String.utf8ByteSize_eq_zero_iff.mp hzero] at htext
      exact List.append_ne_nil_of_right_ne_nil before (List.cons_ne_nil c after) htext.symm
    rw [if_neg hne, if_neg (Nat.not_lt.mpr hshort), hfind]

theorem ofText_of_readable (h : Readable text) :
    ofText text = .ok ⟨.ofNat (Digits.value 16 (text.toList.filterMap Hex.digit?) *
      16 ^ (ObjectId.digitCount - text.length)), text.length⟩ := by
  have hsize := Hex.utf8ByteSize_eq_length h.digits
  have hpos := h.pos
  have hle := h.length_le
  unfold ofText
  rw [if_neg (by omega), if_neg (by omega), Hex.find?_eq_none_iff.mpr h.digits, hsize]

theorem digits_of_readable (h : Readable text) :
    (ObjectId.ofNat (Digits.value 16 (text.toList.filterMap Hex.digit?) *
      16 ^ (ObjectId.digitCount - text.length))).digits =
        text.toList.filterMap Hex.digit? ++
          List.replicate (ObjectId.digitCount - text.length) 0 := by
  have hlength := Hex.length_filterMap_digit? h.digits
  rw [String.length_toList] at hlength
  have hpadded := ObjectId.digits_ofNat_padded (hlength ▸ h.length_le) fun d hd =>
    Hex.lt_of_mem_filterMap_digit? hd
  rwa [hlength] at hpadded

theorem exists_ofText_of_readable (h : Readable text) :
    ∃ a, ofText text = .ok a ∧ a.Spells text := by
  refine ⟨_, ofText_of_readable h, rfl, ?_⟩
  rw [ObjectId.toList_toHex, digits_of_readable h, List.map_append,
    Hex.map_digitChar_filterMap_digit? h.digits, toList_toLower, List.map_replicate]
  rfl

theorem ofText_eq_ok_iff : ofText text = .ok a ↔ Readable text ∧ a.Spells text := by
  constructor
  · intro h
    rcases readable_or_refused text with hread | ⟨e, hrefused⟩
    · obtain ⟨b, hb, hspells⟩ := exists_ofText_of_readable hread
      cases h.symm.trans hb
      exact ⟨hread, hspells⟩
    · cases h.symm.trans (ofText_of_refused hrefused)
  · intro h
    rcases h with ⟨hread, hspells⟩
    obtain ⟨b, hb, hspells'⟩ := exists_ofText_of_readable hread
    rwa [hspells.unique hspells']

theorem ofText_eq_error_iff : ofText text = .error e ↔ Refused text e := by
  constructor
  · intro h
    rcases readable_or_refused text with hread | ⟨e', hrefused⟩
    · obtain ⟨b, hb, _⟩ := exists_ofText_of_readable hread
      cases h.symm.trans hb
    · cases h.symm.trans (ofText_of_refused hrefused)
      exact hrefused
  · exact ofText_of_refused

end Abbreviation

end Ancestry
