import Ancestry.Proofs.ObjectId.Halves
import Ancestry.Proofs.Outcome

/-!
# Full ids in text

Both readers take the same texts of forty digits and read the same id from them, though a full id is
read byte by byte and an abbreviated one character by character. A digit takes one byte and every
other character has a byte that is no digit, so the bytes tell what the characters tell. A text
that is read at all may be cut anywhere, and its bytes up to there spell the first digits.
-/

namespace Ancestry

attribute [local instance (high)] instPowNat

namespace Hex

theorem utf8EncodeChar_of_mem_alphabet {c : Char} (h : c ∈ alphabet) :
    String.utf8EncodeChar c = [UInt8.ofNat c.toNat] := by
  have all : alphabet.all fun c => String.utf8EncodeChar c = [UInt8.ofNat c.toNat] := by decide
  exact of_decide_eq_true (List.all_eq_true.mp all c h)

theorem ofNat_toNat_of_mem_alphabet {c : Char} (h : c ∈ alphabet) :
    Char.ofNat (UInt8.ofNat c.toNat).toNat = c := by
  have all : alphabet.all fun c => Char.ofNat (UInt8.ofNat c.toNat).toNat = c := by decide
  exact of_decide_eq_true (List.all_eq_true.mp all c h)

theorem digit?_eq_none_of_le {b : UInt8} (h : 128 ≤ b.toNat) :
    digit? (Char.ofNat b.toNat) = none := by
  have all : ∀ n < 256, 128 ≤ n → digit? (Char.ofNat n) = none := by decide +kernel
  exact all b.toNat b.toNat_lt h

/-- The first byte of a character that is no digit is none either. -/
theorem exists_utf8EncodeChar {c : Char} (h : c ∉ alphabet) :
    ∃ b bs, String.utf8EncodeChar c = b :: bs ∧ digit? (Char.ofNat b.toNat) = none := by
  have hnone : digit? c = none := by
    rw [← Option.not_isSome_iff_eq_none]
    exact mt isDigit_iff_mem_alphabet.mp h
  have hval : c.val.toNat = c.toNat := rfl
  have hlead (n k : Nat) (hk : k = 192 ∨ k = 224 ∨ k = 240) (hn : n + k < 256) :
      128 ≤ (UInt8.ofNat (n + k)).toNat := by
    rw [UInt8.toNat_ofNat_of_lt' hn]
    omega
  unfold String.utf8EncodeChar
  rw [hval]
  by_cases h1 : c.toNat ≤ 127
  · have hbyte : (UInt8.ofNat c.toNat).toNat = c.toNat :=
      UInt8.toNat_ofNat_of_lt' (Nat.lt_of_le_of_lt h1 (by decide))
    refine ⟨_, _, if_pos h1, ?_⟩
    rwa [hbyte, Char.ofNat_toNat]
  simp only [if_neg h1]
  by_cases h2 : c.toNat ≤ 2047
  · exact ⟨_, _, if_pos h2, digit?_eq_none_of_le (hlead _ _ (by simp) (by omega))⟩
  simp only [if_neg h2]
  by_cases h3 : c.toNat ≤ 65535
  · exact ⟨_, _, if_pos h3, digit?_eq_none_of_le (hlead _ _ (by simp) (by omega))⟩
  · exact ⟨_, _, if_neg h3, digit?_eq_none_of_le (hlead _ _ (by simp) (by omega))⟩

theorem toUTF8_eq (text : String) :
    text.toUTF8.data.toList = text.toList.flatMap String.utf8EncodeChar := by
  have htext : (String.ofList text.toList).toByteArray = text.toList.utf8Encode :=
    String.toByteArray_ofList
  rw [String.ofList_toList] at htext
  rw [String.toUTF8, htext, List.utf8Encode, List.toList_data_toByteArray]

theorem toUTF8_eq_map {text : String} (h : ∀ c ∈ text.toList, c ∈ alphabet) :
    text.toUTF8.data.toList = text.toList.map fun c => UInt8.ofNat c.toNat := by
  rw [toUTF8_eq]
  generalize text.toList = cs at h
  induction cs with
  | nil => rfl
  | cons c cs ih =>
    rw [List.flatMap_cons, List.map_cons, utf8EncodeChar_of_mem_alphabet (h c List.mem_cons_self),
      ih fun x hx => h x (List.mem_cons_of_mem c hx)]
    rfl

/-- Digits two to a byte, the first of each two in the high half. -/
def pairs : List Nat → Bytes
  | d :: e :: rest => (UInt8.ofNat d <<< 4 ||| UInt8.ofNat e) :: pairs rest
  | _ => []

/-- Decodes digits given as ASCII bytes to just as many bytes as there is room for. -/
def decode (room : Nat) (bytes : Bytes) : Except HexFault Bytes :=
  if bytes.length % 2 = 1 then .error .oddLength
  else if bytes.length / 2 ≠ room then .error .wrongLength
  else (ObjectId.digitsOfBytes 0 bytes).map pairs

theorem halves_pair {d e : Nat} (hd : d < 16) (he : e < 16) :
    Bytes.halves (UInt8.ofNat d <<< 4 ||| UInt8.ofNat e) = [d, e] := by
  have all : ∀ d < 16, ∀ e < 16,
      Bytes.halves (UInt8.ofNat d <<< 4 ||| UInt8.ofNat e) = [d, e] := by decide +kernel
  exact all d hd e he

theorem eq_nil_of_even {ds : List Nat} (hshort : ∀ d e rest, ds = d :: e :: rest → False)
    (heven : ds.length % 2 = 0) : ds = [] := by
  match ds with
  | [] => rfl
  | [d] => cases heven
  | d :: e :: rest => exact (hshort d e rest rfl).elim

theorem length_pairs (ds : List Nat) : (pairs ds).length = ds.length / 2 := by
  fun_induction pairs ds with
  | case1 d e rest ih =>
    rw [List.length_cons, ih, List.length_cons, List.length_cons]
    omega
  | case2 ds hshort =>
    match ds with
    | [] => rfl
    | [d] => simp
    | d :: e :: rest => exact absurd rfl (hshort d e rest)

theorem pairs_append {ds : List Nat} (es : List Nat) (heven : ds.length % 2 = 0) :
    pairs (ds ++ es) = pairs ds ++ pairs es := by
  fun_induction pairs ds with
  | case1 d e rest ih =>
    rw [List.length_cons, List.length_cons] at heven
    rw [List.cons_append, List.cons_append, pairs, ih (by omega), List.cons_append]
  | case2 ds hshort =>
    rw [eq_nil_of_even hshort heven]
    rfl

theorem flatMap_halves_pairs {ds : List Nat} (hds : ∀ d ∈ ds, d < 16) (heven : ds.length % 2 = 0) :
    (pairs ds).flatMap Bytes.halves = ds := by
  fun_induction pairs ds with
  | case1 d e rest ih =>
    obtain ⟨hd, hrest⟩ := List.forall_mem_cons.mp hds
    obtain ⟨he, hrest⟩ := List.forall_mem_cons.mp hrest
    rw [List.length_cons, List.length_cons] at heven
    rw [List.flatMap_cons, halves_pair hd he, ih hrest (by omega)]
    rfl
  | case2 ds hshort =>
    rw [eq_nil_of_even hshort heven]
    rfl

end Hex

namespace ObjectId

def decode (text : String) : Except IdError ObjectId :=
  ((Hex.decode byteCount text.toUTF8.data.toList).mapError .badHex).map ofBytes

variable {text : String} {id : ObjectId}

theorem digitsOfBytes_map {cs : List Char} (h : ∀ c ∈ cs, c ∈ Hex.alphabet) (position : Nat) :
    digitsOfBytes position (cs.map fun c => UInt8.ofNat c.toNat) =
      .ok (cs.filterMap Hex.digit?) := by
  induction cs generalizing position with
  | nil => rfl
  | cons c cs ih =>
    obtain ⟨d, hd, _⟩ := Hex.exists_digit (h c List.mem_cons_self)
    rw [List.map_cons, digitsOfBytes, Hex.ofNat_toNat_of_mem_alphabet (h c List.mem_cons_self), hd,
      ih (fun x hx => h x (List.mem_cons_of_mem c hx)), List.filterMap_cons_some hd]
    rfl

/-- Bytes are only read as digits if the characters that they make up are digits. -/
theorem mem_alphabet_of_digitsOfBytes {cs : List Char} {position : Nat} {ds : List Nat}
    (h : digitsOfBytes position (cs.flatMap String.utf8EncodeChar) = .ok ds) :
    ∀ c ∈ cs, c ∈ Hex.alphabet := by
  induction cs generalizing position ds with
  | nil => exact fun c hc => absurd hc List.not_mem_nil
  | cons c cs ih =>
    rw [List.flatMap_cons] at h
    by_cases hc : c ∈ Hex.alphabet
    · rw [Hex.utf8EncodeChar_of_mem_alphabet hc, List.singleton_append, digitsOfBytes] at h
      split at h
      · cases h
      · obtain ⟨es, hes, _⟩ := Outcome.map_eq_ok.mp h
        exact List.forall_mem_cons.mpr ⟨hc, ih hes⟩
    · obtain ⟨b, bs, hbytes, hnone⟩ := Hex.exists_utf8EncodeChar hc
      rw [hbytes, List.cons_append, digitsOfBytes, hnone] at h
      cases h

theorem lt_of_digitsOfBytes {bytes : Bytes} {position : Nat} {ds : List Nat}
    (h : digitsOfBytes position bytes = .ok ds) : ds.length = bytes.length ∧ ∀ d ∈ ds, d < 16 := by
  induction bytes generalizing position ds with
  | nil =>
    cases h
    exact ⟨rfl, fun d hd => absurd hd List.not_mem_nil⟩
  | cons b bytes ih =>
    rw [digitsOfBytes] at h
    split at h
    · cases h
    · next d hd =>
      obtain ⟨es, hes, rfl⟩ := Outcome.map_eq_ok.mp h
      obtain ⟨hlength, hlt⟩ := ih hes
      exact ⟨congrArg (· + 1) hlength, List.forall_mem_cons.mpr ⟨Hex.digit?_lt hd, hlt⟩⟩

theorem ofBytes_eq {bytes : Bytes} {ds : List Nat} (hlength : bytes.length = byteCount)
    (hhalves : bytes.flatMap Bytes.halves = ds) : ofBytes bytes = ofNat (Digits.value 16 ds) := by
  rw [← hhalves, ← toBytes_ofBytes hlength, ← digits_eq_halves, ofBytes_toBytes, ← number_eq,
    ofNat_number]

/-- A full id is read as it is decoded. -/
theorem ofHex_eq_decode (text : String) : ofHex text = decode text := by
  unfold ofHex decode Hex.decode
  by_cases hodd : text.toUTF8.data.toList.length % 2 = 1
  · simp only [if_pos hodd]
    rfl
  by_cases hlength : text.toUTF8.data.toList.length = digitCount
  · have hroom : text.toUTF8.data.toList.length / 2 = byteCount := by
      rw [hlength]
      rfl
    rw [if_neg hodd, if_neg (not_not_intro hlength), if_neg hodd, if_neg (not_not_intro hroom)]
    cases hds : digitsOfBytes 0 text.toUTF8.data.toList with
    | error fault => rfl
    | ok ds =>
      obtain ⟨hsize, hlt⟩ := lt_of_digitsOfBytes hds
      rw [hlength] at hsize
      have hid : ofBytes (Hex.pairs ds) = _ :=
        ofBytes_eq (by rw [Hex.length_pairs, hsize]; rfl)
          (Hex.flatMap_halves_pairs hlt (by rw [hsize]; rfl))
      exact congrArg Except.ok hid.symm
  · have hroom : text.toUTF8.data.toList.length / 2 ≠ byteCount := by
      change ¬ _ = 40 at hlength
      change ¬ _ = 20
      omega
    simp only [if_neg hodd, ne_eq, hlength, hroom, not_false_eq_true, if_true]
    rfl

structure Full (text : String) : Prop where
  digits : ∀ c ∈ text.toList, c ∈ Hex.alphabet
  length : text.length = digitCount

theorem ofHex_of_full (h : Full text) :
    ofHex text = .ok (ofNat (Digits.value 16 (text.toList.filterMap Hex.digit?))) := by
  have hbytes := Hex.toUTF8_eq_map h.digits
  have hlength : (text.toList.map fun c => UInt8.ofNat c.toNat).length = 40 := by
    rw [List.length_map, String.length_toList, h.length]
    rfl
  unfold ofHex
  simp only [hbytes, hlength, digitsOfBytes_map h.digits]
  rfl

theorem full_of_ofHex (h : ofHex text = .ok id) : Full text := by
  unfold ofHex at h
  simp only [Hex.toUTF8_eq] at h
  split at h
  · cases h
  split at h
  · cases h
  next hlength =>
    split at h
    · cases h
    next ds hds =>
      have hdigits := mem_alphabet_of_digitsOfBytes hds
      refine ⟨hdigits, ?_⟩
      have hsame := Hex.toUTF8_eq_map hdigits
      rw [Hex.toUTF8_eq] at hsame
      rw [hsame, List.length_map, String.length_toList] at hlength
      exact Decidable.not_not.mp hlength

theorem Full.readable (h : Full text) : Abbreviation.Readable text :=
  ⟨h.length ▸ by decide, Nat.le_of_eq h.length, h.digits⟩

/-- Both readers read the same full ids. -/
theorem ofHex_eq_ok_iff : ofHex text = .ok id ↔ Abbreviation.ofText text = .ok ⟨id, digitCount⟩ := by
  have hfull (h : Full text) : Abbreviation.ofText text =
      .ok ⟨ofNat (Digits.value 16 (text.toList.filterMap Hex.digit?)), digitCount⟩ := by
    rw [Abbreviation.ofText_of_readable h.readable, h.length, Nat.sub_self, Nat.pow_zero,
      Nat.mul_one]
  constructor
  · intro h
    have hid := (ofHex_of_full (full_of_ofHex h)).symm.trans h
    rw [hfull (full_of_ofHex h), Except.ok.inj hid]
  · intro h
    obtain ⟨hread, hspells⟩ := Abbreviation.ofText_eq_ok_iff.mp h
    have full : Full text := ⟨hread.digits, hspells.length.symm⟩
    have hid := (hfull full).symm.trans h
    rw [ofHex_of_full full, (Abbreviation.mk.inj (Except.ok.inj hid)).1]

theorem full_toHex (id : ObjectId) : Full id.toHex := by
  constructor
  · intro c hc
    rw [toList_toHex] at hc
    obtain ⟨d, hd, rfl⟩ := List.mem_map.mp hc
    apply Hex.isDigit_iff_mem_alphabet.mp
    rw [Hex.isDigit, Hex.digit?_digitChar (lt_of_mem_digits hd), Option.isSome_some]
  · rw [← String.length_toList, toList_toHex, List.length_map, length_digits]

theorem ofHex_toHex (id : ObjectId) : ofHex id.toHex = .ok id := by
  rw [ofHex_of_full (full_toHex id), toList_toHex,
    Hex.filterMap_digit?_map_digitChar fun d hd => lt_of_mem_digits hd, ← number_eq, ofNat_number]

end ObjectId

namespace Abbreviation

/-- Decodes digits into zeroed bytes: an even number of them two to a byte, and one digit more into
the high half of the byte behind. -/
def decodeDigits (bytes : Bytes) : Except IdError ObjectId :=
  let even := bytes.length - bytes.length % 2
  match Hex.decode (even / 2) (bytes.take even) with
  | .error fault => .error (.badHex fault)
  | .ok whole =>
    let zeroed := whole ++ List.replicate (ObjectId.byteCount - even / 2) 0
    if bytes.length % 2 = 0 then .ok (.ofBytes zeroed)
    else
      let c := Char.ofNat ((bytes.drop even).headD 0).toNat
      match Hex.digit? c with
      | none => .error (.badDigit c)
      | some d => .ok (.ofBytes (zeroed.set (even / 2) (UInt8.ofNat d <<< 4)))

/-- Decodes an abbreviated id. The bytes are only looked at if all characters are digits. -/
def decode (text : String) : Except IdError Abbreviation :=
  let bytes := text.toUTF8.data.toList
  if bytes.length = 0 then .error .noDigits
  else if ObjectId.digitCount < bytes.length then .error (.tooManyDigits bytes.length)
  else
    match text.toList.find? (fun c => !Hex.isDigit c) with
    | some c => .error (.badDigit c)
    | none => (decodeDigits bytes).map (⟨·, bytes.length⟩)

variable {text : String} {a : Abbreviation}

theorem isValid_of_digits {k : Nat} (h : ∀ c ∈ text.toList, c ∈ Hex.alphabet)
    (hk : k ≤ text.utf8ByteSize) : (String.Pos.Raw.mk k).IsValid text := by
  have hcut : k = (String.ofList (text.toList.take k)).utf8ByteSize := by
    rw [Hex.utf8ByteSize_ofList fun c hc => h c (List.mem_of_mem_take hc), List.length_take,
      String.length_toList, ← Hex.utf8ByteSize_eq_length h, Nat.min_eq_left hk]
  have hvalid := String.Pos.Raw.isValid_ofList.mpr ⟨k, hcut⟩
  rwa [String.ofList_toList] at hvalid

theorem take_filterMap_digit? {cs : List Char} (h : ∀ c ∈ cs, c ∈ Hex.alphabet) (k : Nat) :
    (cs.take k).filterMap Hex.digit? = (cs.filterMap Hex.digit?).take k := by
  induction cs generalizing k with
  | nil => simp
  | cons c cs ih =>
    obtain ⟨d, hd, _⟩ := Hex.exists_digit (h c List.mem_cons_self)
    cases k with
    | zero => rfl
    | succ k =>
      rw [List.take_succ_cons, List.filterMap_cons_some hd, List.filterMap_cons_some hd,
        List.take_succ_cons, ih fun x hx => h x (List.mem_cons_of_mem c hx)]

/-- What is read from a text begins with the digits of each leading part of its bytes. -/
theorem digitsOfBytes_take {k : Nat} (h : ofText text = .ok a) (hk : k ≤ text.utf8ByteSize) :
    ObjectId.digitsOfBytes 0 (text.toUTF8.data.toList.take k) = .ok (a.id.digits.take k) := by
  have hread := (ofText_eq_ok_iff.mp h).1
  have hid := h.symm.trans (ofText_of_readable hread)
  have hlength := Hex.length_filterMap_digit? hread.digits
  rw [String.length_toList, ← Hex.utf8ByteSize_eq_length hread.digits] at hlength
  have hprefix : ∀ c ∈ text.toList.take k, c ∈ Hex.alphabet :=
    fun c hc => hread.digits c (List.mem_of_mem_take hc)
  rw [Except.ok.inj hid, digits_of_readable hread, List.take_append_of_le_length (hlength ▸ hk),
    Hex.toUTF8_eq_map hread.digits, ← List.map_take, ObjectId.digitsOfBytes_map hprefix,
    take_filterMap_digit? hread.digits]

theorem ofBytes_append {ds : List Nat} (hds : ∀ d ∈ ds, d < 16) (heven : ds.length % 2 = 0)
    (hlength : ds.length ≤ ObjectId.digitCount) :
    ObjectId.ofBytes (Hex.pairs ds ++ List.replicate (ObjectId.byteCount - ds.length / 2) 0) =
      .ofNat (Digits.value 16 (ds ++ List.replicate (ObjectId.digitCount - ds.length) 0)) := by
  change ds.length ≤ 40 at hlength
  have hzeros : ObjectId.digitCount - ds.length = 2 * (ObjectId.byteCount - ds.length / 2) := by
    change 40 - _ = 2 * (20 - _)
    omega
  apply ObjectId.ofBytes_eq
  · rw [List.length_append, List.length_replicate, Hex.length_pairs]
    change _ + (20 - _) = 20
    omega
  · rw [List.flatMap_append, Hex.flatMap_halves_pairs hds heven, Bytes.flatMap_halves_replicate,
      hzeros]

theorem ofBytes_set {ds : List Nat} {d : Nat} (hds : ∀ x ∈ ds ++ [d], x < 16)
    (heven : ds.length % 2 = 0) (hlength : ds.length < ObjectId.digitCount) :
    ObjectId.ofBytes ((Hex.pairs ds ++
        List.replicate (ObjectId.byteCount - ds.length / 2) 0).set (ds.length / 2)
          (UInt8.ofNat d <<< 4)) =
      .ofNat (Digits.value 16
        (ds ++ [d] ++ List.replicate (ObjectId.digitCount - (ds.length + 1)) 0)) := by
  change ds.length < 40 at hlength
  obtain ⟨k, hk⟩ : ∃ k, ObjectId.byteCount - ds.length / 2 = k + 1 := by
    refine ⟨19 - ds.length / 2, ?_⟩
    change 20 - _ = _
    omega
  have hpairs : Hex.pairs (ds ++ [d, 0]) = Hex.pairs ds ++ [UInt8.ofNat d <<< 4] := by
    rw [Hex.pairs_append _ heven]
    exact congrArg (Hex.pairs ds ++ [·]) UInt8.or_zero
  have hset : (Hex.pairs ds ++ List.replicate (k + 1) 0).set (ds.length / 2)
      (UInt8.ofNat d <<< 4) = Hex.pairs (ds ++ [d, 0]) ++ List.replicate k 0 := by
    rw [hpairs, ← Hex.length_pairs, List.set_append_right _ _ (Nat.le_refl _), Nat.sub_self,
      List.append_assoc]
    rfl
  have hlong : (ds ++ [d, 0]).length = ds.length + 2 := List.length_append
  have happend := @ofBytes_append (ds ++ [d, 0]) (by simpa [or_imp, forall_and] using hds)
    (by omega) (by change _ ≤ 40; omega)
  have hleft : ObjectId.byteCount - (ds.length + 2) / 2 = k := by
    change 20 - _ = _ at hk
    change 20 - _ = _
    omega
  have hzeros : ObjectId.digitCount - (ds.length + 1) =
      ObjectId.digitCount - (ds.length + 2) + 1 := by
    change 40 - _ = 40 - _ + 1
    omega
  rw [hlong, hleft] at happend
  rw [hk, hset, happend, hzeros, List.replicate_succ]
  simp

theorem decode_map {cs : List Char} (h : ∀ c ∈ cs, c ∈ Hex.alphabet) (heven : cs.length % 2 = 0) :
    Hex.decode (cs.length / 2) (cs.map fun c => UInt8.ofNat c.toNat) =
      .ok (Hex.pairs (cs.filterMap Hex.digit?)) := by
  rw [Hex.decode, List.length_map, if_neg (by omega), if_neg (not_not_intro rfl),
    ObjectId.digitsOfBytes_map h]
  rfl

theorem decodeDigits_map {cs : List Char} (h : ∀ c ∈ cs, c ∈ Hex.alphabet)
    (hlength : cs.length ≤ ObjectId.digitCount) :
    decodeDigits (cs.map fun c => UInt8.ofNat c.toNat) = .ok (.ofNat (Digits.value 16
      (cs.filterMap Hex.digit? ++ List.replicate (ObjectId.digitCount - cs.length) 0))) := by
  have hds : ∀ d ∈ cs.filterMap Hex.digit?, d < 16 := fun d => Hex.lt_of_mem_filterMap_digit?
  unfold decodeDigits
  rw [List.length_map]
  by_cases heven : cs.length % 2 = 0
  · have hsize := Hex.length_filterMap_digit? h
    have hwhole : (cs.map fun c => UInt8.ofNat c.toNat).take cs.length = _ :=
      List.take_of_length_le (Nat.le_of_eq (List.length_map _))
    simp only [heven, Nat.sub_zero, hwhole, decode_map h heven, if_true]
    rw [← hsize, ofBytes_append hds (hsize ▸ heven) (hsize ▸ hlength)]
  · -- An odd number of digits is an even number of them and a last one.
    have hne : cs ≠ [] := fun hnil => heven (hnil ▸ rfl)
    obtain ⟨front, c, rfl⟩ : ∃ front c, cs = front ++ [c] :=
      ⟨cs.dropLast, cs.getLast hne, (List.dropLast_concat_getLast hne).symm⟩
    have hfront : ∀ x ∈ front, x ∈ Hex.alphabet := fun x hx => h x (List.mem_append_left _ hx)
    have hc : c ∈ Hex.alphabet := h c (by simp)
    obtain ⟨d, hd, _⟩ := Hex.exists_digit hc
    have hsize := Hex.length_filterMap_digit? hfront
    have hlast : (front ++ [c]).filterMap Hex.digit? = front.filterMap Hex.digit? ++ [d] := by
      rw [List.filterMap_append, List.filterMap_cons_some hd]
      rfl
    rw [List.length_append, List.length_singleton] at heven hlength
    have hbefore : front.length % 2 = 0 := by omega
    have hsplit : front.length + 1 - (front.length + 1) % 2 = front.length := by omega
    have htake : ((front ++ [c]).map fun c => UInt8.ofNat c.toNat).take front.length =
        front.map fun c => UInt8.ofNat c.toNat := by
      rw [List.map_append]
      exact List.take_left' (List.length_map _)
    have hdrop : ((front ++ [c]).map fun c => UInt8.ofNat c.toNat).drop front.length =
        [UInt8.ofNat c.toNat] := by
      rw [List.map_append]
      exact List.drop_left' (List.length_map _)
    simp only [List.length_append, List.length_singleton, hsplit, htake, hdrop,
      decode_map hfront hbefore, heven, if_false, List.headD_cons,
      Hex.ofNat_toNat_of_mem_alphabet hc, hd]
    rw [hlast] at hds ⊢
    rw [← hsize, ofBytes_set hds (hsize ▸ hbefore) (hsize ▸ hlength)]

/-- An abbreviated id is read as it is decoded. -/
theorem ofText_eq_decode (text : String) : ofText text = decode text := by
  have hsize : text.toUTF8.data.toList.length = text.utf8ByteSize := rfl
  unfold ofText decode
  dsimp only
  rw [hsize]
  split
  · rfl
  · split
    · rfl
    · next hpos hlength =>
      cases hfind : text.toList.find? (fun c => !Hex.isDigit c) with
      | some c => rfl
      | none =>
        have hdigits := Hex.find?_eq_none_iff.mp hfind
        have hcount := Hex.utf8ByteSize_eq_length hdigits
        rw [hcount, ← String.length_toList] at hlength ⊢
        rw [Hex.toUTF8_eq_map hdigits, decodeDigits_map hdigits (Nat.not_lt.mp hlength),
          Digits.value_append_replicate]
        rfl

/-- Reading an abbreviated id takes one to forty digits and nothing else, gives them back in lower
case with zeros behind them, and otherwise names the first fault. It never meets a fault in the
bytes, which may be cut behind any digit and spell the digits up to there. A full id is read where
an abbreviated one of forty digits is, and as the same id. Decoding the bytes comes to the same, two
digits to a byte and the last of an odd number into half of one. -/
theorem ofText_exact (text : String) :
    ((∃ a, ofText text = .ok a) ↔ Readable text) ∧
      (∀ a, ofText text = .ok a → a.Spells text) ∧
      (∀ e, ofText text = .error e ↔ Refused text e) ∧
      (∀ fault, ofText text ≠ .error (.badHex fault)) ∧
      (∀ a k, ofText text = .ok a → k ≤ text.utf8ByteSize →
        (String.Pos.Raw.mk k).IsValid text ∧
          ObjectId.digitsOfBytes 0 (text.toUTF8.data.toList.take k) = .ok (a.id.digits.take k)) ∧
      (∀ id, ObjectId.ofHex text = .ok id ↔ ofText text = .ok ⟨id, 40⟩) ∧
      ofText text = decode text ∧ ObjectId.ofHex text = ObjectId.decode text ∧
      ∀ id : ObjectId, ObjectId.ofHex id.toHex = .ok id := by
  refine ⟨?_, fun a h => (ofText_eq_ok_iff.mp h).2, fun e => ofText_eq_error_iff, ?_, ?_,
    fun id => ObjectId.ofHex_eq_ok_iff, ofText_eq_decode text, ObjectId.ofHex_eq_decode text,
    ObjectId.ofHex_toHex⟩
  · constructor
    · rintro ⟨a, h⟩
      exact (ofText_eq_ok_iff.mp h).1
    · intro h
      obtain ⟨a, ha, _⟩ := exists_ofText_of_readable h
      exact ⟨a, ha⟩
  · intro fault h
    cases ofText_eq_error_iff.mp h
  · intro a k h hk
    exact ⟨isValid_of_digits (ofText_eq_ok_iff.mp h).1.digits hk, digitsOfBytes_take h hk⟩

/-- Three digits in either case, the last of them half a byte, and a text with a character of two
bytes. -/
theorem ofText_mixed :
    ofText "aBc" = .ok ⟨.ofNat 0xabc0000000000000000000000000000000000000, 3⟩ ∧
      2 ≤ "aBc".utf8ByteSize ∧ (String.Pos.Raw.mk 2).IsValid "aBc" ∧
      ObjectId.digitsOfBytes 0 ("aBc".toUTF8.data.toList.take 2) = .ok [10, 11] ∧
      ofText "aé" = .error (.badDigit 'é') := by
  obtain ⟨_, _, _, _, hcut, _⟩ := ofText_exact "aBc"
  obtain ⟨_, _, hrefused, _⟩ := ofText_exact "aé"
  have hread : ofText "aBc" = .ok ⟨.ofNat 0xabc0000000000000000000000000000000000000, 3⟩ :=
    rfl
  have htwo : 2 ≤ "aBc".utf8ByteSize := by decide
  obtain ⟨hvalid, hdigits⟩ := hcut _ 2 hread htwo
  have hfirst : Refused "aé" (.badDigit 'é') := by
    have hdigit : ∀ x ∈ ['a'], x ∈ Hex.alphabet := List.forall_mem_singleton.mpr (by decide)
    exact .badDigit (by decide) (by decide : "aé".toList = ['a'] ++ 'é' :: []) hdigit (by decide)
  exact ⟨hread, htwo, hvalid, hdigits, (hrefused _).mpr hfirst⟩

end Abbreviation

end Ancestry
