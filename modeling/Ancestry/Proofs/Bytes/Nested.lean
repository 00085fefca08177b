import Ancestry.Proofs.Bytes.Words
import Ancestry.Proofs.Outcome

/-!
# Regions inside regions

A span cuts a region out of a region, and spans in turn lead to a part of a part. Each cut is judged
by the size of the region it is taken from. When all of them fit, what is read at the end stands in
the first region at the sum of the starts; otherwise the first cut that does not fit is reported.
Bounds in words lead to the same answers.
-/

namespace Ancestry

namespace Bytes

open Outcome

attribute [local instance (high)] instPowNat

section StandsAt

variable {region inner bs : Bytes} {start offset length : Nat}

def StandsAt (region bs : Bytes) (offset : Nat) : Prop :=
  ∃ before after, region = before ++ bs ++ after ∧ before.length = offset

theorem StandsAt.refl (bs : Bytes) : bs.StandsAt bs 0 :=
  ⟨[], [], (List.append_nil bs).symm, rfl⟩

theorem StandsAt.trans (hinner : region.StandsAt inner start) (hbs : inner.StandsAt bs offset) :
    region.StandsAt bs (start + offset) := by
  obtain ⟨left, right, rfl, rfl⟩ := hinner
  obtain ⟨before, after, rfl, rfl⟩ := hbs
  refine ⟨left ++ before, after ++ right, ?_, List.length_append⟩
  simp only [List.append_assoc]

theorem StandsAt.length_le (h : region.StandsAt bs offset) : bs.length ≤ region.length := by
  obtain ⟨before, after, rfl, _⟩ := h
  simp only [List.length_append]
  omega

theorem standsAt_of_slice (h : region.slice offset length = .ok bs) :
    region.StandsAt bs offset := by
  obtain ⟨hfits, rfl⟩ := slice_eq_ok_iff.mp h
  have hoffset : offset ≤ region.length := by omega
  refine ⟨region.take offset, region.drop (offset + length), ?_, List.length_take_of_le hoffset⟩
  rw [window, Nat.add_sub_cancel_left, List.append_assoc, ← List.drop_drop, List.take_append_drop,
    List.take_append_drop]

def startTotal (spans : List Span) : Nat :=
  (spans.map Span.start).foldr (· + ·) 0

theorem standsAt_of_foldlM {spans : List Span} (h : spans.foldlM sub region = .ok inner) :
    region.StandsAt inner (startTotal spans) := by
  induction spans generalizing region with
  | nil =>
    cases h
    exact .refl inner
  | cons span spans ih =>
    rw [List.foldlM_cons] at h
    obtain ⟨middle, hspan, hspans⟩ := bind_eq_ok.mp h
    exact (standsAt_of_slice hspan).trans (ih hspans)

end StandsAt

structure Cut where
  offset : Nat
  length : Nat
  size : Nat

def Cut.Fits (c : Cut) : Prop :=
  c.offset + c.length ≤ c.size

def Cut.fault (c : Cut) : GraphError :=
  .outOfBounds c.offset c.length c.size

/-- The cuts that spans make in turn, each in what the one before left, and then that of `length`
bytes at `offset`. A span that ends before it starts leaves nothing, at its start. -/
def cuts (offset length : Nat) : Nat → List Span → List Cut
  | size, [] => [⟨offset, length, size⟩]
  | size, span :: spans =>
    ⟨span.start, span.stop - span.start, size⟩ :: cuts offset length (span.stop - span.start) spans

theorem slice_eq_error_iff {region : Bytes} {offset length : Nat} {e : GraphError} :
    region.slice offset length = .error e ↔
      ¬ Cut.Fits ⟨offset, length, region.length⟩ ∧ Cut.fault ⟨offset, length, region.length⟩ = e := by
  rw [slice, Cut.Fits, Cut.fault]
  split
  · next h => simp [h]
  · next h => simp [h]

/-- In what form bytes are asked for: as they are, as a number, or as an id. -/
inductive Form
  | plain (length : Nat)
  | number (width : Nat)
  | objectId

namespace Form

def length : Form → Nat
  | plain length => length
  | number width => width
  | objectId => ObjectId.byteCount

def Value : Form → Type
  | plain _ => Bytes
  | number _ => Nat
  | objectId => ObjectId

def Spells : (form : Form) → form.Value → Bytes → Prop
  | plain _, (value : Bytes), bs => value = bs
  | number width, (value : Nat), bs => value < 256 ^ width ∧ Bytes.ofNat width value = bs
  | objectId, (value : ObjectId), bs => value.toBytes = bs

def read (region : Bytes) (offset : Nat) : (form : Form) → Except GraphError form.Value
  | plain length => region.slice offset length
  | number width => region.number width offset
  | objectId => region.objectId offset

def readWithin (form : Form) (region : Bytes) (spans : List Span) (offset : Nat) :
    Except GraphError form.Value := do
  let inner ← spans.foldlM sub region
  form.read inner offset

variable {form : Form} {region : Bytes} {spans : List Span} {offset : Nat}

theorem read_eq_ok {value : form.Value} (h : form.read region offset = .ok value) :
    ∃ bs, region.slice offset form.length = .ok bs ∧ form.Spells value bs := by
  cases form with
  | plain length => exact ⟨value, h, rfl⟩
  | number width =>
    obtain ⟨bs, hslice, rfl⟩ := map_eq_ok.mp h
    obtain rfl : bs.length = width := length_of_slice hslice
    exact ⟨bs, hslice, toNat_lt bs, ofNat_toNat bs⟩
  | objectId =>
    obtain ⟨bs, hslice, rfl⟩ := map_eq_ok.mp h
    exact ⟨bs, hslice, ObjectId.toBytes_ofBytes (length_of_slice hslice)⟩

theorem read_eq_error_iff {e : GraphError} :
    form.read region offset = .error e ↔ region.slice offset form.length = .error e := by
  cases form with
  | plain length => exact Iff.rfl
  | number width => exact map_eq_error
  | objectId => exact map_eq_error

theorem readWithin_cons (form : Form) (region : Bytes) (span : Span) (spans : List Span)
    (offset : Nat) : form.readWithin region (span :: spans) offset =
      region.sub span >>= fun inner => form.readWithin inner spans offset := by
  rw [readWithin, List.foldlM_cons, bind_assoc]
  rfl

theorem readWithin_eq_ok {value : form.Value}
    (h : form.readWithin region spans offset = .ok value) :
    ∃ bs, bs.length = form.length ∧ region.StandsAt bs (startTotal spans + offset) ∧
      form.Spells value bs := by
  obtain ⟨inner, hspans, hread⟩ := bind_eq_ok.mp h
  obtain ⟨bs, hslice, hspells⟩ := read_eq_ok hread
  exact ⟨bs, length_of_slice hslice, (standsAt_of_foldlM hspans).trans (standsAt_of_slice hslice),
    hspells⟩

/-- The induction follows the spans: a span that fits passes the question on to what it cut out, and
one that does not fit answers it. -/
theorem readWithin_eq_error_iff {e : GraphError} :
    form.readWithin region spans offset = .error e ↔
      ∃ c, IsFirst (fun c => ¬ c.Fits) (cuts offset form.length region.length spans) c ∧
        c.fault = e := by
  induction spans generalizing region with
  | nil =>
    have hread : form.readWithin region [] offset = form.read region offset := rfl
    rw [hread, read_eq_error_iff, slice_eq_error_iff]
    simp [cuts, isFirst_cons_iff, not_isFirst_nil, and_assoc]
  | cons span spans ih =>
    rw [readWithin_cons, bind_eq_error, sub, slice_eq_error_iff]
    simp only [cuts, isFirst_cons_iff]
    by_cases hfits : Cut.Fits ⟨span.start, span.stop - span.start, region.length⟩
    · obtain ⟨inner, hinner⟩ : ∃ inner, region.slice span.start (span.stop - span.start) =
          .ok inner := ⟨_, slice_eq_ok_iff.mpr ⟨hfits, rfl⟩⟩
      have hlength := length_of_slice hinner
      simp [hfits, hinner, ih, hlength]
    · have hslice : ∀ inner, region.slice span.start (span.stop - span.start) ≠ .ok inner :=
        fun inner hinner => hfits (slice_eq_ok_iff.mp hinner).1
      simp [hfits, hslice]

theorem exists_readWithin_iff :
    (∃ value, form.readWithin region spans offset = .ok value) ↔
      ∀ c ∈ cuts offset form.length region.length spans, c.Fits := by
  have hfirst : (∃ e, form.readWithin region spans offset = .error e) ↔
      ∃ c ∈ cuts offset form.length region.length spans, ¬ c.Fits := by
    simp only [readWithin_eq_error_iff, ← exists_isFirst_iff]
    exact ⟨fun ⟨_, c, hc, _⟩ => ⟨c, hc⟩, fun ⟨c, hc⟩ => ⟨_, c, hc, rfl⟩⟩
  cases h : form.readWithin region spans offset with
  | ok value => simpa [h] using hfirst
  | error e => simpa [h] using hfirst

end Form

def Form.readWords (region : Bytes) (offset : UInt64) : (form : Form) → Except GraphError form.Value
  | plain length => region.sliceWords offset (UInt64.ofNat length)
  | number width => (region.sliceWords offset (UInt64.ofNat width)).map toNat
  | objectId => do
    let bs ← region.sliceWords offset (UInt64.ofNat ObjectId.byteCount)
    (ObjectId.ofBytes? bs).mapError .badId

def Form.readWordsWithin (form : Form) (region : Bytes) (spans : List Word.Span) (offset : UInt64) :
    Except GraphError form.Value := do
  let inner ← spans.foldlM subWords region
  form.readWords inner offset

section Words

variable {region : Bytes} (hregion : region.length < UInt64.size)
include hregion

theorem foldlM_subWords (spans : List Word.Span) :
    spans.foldlM subWords region = (spans.map Word.Span.toNat).foldlM sub region := by
  induction spans generalizing region with
  | nil => rfl
  | cons span spans ih =>
    rw [List.foldlM_cons, List.map_cons, List.foldlM_cons, subWords_eq hregion]
    cases hsub : region.sub span.toNat with
    | error e => rfl
    | ok inner => exact ih (Nat.lt_of_le_of_lt (standsAt_of_slice hsub).length_le hregion)

theorem Form.readWords_eq {form : Form} (hform : form.length < UInt64.size) (offset : UInt64) :
    form.readWords region offset = form.read region offset.toNat := by
  have hslice : region.sliceWords offset (UInt64.ofNat form.length) =
      region.slice offset.toNat form.length := by
    rw [sliceWords_eq hregion, UInt64.toNat_ofNat_of_lt' hform]
  cases form with
  | plain length => exact hslice
  | number width => exact congrArg (Except.map toNat) hslice
  | objectId =>
    -- a slice has the length it was asked for, so the second check always passes
    simp only [length] at hslice
    rw [readWords, read, Bytes.objectId, hslice]
    cases h : region.slice offset.toNat ObjectId.byteCount with
    | error e => rfl
    | ok bs =>
      have hid : ObjectId.ofBytes? bs = .ok (.ofBytes bs) := if_pos (length_of_slice h)
      exact congrArg (Except.mapError GraphError.badId) hid

theorem Form.readWordsWithin_eq {form : Form} (hform : form.length < UInt64.size)
    (spans : List Word.Span) (offset : UInt64) : form.readWordsWithin region spans offset =
      form.readWithin region (spans.map Word.Span.toNat) offset.toNat := by
  rw [readWordsWithin, readWithin, foldlM_subWords hregion]
  cases h : (spans.map Word.Span.toNat).foldlM sub region with
  | error e => rfl
  | ok inner =>
    have hinner : inner.length < UInt64.size :=
      Nat.lt_of_le_of_lt (standsAt_of_foldlM h).length_le hregion
    exact readWords_eq hinner hform offset

end Words

namespace Form

/-- A read within nested regions succeeds exactly when every cut on the way fits the region it is
taken from. It yields what stands in the first region at the sum of the starts, and fails with the
figures of the first cut that does not fit. Checked words of 64 bits do the same. -/
theorem readWithin_exact (form : Form) (region : Bytes) :
    (∀ (spans : List Span) (offset : Nat),
      let taken := cuts offset form.length region.length spans
      ((∃ value, form.readWithin region spans offset = .ok value) ↔ ∀ c ∈ taken, c.Fits) ∧
      (∀ value, form.readWithin region spans offset = .ok value →
        ∃ bs, bs.length = form.length ∧
          region.StandsAt bs (startTotal spans + offset) ∧ form.Spells value bs) ∧
      ∀ e, form.readWithin region spans offset = .error e ↔
        ∃ c, IsFirst (fun c => ¬ c.Fits) taken c ∧ c.fault = e) ∧
    (region.length < UInt64.size → form.length < UInt64.size →
      ∀ (spans : List Word.Span) (offset : UInt64), form.readWordsWithin region spans offset =
        form.readWithin region (spans.map Word.Span.toNat) offset.toNat) := by
  constructor
  · intro spans offset taken
    exact ⟨exists_readWithin_iff, fun _ => readWithin_eq_ok, fun _ => readWithin_eq_error_iff⟩
  · intro hregion hform spans offset
    exact readWordsWithin_eq hregion hform spans offset

def sampleRegion : Bytes :=
  (List.range 32).map UInt8.ofNat

/-- A word in a part of a part; a word at an offset whose end wraps around, in a region that is empty
since its span is reversed; and a span that begins inside and ends as far off as a word can tell. -/
theorem readWithin_sampleRegion :
    sampleRegion.length < UInt64.size ∧ (number 4).length < UInt64.size ∧
      sampleRegion.StandsAt [14, 15, 16, 17] (8 + 4 + 2) ∧
      (number 4).readWordsWithin sampleRegion [⟨8, 24⟩, ⟨4, 12⟩] 2 = .ok (0x0e0f1011 : Nat) ∧
      (number 4).readWordsWithin sampleRegion [⟨16, 8⟩] 0xfffffffffffffffd =
        .error (.outOfBounds 0xfffffffffffffffd 4 0) ∧
      (number 4).readWordsWithin sampleRegion [⟨8, 24⟩, ⟨1, 0xffffffffffffffff⟩, ⟨0, 99⟩] 2 =
        .error (.outOfBounds 1 0xfffffffffffffffe 16) := by
  have hregion : sampleRegion.length < UInt64.size := by decide
  have hform : (number 4).length < UInt64.size := by decide
  obtain ⟨hreads, hwords⟩ := readWithin_exact (number 4) sampleRegion
  have hread : (number 4).readWithin sampleRegion [⟨8, 24⟩, ⟨4, 12⟩] 2 =
    .ok (0x0e0f1011 : Nat) := rfl
  refine ⟨hregion, hform, ?_, ?_, ?_, ?_⟩
  · obtain ⟨bs, _, hstands, _, rfl⟩ := (hreads _ _).2.1 _ hread
    exact hstands
  · rw [hwords hregion hform]
    exact hread
  · rw [hwords hregion hform, (hreads _ _).2.2]
    refine ⟨⟨0xfffffffffffffffd, 4, 0⟩, ?_, rfl⟩
    exact ⟨[⟨16, 0, 32⟩], [], rfl, by simp [Cut.Fits], by simp [Cut.Fits]⟩
  · rw [hwords hregion hform, (hreads _ _).2.2]
    refine ⟨⟨1, 0xfffffffffffffffe, 16⟩, ?_, rfl⟩
    exact ⟨[⟨8, 16, 32⟩], [⟨0, 99, 0xfffffffffffffffe⟩, ⟨2, 4, 99⟩], rfl, by simp [Cut.Fits],
      by simp [Cut.Fits]⟩

end Form

end Bytes

end Ancestry
