import Ancestry.Chunk.Directory
import Ancestry.Proofs.Bytes.Window
import Ancestry.Proofs.Outcome

/-!
# What a directory says

A directory is good when its offsets never fall, lie between the end of the directory and the
trailer, and all tags are known. The chunks read from it are then the places it announces: each from
its own offset to the next one, the last to the trailer.
-/

namespace Ancestry

open Outcome

theorem Kind.eq_of_tag_eq {k l : Kind} (hk : ofTag? k.tag = some k) (hl : ofTag? l.tag = some l)
    (h : k.tag = l.tag) : k = l := by
  rw [h, hl] at hk
  exact (Option.some.inj hk).symm

namespace Chunk

def place (c : Chunk) : Tag × Span := (c.kind.tag, c.span)

structure Within (limit : Nat) (c : Chunk) : Prop where
  known : Kind.ofTag? c.kind.tag = some c.kind
  stop_le : c.offset + c.length ≤ limit

theorem span_of_within {limit : Nat} {c : Chunk} (hc : c.Within limit) (h : limit < UInt64.size) :
    c.span = ⟨c.offset, c.offset + c.length⟩ := by
  rw [span, Nat.mod_eq_of_lt (Nat.lt_of_le_of_lt hc.stop_le h)]

end Chunk

namespace Directory

structure InOrder (trailer floor : Nat) (entries : List Entry) : Prop where
  rising : entries.Pairwise fun e f => e.offset ≤ f.offset
  above : ∀ e ∈ entries, floor ≤ e.offset
  below : ∀ e ∈ entries, e.offset < trailer

def entriesOf (file : Bytes) (count : Nat) : List Entry :=
  (List.range count).map fun i => .ofBytes (file.window (8 + 12 * i) (8 + 12 * i + 12))

def places (trailer : Nat) : List Entry → List (Tag × Span)
  | [] => []
  | [e] => [(e.tag, ⟨e.offset, trailer⟩)]
  | e :: f :: rest => (e.tag, ⟨e.offset, f.offset⟩) :: places trailer (f :: rest)

def placed (trailer : Nat) (entries : List Entry) (tag : Tag) : List (Tag × Span) :=
  (places trailer entries).filter (·.1 = tag)

def Named (entries : List Entry) (marks : List (Kind × Nat)) : Prop :=
  entries.map (fun e => (Kind.ofTag? e.tag, e.offset)) = marks.map fun m => (some m.1, m.2)

theorem inOrder_cons_iff {trailer floor : Nat} {e : Entry} {rest : List Entry} :
    InOrder trailer floor (e :: rest) ↔
      floor ≤ e.offset ∧ e.offset < trailer ∧ InOrder trailer e.offset rest := by
  constructor
  · intro h
    have hpair := List.pairwise_cons.mp h.rising
    refine ⟨h.above e List.mem_cons_self, h.below e List.mem_cons_self, hpair.2, hpair.1, ?_⟩
    intro f hf
    exact h.below f (List.mem_cons_of_mem e hf)
  · intro h'
    rcases h' with ⟨hfloor, htrailer, h⟩
    refine ⟨List.pairwise_cons.mpr ⟨h.above, h.rising⟩, ?_, ?_⟩
    · intro f hf
      rcases List.mem_cons.mp hf with rfl | hf
      · exact hfloor
      · exact Nat.le_trans hfloor (h.above f hf)
    · intro f hf
      rcases List.mem_cons.mp hf with rfl | hf
      · exact htrailer
      · exact h.below f hf

theorem check_eq_ok_iff {trailer floor : Nat} {entries : List Entry} {marks : List (Kind × Nat)} :
    check trailer floor entries = .ok marks ↔ InOrder trailer floor entries ∧ Named entries marks := by
  induction entries generalizing floor marks with
  | nil =>
    have hnil : InOrder trailer floor [] := ⟨List.Pairwise.nil, by simp, by simp⟩
    cases marks <;> simp [check, Named, hnil]
  | cons e rest ih =>
    rw [inOrder_cons_iff, check]
    by_cases hfloor : e.offset < floor
    · have hnot : ¬ floor ≤ e.offset := by omega
      simp [hfloor, hnot]
    by_cases htrailer : trailer ≤ e.offset
    · have hnot : ¬ e.offset < trailer := by omega
      simp [hfloor, htrailer, hnot]
    have hle : floor ≤ e.offset := by omega
    have hlt : e.offset < trailer := by omega
    simp only [hfloor, htrailer, hle, hlt, if_false, true_and]
    cases hkind : Kind.ofTag? e.tag with
    | none =>
      cases marks <;> simp [Named, hkind]
    | some kind =>
      simp only [map_eq_ok, ih, Named, List.map_cons, hkind]
      constructor
      · intro h
        rcases h with ⟨tail, ⟨horder, hnamed⟩, rfl⟩
        exact ⟨horder, by simp [hnamed]⟩
      · intro h
        rcases h with ⟨horder, hnamed⟩
        cases marks with
        | nil => simp at hnamed
        | cons m tail =>
          simp only [List.map_cons, List.cons.injEq, Prod.mk.injEq, Option.some.injEq] at hnamed
          obtain ⟨⟨hm, ho⟩, htail⟩ := hnamed
          refine ⟨tail, ⟨horder, htail⟩, ?_⟩
          rw [hm, ho]

theorem bounds_of_mem_places {trailer floor : Nat} {entries : List Entry}
    (h : InOrder trailer floor entries) {t : Tag} {span : Span}
    (hmem : (t, span) ∈ places trailer entries) :
    floor ≤ span.start ∧ span.start ≤ span.stop ∧ span.stop ≤ trailer := by
  fun_induction places trailer entries generalizing floor with
  | case1 => simp at hmem
  | case2 e =>
    obtain ⟨hfloor, hlt, _⟩ := inOrder_cons_iff.mp h
    obtain ⟨_, rfl⟩ := Prod.mk.inj (List.mem_singleton.mp hmem)
    exact ⟨hfloor, Nat.le_of_lt hlt, Nat.le_refl _⟩
  | case3 e f rest ih =>
    obtain ⟨hfloor, _, htail⟩ := inOrder_cons_iff.mp h
    rcases List.mem_cons.mp hmem with heq | hmem
    · obtain ⟨_, rfl⟩ := Prod.mk.inj heq
      have hlt := htail.below f List.mem_cons_self
      exact ⟨hfloor, htail.above f List.mem_cons_self, Nat.le_of_lt hlt⟩
    · obtain ⟨hstart, hspan, hstop⟩ := ih htail hmem
      exact ⟨Nat.le_trans hfloor hstart, hspan, hstop⟩

theorem exists_named {entries : List Entry} (h : ∀ e ∈ entries, (Kind.ofTag? e.tag).isSome) :
    ∃ marks, Named entries marks := by
  induction entries with
  | nil => exact ⟨[], rfl⟩
  | cons e rest ih =>
    obtain ⟨kind, hkind⟩ := Option.isSome_iff_exists.mp (h e List.mem_cons_self)
    obtain ⟨marks, hmarks⟩ := ih fun f hf => h f (List.mem_cons_of_mem e hf)
    refine ⟨(kind, e.offset) :: marks, ?_⟩
    rw [Named, List.map_cons, List.map_cons, hkind, ← hmarks]

theorem isSome_of_named {entries : List Entry} {marks : List (Kind × Nat)}
    (h : Named entries marks) : ∀ e ∈ entries, (Kind.ofTag? e.tag).isSome := by
  intro e he
  have hmem : (Kind.ofTag? e.tag, e.offset) ∈ marks.map fun m => (some m.1, m.2) := by
    rw [← h]
    exact List.mem_map.mpr ⟨e, he, rfl⟩
  obtain ⟨m, _, hm⟩ := List.mem_map.mp hmem
  rw [← (Prod.mk.inj hm).1]
  rfl

/-- The chunks of a good directory are the places it announces. -/
theorem tile_of_named {trailer floor : Nat} {entries : List Entry} {marks : List (Kind × Nat)}
    (horder : InOrder trailer floor entries) (hnamed : Named entries marks)
    (hlimit : trailer < UInt64.size) :
    (∀ c ∈ tile trailer marks, c.Within trailer) ∧
      (tile trailer marks).map Chunk.place = places trailer entries := by
  fun_induction tile trailer marks generalizing entries floor with
  | case1 =>
    cases entries with
    | nil => simp [places]
    | cons e rest => simp [Named] at hnamed
  | case2 kind start =>
    match entries with
    | [] => simp [Named] at hnamed
    | [e] =>
      simp only [Named, List.map_cons, List.map_nil, List.cons.injEq, Prod.mk.injEq] at hnamed
      obtain ⟨⟨hkind, rfl⟩, _⟩ := hnamed
      have htag := Kind.tag_of_ofTag? hkind
      have hlt := (inOrder_cons_iff.mp horder).2.1
      have hc : Chunk.Within trailer ⟨kind, e.offset, trailer - e.offset⟩ :=
        ⟨by rw [htag, hkind], by simp only; omega⟩
      have hsum : e.offset + (trailer - e.offset) = trailer := by omega
      simp [places, hc, Chunk.place, Chunk.span_of_within hc hlimit, htag, hsum]
    | e :: f :: rest => simp [Named] at hnamed
  | case3 kind start next stop rest ih =>
    match entries with
    | [] => simp [Named] at hnamed
    | [e] => simp [Named] at hnamed
    | e :: f :: rest' =>
      obtain ⟨_, _, htail⟩ := inOrder_cons_iff.mp horder
      have hle := htail.above f List.mem_cons_self
      have hlt := htail.below f List.mem_cons_self
      have hnamed' : Named (f :: rest') ((next, stop) :: rest) := (List.cons.inj hnamed).2
      obtain ⟨hkind, hstart⟩ := Prod.mk.inj (List.cons.inj hnamed).1
      obtain ⟨_, hstop⟩ := Prod.mk.inj (List.cons.inj hnamed').1
      simp only at hkind hstart hstop
      subst hstart hstop
      obtain ⟨hwithin, hplaces⟩ := ih htail hnamed'
      have htag := Kind.tag_of_ofTag? hkind
      have hc : Chunk.Within trailer ⟨kind, e.offset, f.offset - e.offset⟩ :=
        ⟨by rw [htag, hkind], by simp only; omega⟩
      have hsum : e.offset + (f.offset - e.offset) = f.offset := by omega
      constructor
      · intro c hmem
        rcases List.mem_cons.mp hmem with rfl | hmem
        · exact hc
        · exact hwithin c hmem
      · rw [List.map_cons, hplaces, places, Chunk.place, Chunk.span_of_within hc hlimit, htag, hsum]

theorem map_ofBytes_blocks {file : Bytes} {count : Nat} :
    (Bytes.blocks Entry.byteCount count (file.window 8 (8 + 12 * count))).map Entry.ofBytes =
      entriesOf file count := by
  change (Bytes.blocks 12 count (file.window 8 (8 + 12 * count))).map Entry.ofBytes = _
  rw [Bytes.blocks_window (Nat.le_refl _), List.map_map]
  rfl

theorem read_eq_ok_iff {file : Bytes} {header : Header} {trailer : Nat} {chunks : List Chunk} :
    read file header trailer = .ok chunks ↔
      8 + 12 * header.chunkCount.toNat ≤ file.length ∧
        ∃ marks, check trailer header.tableEnd (entriesOf file header.chunkCount.toNat) = .ok marks ∧
          tile trailer marks = chunks := by
  have hsize : header.chunkCount.toNat * Entry.byteCount = 12 * header.chunkCount.toNat :=
    Nat.mul_comm _ _
  unfold read
  simp only [hsize]
  cases hslice : file.slice Header.byteCount (12 * header.chunkCount.toNat) with
  | error e =>
    have hnot : ¬ 8 + 12 * header.chunkCount.toNat ≤ file.length := by
      intro hle
      change file.slice 8 _ = _ at hslice
      rw [Bytes.slice_eq_ok_iff.mpr ⟨hle, rfl⟩] at hslice
      cases hslice
    simp [hnot]
  | ok directory =>
    obtain ⟨hle, rfl⟩ := Bytes.slice_eq_ok_iff.mp hslice
    have hle' : 8 + 12 * header.chunkCount.toNat ≤ file.length := hle
    simp only [hle', true_and, map_eq_ok]
    rw [show Header.byteCount = 8 from rfl, map_ofBytes_blocks]

end Directory

end Ancestry
