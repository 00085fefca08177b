import Ancestry.Proofs.Chunk.Draft
import Ancestry.Proofs.ObjectId.Order

/-!
# What the chunks of a layout hold

Each check of a chunk succeeds exactly when the bytes of the chunk are as the layout says. A chunk
that lies in the file can be read as a whole, so no check fails for want of bytes.
-/

namespace Ancestry

open Outcome

namespace Layout

def countsIn (file : Bytes) (span : Span) : List Nat :=
  (List.range 256).map fun i =>
    Bytes.toNat (file.window (span.start + 4 * i) (span.start + 4 * i + 4))

def rowsIn (file : Bytes) (span : Span) (count : Nat) : List Bytes :=
  (List.range count).map fun i =>
    file.window (span.start + 20 * i) (span.start + 20 * i + 20)

/-- Where the extra edges are and how many, given the bytes of their chunk if there is one. -/
inductive EdgesAt : Option Span → Span → Nat → Prop
  | absent : EdgesAt none ⟨0, 0⟩ 0
  | empty (start : Nat) : EdgesAt (some ⟨start, start⟩) ⟨0, 0⟩ 0
  | listed (start count : Nat) (pos : 0 < count) (lt : count < UInt32.size) :
      EdgesAt (some ⟨start, start + 4 * count⟩) ⟨start, start + 4 * count⟩ count

theorem edgesAt_some (start : Nat) {count : Nat} (h : count < UInt32.size) :
    EdgesAt (some ⟨start, start + 4 * count⟩)
      (if count = 0 then ⟨0, 0⟩ else ⟨start, start + 4 * count⟩) count := by
  by_cases hnone : count = 0
  · rw [if_pos hnone, hnone]
    exact .empty start
  · rw [if_neg hnone]
    exact .listed start count (Nat.pos_of_ne_zero hnone) h

theorem map_toNat_blocks {file : Bytes} {span : Span} (h : span.stop = span.start + 1024) :
    (Bytes.blocks wordSize buckets (file.window span.start span.stop)).map Bytes.toNat =
      countsIn file span := by
  have hblocks : Bytes.blocks 4 256 (file.window span.start span.stop) = _ :=
    Bytes.blocks_window (Nat.le_of_eq h.symm)
  change (Bytes.blocks 4 256 _).map Bytes.toNat = _
  rw [hblocks, List.map_map]
  rfl

theorem blocks_eq_rowsIn {file : Bytes} {span : Span} {count : Nat}
    (h : span.stop = span.start + 20 * count) :
    Bytes.blocks ObjectId.byteCount count (file.window span.start span.stop) =
      rowsIn file span count :=
  Bytes.blocks_window (k := 20) (Nat.le_of_eq h.symm)

theorem length_of_mem_rowsIn {file row : Bytes} {span : Span} {count : Nat}
    (h : span.start + 20 * count ≤ file.length) (hrow : row ∈ rowsIn file span count) :
    row.length = ObjectId.byteCount := by
  obtain ⟨i, hi, rfl⟩ := List.mem_map.mp hrow
  have hlt := List.mem_range.mp hi
  rw [Bytes.length_window (by omega), Nat.add_sub_cancel_left]
  rfl

theorem pairwise_ofBytes_iff {rows : List Bytes} (h : ∀ row ∈ rows, row.length = ObjectId.byteCount) :
    (rows.map ObjectId.ofBytes).Pairwise (· < ·) ↔ rows.Pairwise (· < ·) := by
  rw [List.pairwise_map]
  constructor
  · exact List.Pairwise.imp_of_mem fun ha hb => (ObjectId.ofBytes_lt_ofBytes_iff (h _ ha) (h _ hb)).mp
  · exact List.Pairwise.imp_of_mem fun ha hb => (ObjectId.ofBytes_lt_ofBytes_iff (h _ ha) (h _ hb)).mpr

theorem firstFall_eq_none_iff {position previous : Nat} {counts : List Nat} :
    firstFall position previous counts = none ↔ (previous :: counts).Pairwise (· ≤ ·) := by
  induction counts generalizing position previous with
  | nil => simp [firstFall]
  | cons count rest ih =>
    rw [firstFall]
    split
    · next hlt =>
      simp only [reduceCtorEq, false_iff]
      intro h
      have := (List.pairwise_cons.mp h).1 count List.mem_cons_self
      omega
    · next hle =>
      rw [ih, List.pairwise_cons (a := previous)]
      constructor
      · intro h
        refine ⟨?_, h⟩
        intro x hx
        rcases List.mem_cons.mp hx with rfl | hx
        · omega
        · exact Nat.le_trans (by omega) ((List.pairwise_cons.mp h).1 x hx)
      · exact And.right

theorem firstDisorder_eq_none_iff {position : Nat} {ids : List ObjectId} :
    firstDisorder position ids = none ↔ ids.Pairwise (· < ·) := by
  fun_induction firstDisorder position ids with
  | case1 position a b rest hlt ih =>
    rw [ih, List.pairwise_cons (a := a)]
    constructor
    · intro h
      refine ⟨?_, h⟩
      intro x hx
      rcases List.mem_cons.mp hx with rfl | hx
      · exact hlt
      · exact ObjectId.lt_trans hlt ((List.pairwise_cons.mp h).1 x hx)
    · exact And.right
  | case2 position a b rest hnot =>
    simp only [reduceCtorEq, false_iff]
    intro h
    exact hnot ((List.pairwise_cons.mp h).1 b List.mem_cons_self)
  | case3 ids position hshort =>
    match ids with
    | [] => simp
    | [a] => simp
    | a :: b :: rest => exact absurd rfl (hshort a b rest)

theorem required_eq_ok_iff {kind : Kind} {chunk : Option Chunk} {c : Chunk} :
    required kind chunk = .ok c ↔ chunk = some c ∧ c.length ≠ 0 := by
  cases chunk with
  | none => simp [required]
  | some x =>
    by_cases hx : x.length = 0
    · simp only [required, hx, if_true, reduceCtorEq, Option.some.injEq, false_iff]
      intro h'
      rcases h' with ⟨rfl, h⟩
      exact h hx
    · simp only [required, hx, if_false, Except.ok.injEq, Option.some.injEq]
      constructor
      · rintro rfl
        exact ⟨rfl, hx⟩
      · exact And.left

theorem expectLength_eq_ok_iff {expected : Nat} {c d : Chunk} :
    expectLength expected c = .ok d ↔ c.length = expected ∧ c = d := by
  rw [expectLength]
  split <;> simp_all

theorem required_expectLength {β : Type} {kind : Kind} {expected : Nat} {chunk : Option Chunk}
    {f : Chunk → Except GraphError β} {b : β} :
    (do
      let c ← required kind chunk
      let c ← expectLength expected c
      f c) = .ok b ↔
      ∃ c, chunk = some c ∧ c.length = expected ∧ expected ≠ 0 ∧ f c = .ok b := by
  simp only [bind_eq_ok, required_eq_ok_iff, expectLength_eq_ok_iff]
  constructor
  · intro h
    rcases h with ⟨c, ⟨rfl, hpos⟩, _, ⟨hlen, rfl⟩, hf⟩
    exact ⟨c, rfl, hlen, hlen ▸ hpos, hf⟩
  · intro h
    rcases h with ⟨c, rfl, hlen, hpos, hf⟩
    exact ⟨c, ⟨rfl, hlen ▸ hpos⟩, c, ⟨hlen, rfl⟩, hf⟩

section Checks

variable {file : Bytes} {limit : Nat} {chunk : Option Chunk} {span : Span} {count : Nat}
variable (hfile : limit ≤ file.length) (hlimit : limit < UInt64.size)
variable (hchunk : ∀ c, chunk = some c → c.Within limit)

include hlimit hchunk

theorem exists_length_iff {expected : Nat} :
    (∃ c, chunk = some c ∧ c.length = expected ∧ c.span = span) ↔
      chunk.map Chunk.span = some span ∧ span.stop = span.start + expected := by
  constructor
  · intro h
    rcases h with ⟨c, rfl, rfl, rfl⟩
    rw [Chunk.span_of_within (hchunk c rfl) hlimit]
    exact ⟨congrArg some (Chunk.span_of_within (hchunk c rfl) hlimit), rfl⟩
  · intro h
    rcases h with ⟨hspan, hstop⟩
    obtain ⟨c, rfl, rfl⟩ := Option.map_eq_some_iff.mp hspan
    rw [Chunk.span_of_within (hchunk c rfl) hlimit] at hstop
    simp only at hstop
    exact ⟨c, rfl, by omega, rfl⟩

theorem checkCommits_eq_ok_iff :
    checkCommits chunk count = .ok span ↔
      chunk.map Chunk.span = some span ∧ span.stop = span.start + 36 * count ∧ 0 < count := by
  have hlen : count * Record.byteCount = 36 * count := Nat.mul_comm _ _
  rw [checkCommits, required_expectLength, ← and_assoc, ← exists_length_iff hlimit hchunk, hlen]
  simp only [Except.ok.injEq]
  constructor
  · intro h
    rcases h with ⟨c, hc, hlen, hpos, hspan⟩
    exact ⟨⟨c, hc, hlen, hspan⟩, by omega⟩
  · intro h
    rcases h with ⟨⟨c, hc, hlen, hspan⟩, hpos⟩
    exact ⟨c, hc, hlen, by omega, hspan⟩

theorem checkEdges_eq_ok_iff :
    checkEdges chunk = .ok (span, count) ↔ EdgesAt (chunk.map Chunk.span) span count := by
  cases hc : chunk with
  | none =>
    simp only [checkEdges, Option.map_none, Except.ok.injEq, Prod.mk.injEq]
    constructor
    · intro h
      rcases h with ⟨rfl, rfl⟩
      exact .absent
    · intro h
      rcases h with ⟨⟩
      exact ⟨rfl, rfl⟩
  | some c =>
    have hspan := Chunk.span_of_within (hchunk c hc) hlimit
    simp only [checkEdges, Option.map_some, wordSize, hspan]
    constructor
    · intro h
      by_cases hempty : c.length = 0
      · rw [if_pos hempty, Except.ok.injEq, Prod.mk.injEq] at h
        obtain ⟨rfl, rfl⟩ := h
        rw [hempty]
        exact .empty c.offset
      · rw [if_neg hempty] at h
        by_cases hragged : c.length % 4 = 0
        · rw [if_neg (not_not_intro hragged)] at h
          by_cases hmany : UInt32.size ≤ c.length / 4
          · rw [if_pos hmany] at h
            cases h
          · rw [if_neg hmany, Except.ok.injEq, Prod.mk.injEq] at h
            obtain ⟨rfl, rfl⟩ := h
            have hlen : c.length = 4 * (c.length / 4) := by omega
            have := EdgesAt.listed c.offset (c.length / 4) (by omega) (by omega)
            rwa [← hlen] at this
        · rw [if_pos hragged] at h
          cases h
    · intro h
      generalize hstop : c.offset + c.length = stop at h
      cases h with
      | empty start =>
        have hempty : c.length = 0 := by omega
        rw [if_pos hempty]
      | listed start count pos lt =>
        have hlen : c.length = 4 * count := by omega
        have hdiv : 4 * count / 4 = count := by omega
        rw [hlen, if_neg (by omega), if_neg (by omega), hdiv, if_neg (by omega)]

include hfile

theorem sub_span {c : Chunk} (hc : chunk = some c) :
    file.sub c.span = .ok (file.window c.span.start c.span.stop) := by
  have hstop := (hchunk c hc).stop_le
  rw [Chunk.span_of_within (hchunk c hc) hlimit, Bytes.sub_eq_ok_iff (Nat.le_add_right _ _)]
  exact ⟨Nat.le_trans hstop hfile, rfl⟩

theorem checkFanout_eq_ok_iff :
    checkFanout file chunk = .ok (span, count) ↔
      chunk.map Chunk.span = some span ∧ span.stop = span.start + 1024 ∧
        (countsIn file span).Pairwise (· ≤ ·) ∧ (countsIn file span).getLastD 0 = count := by
  have hcounts (c : Chunk) (hc : chunk = some c) (hlen : c.length = 1024) :
      (Bytes.blocks wordSize buckets (file.window c.span.start c.span.stop)).map Bytes.toNat =
        countsIn file c.span := by
    apply map_toNat_blocks
    rw [Chunk.span_of_within (hchunk c hc) hlimit, hlen]
  have hzero (counts : List Nat) : (0 :: counts).Pairwise (· ≤ ·) ↔ counts.Pairwise (· ≤ ·) := by
    simp [List.pairwise_cons]
  rw [checkFanout, required_expectLength, ← and_assoc, ← exists_length_iff hlimit hchunk]
  constructor
  · intro h'
    rcases h' with ⟨c, hc, hlen, _, h⟩
    rw [sub_span hfile hlimit hchunk hc] at h
    obtain ⟨_, ⟨⟩, h⟩ := bind_eq_ok.mp h
    simp only [hcounts c hc hlen] at h
    split at h
    · cases h
    · next hfall =>
      obtain ⟨rfl, rfl⟩ := Prod.mk.inj (Except.ok.inj h)
      exact ⟨⟨c, hc, hlen, rfl⟩, (hzero _).mp (firstFall_eq_none_iff.mp hfall), rfl⟩
  · intro h
    rcases h with ⟨⟨c, hc, hlen, rfl⟩, hrise, rfl⟩
    refine ⟨c, hc, hlen, by decide, ?_⟩
    rw [sub_span hfile hlimit hchunk hc]
    refine bind_eq_ok.mpr ⟨_, rfl, ?_⟩
    simp only [hcounts c hc hlen, firstFall_eq_none_iff.mpr ((hzero _).mpr hrise)]

theorem checkIds_eq_ok_iff :
    checkIds file chunk count = .ok span ↔
      chunk.map Chunk.span = some span ∧ span.stop = span.start + 20 * count ∧ 0 < count ∧
        (rowsIn file span count).Pairwise (· < ·) := by
  have hsize : count * ObjectId.byteCount = 20 * count := Nat.mul_comm _ _
  have hids (c : Chunk) (hc : chunk = some c) (hlen : c.length = 20 * count) :
      (ObjectId.Table.ofBytes (file.window c.span.start c.span.stop)).toList.Pairwise (· < ·) ↔
        (rowsIn file c.span count).Pairwise (· < ·) := by
    have hstop := (hchunk c hc).stop_le
    have hspan := Chunk.span_of_within (hchunk c hc) hlimit
    have hwindow : (file.window c.span.start c.span.stop).length = 20 * count := by
      rw [hspan, Bytes.length_window (Nat.le_trans hstop hfile), Nat.add_sub_cancel_left, hlen]
    have hcount : 20 * count / ObjectId.byteCount = count := Nat.mul_div_cancel_left count (by decide)
    rw [ObjectId.Table.ofBytes, hwindow, hcount, blocks_eq_rowsIn (by rw [hspan, hlen])]
    apply pairwise_ofBytes_iff
    intro row hrow
    refine length_of_mem_rowsIn ?_ hrow
    rw [hspan, ← hlen]
    exact Nat.le_trans hstop hfile
  rw [checkIds, required_expectLength, ← and_assoc, ← exists_length_iff hlimit hchunk, hsize]
  constructor
  · intro h'
    rcases h' with ⟨c, hc, hlen, hpos, h⟩
    rw [sub_span hfile hlimit hchunk hc] at h
    obtain ⟨_, ⟨⟩, h⟩ := bind_eq_ok.mp h
    split at h
    · cases h
    · next hfirst =>
      obtain rfl := Except.ok.inj h
      exact ⟨⟨c, hc, hlen, rfl⟩, by omega, (hids c hc hlen).mp (firstDisorder_eq_none_iff.mp hfirst)⟩
  · intro h
    rcases h with ⟨⟨c, hc, hlen, rfl⟩, hpos, hrise⟩
    refine ⟨c, hc, hlen, by omega, ?_⟩
    rw [sub_span hfile hlimit hchunk hc]
    refine bind_eq_ok.mpr ⟨_, rfl, ?_⟩
    rw [firstDisorder_eq_none_iff.mpr ((hids c hc hlen).mpr hrise)]

end Checks

/-- The chunks of a file are filled as a layout says, its extra edges apart. -/
structure Filled (file : Bytes) (layout : Layout) : Prop where
  fanout_stop : layout.fanout.stop = layout.fanout.start + 1024
  fanout_rises : (countsIn file layout.fanout).Pairwise (· ≤ ·)
  fanout_last : (countsIn file layout.fanout).getLastD 0 = layout.commitCount
  commitCount_pos : 0 < layout.commitCount
  ids_stop : layout.ids.stop = layout.ids.start + 20 * layout.commitCount
  ids_rise : (rowsIn file layout.ids layout.commitCount).Pairwise (· < ·)
  commits_stop : layout.commits.stop = layout.commits.start + 36 * layout.commitCount

end Layout

/-- A collected draft becomes a layout exactly when every chunk is there and is filled. -/
theorem Draft.finish_eq_ok_iff {file : Bytes} {limit : Nat} {d : Draft} {layout : Layout}
    (hfile : limit ≤ file.length) (hlimit : limit < UInt64.size)
    (hslots : ∀ k c, d.slot k = some c → c.Within limit) :
    d.finish file = .ok layout ↔
      d.fanout.map Chunk.span = some layout.fanout ∧ d.ids.map Chunk.span = some layout.ids ∧
        d.commits.map Chunk.span = some layout.commits ∧
        Layout.EdgesAt (d.edges.map Chunk.span) layout.edges layout.edgeCount ∧
        layout.Filled file := by
  constructor
  · intro h
    obtain ⟨⟨fanout, commitCount⟩, h1, h⟩ := bind_eq_ok.mp h
    obtain ⟨ids, h2, h⟩ := bind_eq_ok.mp h
    obtain ⟨commits, h3, h⟩ := bind_eq_ok.mp h
    obtain ⟨⟨edges, edgeCount⟩, h4, h⟩ := bind_eq_ok.mp h
    obtain rfl := Except.ok.inj h
    obtain ⟨hf, hfstop, hrise, hlast⟩ :=
      (Layout.checkFanout_eq_ok_iff hfile hlimit (hslots .fanout)).mp h1
    obtain ⟨hi, histop, hpos, hirise⟩ :=
      (Layout.checkIds_eq_ok_iff hfile hlimit (hslots .ids)).mp h2
    obtain ⟨hc, hcstop, _⟩ := (Layout.checkCommits_eq_ok_iff hlimit (hslots .commits)).mp h3
    have he := (Layout.checkEdges_eq_ok_iff hlimit (hslots .edges)).mp h4
    exact ⟨hf, hi, hc, he, hfstop, hrise, hlast, hpos, histop, hirise, hcstop⟩
  · intro h
    rcases h with ⟨hf, hi, hc, he, hfill⟩
    have h1 := (Layout.checkFanout_eq_ok_iff hfile hlimit (hslots .fanout)).mpr
      ⟨hf, hfill.fanout_stop, hfill.fanout_rises, hfill.fanout_last⟩
    have h2 := (Layout.checkIds_eq_ok_iff hfile hlimit (hslots .ids)).mpr
      ⟨hi, hfill.ids_stop, hfill.commitCount_pos, hfill.ids_rise⟩
    have h3 := (Layout.checkCommits_eq_ok_iff hlimit (hslots .commits)).mpr
      ⟨hc, hfill.commits_stop, hfill.commitCount_pos⟩
    have h4 := (Layout.checkEdges_eq_ok_iff hlimit (hslots .edges)).mpr he
    refine bind_eq_ok.mpr ⟨_, h1, bind_eq_ok.mpr ⟨_, h2, bind_eq_ok.mpr ⟨_, h3, ?_⟩⟩⟩
    exact bind_eq_ok.mpr ⟨_, h4, rfl⟩

end Ancestry
