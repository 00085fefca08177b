import Ancestry.Layout
import Ancestry.Proofs.Chunk.Directory

/-!
# Collecting the chunks of a graph

Each kind that carries the graph has a slot. Collecting succeeds when no slot is claimed twice, and
then a slot holds the one chunk of its kind, if there is one. Bloom chunks only lengthen the list of
what was passed over.
-/

namespace Ancestry

open Outcome

namespace Kind

def IsCore : Kind → Prop
  | .bloom _ => False
  | _ => True

instance decidableIsCore : DecidablePred IsCore
  | .fanout | .ids | .commits | .edges => isTrue trivial
  | .bloom _ => isFalse id

theorem forall_core_iff {p : Kind → Prop} :
    (∀ k : Kind, k.IsCore → p k) ↔ p .fanout ∧ p .ids ∧ p .commits ∧ p .edges := by
  constructor
  · intro h
    exact ⟨h .fanout trivial, h .ids trivial, h .commits trivial, h .edges trivial⟩
  · rintro ⟨hfanout, hids, hcommits, hedges⟩ k hk
    cases k with
    | fanout => exact hfanout
    | ids => exact hids
    | commits => exact hcommits
    | edges => exact hedges
    | bloom t => exact False.elim hk

theorem ofTag?_of_core {k : Kind} (h : k.IsCore) : ofTag? k.tag = some k := by
  cases k with
  | bloom t => exact False.elim h
  | _ => rfl

end Kind

namespace Draft

def slot (d : Draft) : Kind → Option Chunk
  | .fanout => d.fanout
  | .ids => d.ids
  | .commits => d.commits
  | .edges => d.edges
  | .bloom _ => none

theorem eq_iff_slot {d e : Draft} :
    d = e ↔ (∀ k : Kind, k.IsCore → (d.slot k).toList = (e.slot k).toList) ∧
      d.skipped = e.skipped := by
  have hinj {x y : Option Chunk} : x.toList = y.toList ↔ x = y := by
    cases x <;> cases y <;> simp
  cases d
  cases e
  simp only [Kind.forall_core_iff, hinj, slot, Draft.mk.injEq, and_assoc]

theorem claim_eq_ok_iff {taken : Option Chunk} {c : Chunk} {d e : Draft} :
    claim taken c d = .ok e ↔ taken = none ∧ d = e := by
  cases taken <;> simp [claim]

theorem toList_append_singleton_iff {x y : Option Chunk} {c : Chunk} :
    x.toList ++ [c] = y.toList ↔ x = none ∧ [c] = y.toList := by
  cases x <;> cases y <;> simp

/-- Taking in a chunk appends it to its slot, which must have been empty, or to what was passed over,
and to nothing else. -/
theorem push_eq_ok_iff {d e : Draft} {c : Chunk} :
    d.push c = .ok e ↔
      (∀ k : Kind, k.IsCore → (d.slot k).toList ++ [c].filter (·.kind = k) = (e.slot k).toList) ∧
        d.skipped ++ [c].filter (¬ ·.kind.IsCore) = e.skipped := by
  obtain ⟨kind, offset, length⟩ := c
  cases kind with
  | bloom t =>
    rw [push, Except.ok.injEq, eq_iff_slot, Kind.forall_core_iff, Kind.forall_core_iff]
    simp [slot, Kind.IsCore]
  | _ =>
    rw [push, claim_eq_ok_iff, eq_iff_slot, Kind.forall_core_iff, Kind.forall_core_iff]
    simp [slot, Kind.IsCore, toList_append_singleton_iff, and_assoc, and_left_comm]

theorem exists_push {d : Draft} {c : Chunk} (h : c.kind.IsCore → d.slot c.kind = none) :
    ∃ e, d.push c = .ok e := by
  obtain ⟨kind, offset, length⟩ := c
  cases kind with
  | bloom t => exact ⟨_, rfl⟩
  | _ => exact ⟨_, claim_eq_ok_iff.mpr ⟨h trivial, rfl⟩⟩

theorem foldlM_push_eq_ok_iff {chunks : List Chunk} {d e : Draft} :
    chunks.foldlM push d = .ok e ↔
      (∀ k : Kind, k.IsCore →
        (d.slot k).toList ++ chunks.filter (·.kind = k) = (e.slot k).toList) ∧
      d.skipped ++ chunks.filter (¬ ·.kind.IsCore) = e.skipped := by
  induction chunks generalizing d with
  | nil =>
    have hnil : [].foldlM push d = Except.ok d := rfl
    simp only [hnil, Except.ok.injEq, eq_iff_slot, List.filter_nil, List.append_nil]
  | cons c chunks ih =>
    have hsplit (p : Chunk → Bool) :
        (c :: chunks).filter p = [c].filter p ++ chunks.filter p := by
      rw [← List.filter_append]
      rfl
    rw [List.foldlM_cons, bind_eq_ok]
    constructor
    · rintro ⟨f, hpush, hrest⟩
      obtain ⟨hslots, hskipped⟩ := push_eq_ok_iff.mp hpush
      obtain ⟨hslots', hskipped'⟩ := ih.mp hrest
      refine ⟨fun k hk => ?_, ?_⟩
      · rw [hsplit, ← List.append_assoc, hslots k hk, hslots' k hk]
      · rw [hsplit, ← List.append_assoc, hskipped, hskipped']
    · rintro ⟨hslots, hskipped⟩
      have hfree (hcore : c.kind.IsCore) : d.slot c.kind = none := by
        have hlen := congrArg List.length (hslots c.kind hcore)
        have hle : (e.slot c.kind).toList.length ≤ 1 := by cases e.slot c.kind <;> simp
        cases hslot : d.slot c.kind with
        | none => rfl
        | some x =>
          simp [hslot] at hlen
          omega
      obtain ⟨f, hpush⟩ := exists_push hfree
      obtain ⟨hslots', hskipped'⟩ := push_eq_ok_iff.mp hpush
      refine ⟨f, hpush, ih.mpr ⟨fun k hk => ?_, ?_⟩⟩
      · rw [← hslots' k hk, List.append_assoc, ← hsplit, hslots k hk]
      · rw [← hskipped', List.append_assoc, ← hsplit, hskipped]

/-- Collecting succeeds when no kind comes twice, and keeps the chunk of each kind. -/
theorem ofChunks_eq_ok_iff {chunks : List Chunk} {d : Draft} :
    ofChunks chunks = .ok d ↔
      (∀ k : Kind, k.IsCore → chunks.filter (·.kind = k) = (d.slot k).toList) ∧
        chunks.filter (¬ ·.kind.IsCore) = d.skipped := by
  have hempty (k : Kind) : (empty.slot k).toList = [] := by cases k <;> rfl
  have hskipped : empty.skipped = [] := rfl
  rw [ofChunks, foldlM_push_eq_ok_iff]
  simp only [hempty, hskipped, List.nil_append]

theorem mem_of_slot {chunks : List Chunk} {d : Draft} (hd : ofChunks chunks = .ok d) {k : Kind}
    {c : Chunk} (hc : d.slot k = some c) : c ∈ chunks := by
  have hk : k.IsCore := by
    cases k with
    | bloom t => cases hc
    | _ => trivial
  have hmem : c ∈ chunks.filter (·.kind = k) := by
    rw [(ofChunks_eq_ok_iff.mp hd).1 k hk, hc]
    exact List.mem_singleton_self c
  exact (List.mem_filter.mp hmem).1

end Draft

namespace Directory

variable {limit : Nat} {chunks : List Chunk} {entries : List Entry}
variable (hwithin : ∀ c ∈ chunks, c.Within limit)
variable (hplaces : chunks.map Chunk.place = places limit entries)
include hwithin hplaces

theorem placed_eq_filter {k : Kind} (hk : k.IsCore) :
    placed limit entries k.tag = (chunks.filter (·.kind = k)).map Chunk.place := by
  rw [placed, ← hplaces, List.filter_map]
  congr 1
  apply List.filter_congr
  intro c hc
  have htag : c.place.1 = k.tag ↔ c.kind = k :=
    ⟨Kind.eq_of_tag_eq (hwithin c hc).known (Kind.ofTag?_of_core hk), fun h => congrArg Kind.tag h⟩
  simp [htag]

theorem placed_eq_slot {d : Draft} (hdraft : Draft.ofChunks chunks = .ok d) {k : Kind}
    (hk : k.IsCore) :
    placed limit entries k.tag = ((d.slot k).map Chunk.span).toList.map (k.tag, ·) := by
  have hplace : ∀ c ∈ chunks.filter (·.kind = k), c.place = (k.tag, c.span) := by
    intro c hc
    have hkind : c.kind = k := by simpa using (List.mem_filter.mp hc).2
    rw [Chunk.place, hkind]
  rw [placed_eq_filter hwithin hplaces hk, List.map_congr_left hplace,
    (Draft.ofChunks_eq_ok_iff.mp hdraft).1 k hk]
  cases d.slot k <;> rfl

theorem slot_eq_of_placed {d : Draft} (hdraft : Draft.ofChunks chunks = .ok d) {k : Kind}
    (hk : k.IsCore) {span : Option Span}
    (hspan : placed limit entries k.tag = span.toList.map (k.tag, ·)) :
    (d.slot k).map Chunk.span = span := by
  have hinj {x y : Option Span} (h : x.toList.map (k.tag, ·) = y.toList.map (k.tag, ·)) :
      x = y := by
    cases x <;> cases y <;> simp_all
  rw [placed_eq_slot hwithin hplaces hdraft hk] at hspan
  exact hinj hspan

theorem exists_draft (honce : ∀ k : Kind, k.IsCore → (placed limit entries k.tag).length ≤ 1) :
    ∃ d, Draft.ofChunks chunks = .ok d := by
  have hhead {cs : List Chunk} (h : cs.length ≤ 1) : cs = cs.head?.toList := by
    match cs with
    | [] => rfl
    | [c] => rfl
    | _ :: _ :: _ => simp at h
  have hslot (k : Kind) (hk : k.IsCore) : chunks.filter (·.kind = k) =
      (chunks.filter (·.kind = k)).head?.toList := by
    have hlen := honce k hk
    rw [placed_eq_filter hwithin hplaces hk, List.length_map] at hlen
    exact hhead hlen
  refine ⟨⟨(chunks.filter (·.kind = .fanout)).head?, (chunks.filter (·.kind = .ids)).head?,
    (chunks.filter (·.kind = .commits)).head?, (chunks.filter (·.kind = .edges)).head?,
    chunks.filter (¬ ·.kind.IsCore)⟩, ?_⟩
  rw [Draft.ofChunks_eq_ok_iff, Kind.forall_core_iff]
  exact ⟨⟨hslot .fanout trivial, hslot .ids trivial, hslot .commits trivial, hslot .edges trivial⟩,
    rfl⟩

end Directory

end Ancestry
