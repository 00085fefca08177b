import Ancestry.Proofs.Chunk.Assembly
import Ancestry.Proofs.Graph.Tables

/-!
# Tables put into files

Of the tables of a file that was read nothing is known but that they are sound. Here is the other
direction: all sound tables can be put into a file, and it is read as these tables. So whatever may
be wrong with sound tables does occur in files that are read.
-/

namespace Ancestry.Tables

/-- The chunks that hold the tables. The edges stand in front, since there may be none of them and
the last chunk must hold something. -/
def payloads (t : Tables) : List Payload :=
  [⟨.edges, t.edges.toList.flatMap (Bytes.ofNat 4)⟩,
    ⟨.fanout, t.fanout.toList.flatMap (Bytes.ofNat 4)⟩,
    ⟨.ids, t.ids.toList.flatMap ObjectId.toBytes⟩,
    ⟨.commits, t.records.toList.flatMap Record.toBytes⟩]

def file (t : Tables) : Bytes :=
  Payload.file t.payloads

/-- Where the edges end in the file. The directory in front of them has five entries. -/
def edgesStop (t : Tables) : Nat := 68 + 4 * t.edges.size

def layout (t : Tables) : Layout where
  fanout := ⟨t.edgesStop, t.edgesStop + 1024⟩
  ids := ⟨t.edgesStop + 1024, t.edgesStop + 1024 + 20 * t.size⟩
  commits := ⟨t.edgesStop + 1024 + 20 * t.size, t.edgesStop + 1024 + 20 * t.size + 36 * t.size⟩
  edges := if t.edges.size = 0 then ⟨0, 0⟩ else ⟨68, t.edgesStop⟩
  commitCount := t.size
  edgeCount := t.edges.size

section Chunks

variable (t : Tables)

theorem length_payloads : t.payloads.length < 256 := by
  change 4 < 256
  decide

def places : List (Tag × Span) :=
  [(.edges, ⟨68, t.edgesStop⟩), (.fanout, t.layout.fanout), (.ids, t.layout.ids),
    (.commits, t.layout.commits)]

theorem spans_payloads : Payload.spans (Payload.start t.payloads) t.payloads = t.places := by
  simp only [payloads, Payload.spans, Bytes.length_flatMap_ofNat, ObjectId.length_flatMap_toBytes,
    Record.length_flatMap_toBytes, Vector.length_toList, Array.length_toList, t.size_records]
  rfl

theorem filter_places {m : Tag × Span} (hm : m ∈ t.places) : t.places.filter (·.1 = m.1) = [m] := by
  apply Payload.filter_eq_singleton _ hm
  change [Tag.edges, .fanout, .ids, .commits].Nodup
  decide

theorem length_file : t.file.length = t.edgesStop + 1024 + 56 * t.size + 20 := by
  have hstart : Payload.start t.payloads = 68 := rfl
  have hsize : t.ids.size = t.size := rfl
  rw [file, Payload.length_file t.length_payloads, hstart, edgesStop]
  simp only [payloads, Payload.size_cons, Payload.size_nil, Bytes.length_flatMap_ofNat,
    ObjectId.length_flatMap_toBytes, Record.length_flatMap_toBytes, Vector.length_toList,
    Array.length_toList, t.size_records, hsize]
  omega

theorem window_file (tag : Tag) {data : Bytes} {span : Span} (hp : ⟨tag, data⟩ ∈ t.payloads)
    (hplace : (tag, span) ∈ t.places) : t.file.window span.start span.stop = data := by
  apply Payload.window_of_spans t.length_payloads hp
  rw [spans_payloads]
  exact t.filter_places hplace

end Chunks

namespace Sound

variable {t : Tables} (sound : t.Sound)
include sound

theorem length_file_lt : t.file.length < Format.sizeLimit := by
  have hsize := sound.size_lt
  have hedges := sound.edges_size_lt
  rw [UInt32.size] at hsize hedges
  rw [length_file, edgesStop, Format.sizeLimit]
  omega

theorem lt_of_mem_fanout {n : Nat} (hn : n ∈ t.fanout.toList) : n < UInt32.size := by
  obtain ⟨b, hb, rfl⟩ := List.getElem_of_mem hn
  rw [Vector.length_toList] at hb
  have hle : t.countThrough ⟨b, hb⟩ ≤ t.countThrough 255 :=
    sound.fanout_rises _ _ (Nat.le_of_lt_succ hb)
  rw [sound.fanout_last] at hle
  exact Nat.lt_of_le_of_lt hle sound.size_lt

theorem ofLayout_file : ofLayout t.file t.layout = t := by
  apply eq_of_fields
  · exact fanout_of_window (Vector.length_toList) (fun _ => sound.lt_of_mem_fanout)
      (t.window_file .fanout (by simp [payloads]) (by simp [places]))
  · exact ids_of_window rfl (t.window_file .ids (by simp [payloads]) (by simp [places]))
  · exact records_of_window t.size_records.symm
      (fun r hr => sound.records_fit r (Array.mem_toList_iff.mp hr))
      (t.window_file .commits (by simp [payloads]) (by simp [places]))
  · refine edges_of_window rfl (fun n hn => sound.edges_lt n (Array.mem_toList_iff.mp hn)) ?_
    intro hne
    have hspan : t.layout.edges = ⟨68, t.edgesStop⟩ :=
      if_neg fun hnone => hne (List.length_eq_zero_iff.mp hnone)
    rw [hspan]
    exact t.window_file .edges (by simp [payloads]) (by simp [places])

theorem carries : Payload.Carries t.payloads t.layout where
  count := t.length_payloads
  known := by
    intro p hp
    simp only [payloads, List.mem_cons, List.not_mem_nil, or_false] at hp
    rcases hp with rfl | rfl | rfl | rfl <;> simp
  last := by
    intro p hp
    have hlast : t.payloads.getLast? = some ⟨.commits, t.records.toList.flatMap Record.toBytes⟩ :=
      rfl
    obtain rfl := Option.some.inj (hlast.symm.trans hp)
    have hpos := sound.size_pos
    apply List.ne_nil_of_length_pos
    rw [Record.length_flatMap_toBytes, Array.length_toList, t.size_records]
    change 0 < 36 * t.size
    omega
  fanout := by rw [spans_payloads]; rfl
  ids := by rw [spans_payloads]; rfl
  commits := by rw [spans_payloads]; rfl
  edges := ⟨some ⟨68, t.edgesStop⟩, by rw [spans_payloads]; rfl,
    Layout.edgesAt_some 68 sound.edges_size_lt⟩
  filled := by
    have hread : ofLayout (Payload.file t.payloads) t.layout = t := sound.ofLayout_file
    apply filled_of_ofLayout rfl rfl rfl
    · change t.edgesStop + 1024 + 20 * t.size ≤ t.file.length
      rw [length_file]
      omega
    · exact sound.size_pos
    · rw [hread]
      exact sound.fanout_rises
    · rw [hread]
      exact sound.fanout_last
    · rw [hread]
      exact sound.ids_ascending

theorem parse_file : Graph.parse t.file = .ok (Format.graph t.file t.layout) :=
  sound.carries.parse_file sound.length_file_lt

end Sound

/-- The tables of the files that are read are the sound ones, no more and no fewer. -/
theorem sound_iff_exists_parse {t : Tables} : t.Sound ↔
    ∃ file g, file.length < Format.sizeLimit ∧ Graph.parse file = .ok g ∧ g.tables = t := by
  constructor
  · intro sound
    exact ⟨t.file, _, sound.length_file_lt, sound.parse_file, sound.ofLayout_file⟩
  · rintro ⟨file, g, hfile, h, rfl⟩
    exact Graph.sound_of_parse hfile h

def dated (time : Nat) : Tables where
  fanout := Vector.ofFn fun _ => 1
  ids := #[.zero]
  records := #[⟨.zero, Record.noParent, Record.noParent, 1, time⟩]
  edges := #[]
  size_records := rfl

theorem countThrough_dated (time : Nat) (b : Fin 256) : (dated time).countThrough b = 1 :=
  Vector.getElem_ofFn b.isLt

theorem sound_dated {time : Nat} (h : time ≤ Record.maxTime) : (dated time).Sound where
  fanout_rises a b _ :=
    Nat.le_of_eq ((countThrough_dated time a).trans (countThrough_dated time b).symm)
  fanout_last := countThrough_dated time 255
  ids_ascending := List.pairwise_singleton _ _
  size_pos := Nat.one_pos
  size_lt := (by decide : 1 < UInt32.size)
  records_fit r hr := by
    obtain rfl := List.mem_singleton.mp (Array.mem_toList_iff.mpr hr)
    have hnone := Nat.lt_trans Record.noParent_lt_flag (by decide : Record.flag < UInt32.size)
    exact ⟨hnone, hnone, (by decide : 1 ≤ Record.maxGeneration), h⟩
  edges_lt e he := by
    simp only [dated, List.mem_toArray, List.not_mem_nil] at he
  edges_size_lt := (by decide : 0 < UInt32.size)

theorem length_body_dated (time : Nat) : (Payload.body (dated time).payloads).length = 1148 := by
  have hlength : (dated time).file.length = 1168 := (dated time).length_file
  rw [file, Payload.file, List.length_append, ObjectId.length_toBytes] at hlength
  exact Nat.add_right_cancel hlength

/-- Two files that differ in nothing but a time have different trailers. -/
theorem ofContents_dated_ne : ObjectId.ofContents (Payload.body (dated 0).payloads) ≠
    ObjectId.ofContents (Payload.body (dated 1).payloads) := by
  decide +kernel

end Ancestry.Tables
