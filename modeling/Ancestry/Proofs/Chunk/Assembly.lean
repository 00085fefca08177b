import Ancestry.Chunk.Assembly
import Ancestry.Proofs.Format

/-!
# Files put together

The chunks of an assembled file lie one after the other from the end of the directory to the
trailer, and the directory says where. Only an empty last chunk would be announced where the trailer
begins, and no reader takes that.
-/

namespace Ancestry

attribute [local instance (high)] instPowNat

theorem Entry.ofBytes_toBytes {e : Entry} (h : e.offset < UInt64.size) : ofBytes e.toBytes = e := by
  have hoffset : Bytes.toNat (Bytes.ofNat 8 e.offset) = e.offset := Bytes.toNat_ofNat_of_lt h
  have hdrop : e.toBytes.drop 4 = Bytes.ofNat 8 e.offset := rfl
  rw [ofBytes, hdrop, hoffset]
  rfl

theorem Directory.entriesOf_append {header : Bytes} {entries : List Entry} (rest : Bytes)
    (hheader : header.length = 8) (h : ∀ e ∈ entries, e.offset < UInt64.size) :
    entriesOf (header ++ entries.flatMap Entry.toBytes ++ rest) entries.length = entries := by
  have hlength : ∀ e ∈ entries, e.toBytes.length = 12 := fun e _ => by simp [Entry.toBytes]
  have hstop : 8 + (entries.flatMap Entry.toBytes).length = 8 + 12 * entries.length := by
    rw [Bytes.length_flatMap_of_length hlength]
  rw [← map_ofBytes_blocks, Bytes.window_append hheader hstop]
  exact Bytes.map_blocks_flatMap hlength fun e he => Entry.ofBytes_toBytes (h e he)

theorem ObjectId.length_flatMap_toBytes (ids : List ObjectId) :
    (ids.flatMap toBytes).length = 20 * ids.length :=
  Bytes.length_flatMap_of_length fun id _ => id.length_toBytes

theorem Record.length_flatMap_toBytes (records : List Record) :
    (records.flatMap toBytes).length = 36 * records.length :=
  Bytes.length_flatMap_of_length fun r _ => r.length_toBytes

namespace Payload

variable {payloads : List Payload} {offset floor : Nat} {tag : Tag}

def size (payloads : List Payload) : Nat := (payloads.flatMap Payload.data).length

/-- The directory without the entry that closes it. -/
def lines (offset : Nat) : List Payload → List Entry
  | [] => []
  | p :: rest => ⟨p.tag, offset⟩ :: lines (offset + p.data.length) rest

/-- The tags of the chunks, each with the bytes it takes. -/
def spans (offset : Nat) : List Payload → List (Tag × Span)
  | [] => []
  | p :: rest => (p.tag, ⟨offset, offset + p.data.length⟩) :: spans (offset + p.data.length) rest

@[simp] theorem size_nil : size [] = 0 := rfl

@[simp] theorem size_cons (p : Payload) (rest : List Payload) :
    size (p :: rest) = p.data.length + size rest := by
  rw [size, List.flatMap_cons, List.length_append]
  rfl

@[simp] theorem length_lines (offset : Nat) (payloads : List Payload) :
    (lines offset payloads).length = payloads.length := by
  induction payloads generalizing offset with
  | nil => rfl
  | cons p rest ih => rw [lines, List.length_cons, ih, List.length_cons]

theorem directory_eq (offset : Nat) (payloads : List Payload) :
    directory offset payloads = lines offset payloads ++ [⟨.terminator, offset + size payloads⟩] := by
  induction payloads generalizing offset with
  | nil => rfl
  | cons p rest ih => rw [directory, ih, lines, List.cons_append, size_cons, Nat.add_assoc]

theorem exists_of_mem_lines {e : Entry} (h : e ∈ lines offset payloads) :
    ∃ p ∈ payloads, p.tag = e.tag := by
  induction payloads generalizing offset with
  | nil => cases h
  | cons p rest ih =>
    rcases List.mem_cons.mp h with rfl | h
    · exact ⟨p, List.mem_cons_self, rfl⟩
    · obtain ⟨q, hq, htag⟩ := ih h
      exact ⟨q, List.mem_cons_of_mem p hq, htag⟩

theorem offset_le_of_mem_lines {e : Entry} (h : e ∈ lines offset payloads) :
    e.offset ≤ offset + size payloads := by
  induction payloads generalizing offset with
  | nil => cases h
  | cons p rest ih =>
    rw [size_cons]
    rcases List.mem_cons.mp h with rfl | h
    · exact Nat.le_add_right _ _
    · have := ih h
      omega

theorem map_tag_lines (offset : Nat) (payloads : List Payload) :
    (lines offset payloads).map Entry.tag = payloads.map Payload.tag := by
  induction payloads generalizing offset with
  | nil => rfl
  | cons p rest ih => rw [lines, List.map_cons, ih, List.map_cons]

theorem map_fst_spans (offset : Nat) (payloads : List Payload) :
    (spans offset payloads).map Prod.fst = payloads.map Payload.tag := by
  induction payloads generalizing offset with
  | nil => rfl
  | cons p rest ih => rw [spans, List.map_cons, ih, List.map_cons]

theorem exists_mem_spans (offset : Nat) {p : Payload} (h : p ∈ payloads) :
    ∃ start, (p.tag, Span.mk start (start + p.data.length)) ∈ spans offset payloads := by
  induction payloads generalizing offset with
  | nil => cases h
  | cons q rest ih =>
    rcases List.mem_cons.mp h with rfl | h
    · exact ⟨offset, List.mem_cons_self⟩
    · obtain ⟨start, hstart⟩ := ih (offset + q.data.length) h
      exact ⟨start, List.mem_cons_of_mem _ hstart⟩

theorem length_filter_spans (offset : Nat) (payloads : List Payload) (tag : Tag) :
    ((spans offset payloads).filter (·.1 = tag)).length =
      (payloads.filter (·.tag = tag)).length := by
  have hcount := congrArg (List.countP (· = tag)) (map_fst_spans offset payloads)
  rw [List.countP_map, List.countP_map, List.countP_eq_length_filter,
    List.countP_eq_length_filter] at hcount
  exact hcount

theorem places_lines (offset : Nat) (payloads : List Payload) :
    Directory.places (offset + size payloads) (lines offset payloads) = spans offset payloads := by
  induction payloads generalizing offset with
  | nil => rfl
  | cons p rest ih =>
    have hrest := ih (offset + p.data.length)
    rw [Nat.add_assoc, ← size_cons] at hrest
    cases rest with
    | nil => simp [lines, spans, Directory.places]
    | cons q rest =>
      exact congrArg ((p.tag, Span.mk offset (offset + p.data.length)) :: ·) hrest

theorem inOrder_lines (hfloor : floor ≤ offset)
    (hlast : ∀ p, payloads.getLast? = some p → p.data ≠ []) :
    Directory.InOrder (offset + size payloads) floor (lines offset payloads) := by
  induction payloads generalizing offset floor with
  | nil => exact ⟨List.Pairwise.nil, by simp [lines], by simp [lines]⟩
  | cons p rest ih =>
    have htail : ∀ q, rest.getLast? = some q → q.data ≠ [] := by
      intro q hq
      apply hlast q
      rw [List.getLast?_cons, hq]
      rfl
    have hrest := ih (Nat.le_add_right offset p.data.length) htail
    rw [Nat.add_assoc, ← size_cons] at hrest
    refine Directory.inOrder_cons_iff.mpr ⟨hfloor, ?_, hrest⟩
    change offset < offset + size (p :: rest)
    -- An empty chunk still starts before the trailer if anything comes after it.
    have hpos : 0 < size (p :: rest) := by
      cases rest with
      | nil =>
        have := List.length_pos_iff.mpr (hlast p rfl)
        rw [size_cons]
        omega
      | cons q rest =>
        have hbelow := hrest.below _ List.mem_cons_self
        change offset + p.data.length < offset + size (p :: q :: rest) at hbelow
        omega
    omega

theorem data_ne_nil_of_inOrder
    (h : Directory.InOrder (offset + size payloads) floor (lines offset payloads)) :
    ∀ p, payloads.getLast? = some p → p.data ≠ [] := by
  induction payloads generalizing offset floor with
  | nil => simp
  | cons q rest ih =>
    obtain ⟨_, hbelow, hrest⟩ := Directory.inOrder_cons_iff.mp h
    rw [size_cons, ← Nat.add_assoc] at hbelow hrest
    cases rest with
    | nil =>
      intro p hp
      obtain rfl : q = p := Option.some.inj hp
      apply List.ne_nil_of_length_pos
      change offset < offset + q.data.length at hbelow
      omega
    | cons r rest => exact ih hrest

theorem map_window_spans (payloads : List Payload) {left : Bytes} (right : Bytes)
    (hleft : left.length = offset) :
    (spans offset payloads).map (fun m =>
      (m.1, (left ++ payloads.flatMap Payload.data ++ right).window m.2.start m.2.stop)) =
        payloads.map fun p => (p.tag, p.data) := by
  induction payloads generalizing left offset with
  | nil => rfl
  | cons p rest ih =>
    have hsplit : left ++ (p :: rest).flatMap Payload.data ++ right =
        left ++ p.data ++ rest.flatMap Payload.data ++ right := by
      simp
    have hfirst : (left ++ p.data ++ rest.flatMap Payload.data ++ right).window offset
        (offset + p.data.length) = p.data := by
      rw [List.append_assoc]
      exact Bytes.window_append hleft rfl
    rw [hsplit, spans, List.map_cons, List.map_cons, hfirst, ih (by simp [hleft])]

theorem filter_spans_eq_nil (h : ∀ p ∈ payloads, p.tag ≠ tag) :
    (spans offset payloads).filter (·.1 = tag) = [] := by
  induction payloads generalizing offset with
  | nil => rfl
  | cons p rest ih =>
    rw [spans, List.filter_cons_of_neg (by simpa using h p List.mem_cons_self),
      ih fun q hq => h q (List.mem_cons_of_mem p hq)]

theorem filter_eq_singleton {places : List (Tag × Span)} (h : (places.map Prod.fst).Nodup)
    {m : Tag × Span} (hm : m ∈ places) : places.filter (·.1 = m.1) = [m] := by
  induction places with
  | nil => cases hm
  | cons n rest ih =>
    obtain ⟨hnew, hrest⟩ := List.nodup_cons.mp h
    rcases List.mem_cons.mp hm with rfl | hm
    · have hnone : rest.filter (·.1 = m.1) = [] := by
        apply List.filter_eq_nil_iff.mpr
        intro x hx
        rw [decide_eq_true_eq]
        intro heq
        exact hnew (List.mem_map.mpr ⟨x, hx, heq⟩)
      rw [List.filter_cons_of_pos (by simp), hnone]
    · have hne : n.1 ≠ m.1 := fun heq => hnew (List.mem_map.mpr ⟨m, hm, heq.symm⟩)
      rw [List.filter_cons_of_neg (by simpa using hne), ih hrest hm]

def file (payloads : List Payload) : Bytes :=
  body payloads ++ (ObjectId.ofContents (body payloads)).toBytes

def start (payloads : List Payload) : Nat := 8 + 12 * (payloads.length + 1)

theorem assemble_eq_ok_iff {bs : Bytes} :
    assemble payloads = .ok bs ↔ payloads.length < 256 ∧ file payloads = bs := by
  rw [assemble]
  split
  · next h => simp [Nat.not_lt.mpr h]
  · next h => simp [Nat.not_le.mp h, file]

theorem assemble_eq_error_iff {e : GraphError} :
    assemble payloads = .error e ↔ 256 ≤ payloads.length ∧ .tooMany .chunks = e := by
  rw [assemble]
  split
  · next h => simp [h]
  · next h => simp [h]

theorem length_header (payloads : List Payload) :
    (Header.standalone (UInt8.ofNat payloads.length)).toBytes.length = 8 := rfl

section File

variable (hcount : payloads.length < 256)
include hcount

theorem body_eq : body payloads =
    (Header.standalone (UInt8.ofNat payloads.length)).toBytes ++
      (lines (start payloads) payloads).flatMap Entry.toBytes ++
        (Entry.toBytes ⟨.terminator, start payloads + size payloads⟩ ++
          payloads.flatMap Payload.data) := by
  have hend : (Header.standalone (UInt8.ofNat payloads.length)).tableEnd = start payloads := by
    change 8 + ((UInt8.ofNat payloads.length).toNat + 1) * 12 = _
    rw [UInt8.toNat_ofNat_of_lt' hcount, start, Nat.mul_comm]
  rw [body, hend, directory_eq, List.flatMap_append]
  simp

theorem take_body_append (rest : Bytes) : (body payloads ++ rest).take 8 =
    (Header.standalone (UInt8.ofNat payloads.length)).toBytes := by
  rw [body_eq hcount, List.append_assoc, List.append_assoc]
  exact List.take_left' (length_header payloads)

theorem length_body : (body payloads).length = start payloads + size payloads := by
  have hlines : ((lines (start payloads) payloads).flatMap Entry.toBytes).length =
      12 * payloads.length := by
    rw [Bytes.length_flatMap_of_length (k := 12) fun e _ => by simp [Entry.toBytes], length_lines]
  rw [body_eq hcount]
  simp only [List.length_append, hlines, Entry.toBytes, Tag.length_toBytes, Bytes.length_ofNat]
  change 8 + _ + (4 + 8 + size payloads) = _
  rw [start]
  omega

theorem length_file : (file payloads).length = start payloads + size payloads + 20 := by
  rw [file, List.length_append, length_body hcount, ObjectId.length_toBytes]

theorem trailer_file : Format.trailer (file payloads) = start payloads + size payloads := by
  rw [Format.trailer, length_file hcount, Nat.add_sub_cancel]

theorem take_file : (file payloads).take (Format.trailer (file payloads)) = body payloads := by
  rw [trailer_file hcount]
  exact List.take_left' (length_body hcount)

theorem drop_file : (file payloads).drop (Format.trailer (file payloads)) =
    (ObjectId.ofContents (body payloads)).toBytes := by
  rw [trailer_file hcount]
  exact List.drop_left' (length_body hcount)

theorem chunkCount_file : Format.chunkCount (file payloads) = payloads.length := by
  have hbyte : (file payloads).getD 6 0 = UInt8.ofNat payloads.length := by
    rw [file, body_eq hcount]
    rfl
  rw [Format.chunkCount, hbyte, UInt8.toNat_ofNat_of_lt' hcount]

theorem tableEnd_file : Format.tableEnd (file payloads) = start payloads := by
  rw [Format.tableEnd, chunkCount_file hcount, start]

theorem take_six_file : (file payloads).take 6 = [0x43, 0x47, 0x50, 0x48, 1, 1] := by
  rw [file, body_eq hcount]
  rfl

theorem entries_file (hsize : (file payloads).length < UInt64.size) :
    Format.entries (file payloads) = lines (start payloads) payloads := by
  have hoffset : ∀ e ∈ lines (start payloads) payloads, e.offset < UInt64.size := by
    intro e he
    have hle := offset_le_of_mem_lines he
    rw [length_file hcount] at hsize
    omega
  have hbody := body_eq hcount
  have hentries := Directory.entriesOf_append (Entry.toBytes
    ⟨.terminator, start payloads + size payloads⟩ ++ payloads.flatMap Payload.data ++
      (ObjectId.ofContents (body payloads)).toBytes)
    (length_header payloads) hoffset
  rw [length_lines, ← List.append_assoc, ← hbody] at hentries
  rw [Format.entries, chunkCount_file hcount]
  exact hentries

theorem map_window_file : (spans (start payloads) payloads).map (fun m =>
    (m.1, (file payloads).window m.2.start m.2.stop)) = payloads.map fun p => (p.tag, p.data) := by
  have hbody := body_eq hcount
  rw [← List.append_assoc] at hbody
  have hleft := length_body hcount
  rw [hbody, List.length_append] at hleft
  have hwindows := map_window_spans payloads (ObjectId.ofContents (body payloads)).toBytes
    (Nat.add_right_cancel hleft)
  rwa [← hbody] at hwindows

/-- A chunk that is the only one of its kind stands in the file where its span says. -/
theorem window_of_spans {data : Bytes} {span : Span} (hp : ⟨tag, data⟩ ∈ payloads)
    (h : (spans (start payloads) payloads).filter (·.1 = tag) = [(tag, span)]) :
    (file payloads).window span.start span.stop = data := by
  have hmem : (tag, data) ∈ payloads.map fun p => (p.tag, p.data) :=
    List.mem_map.mpr ⟨_, hp, rfl⟩
  rw [← map_window_file hcount] at hmem
  obtain ⟨m, hm, heq⟩ := List.mem_map.mp hmem
  obtain ⟨htag, hdata⟩ := Prod.mk.inj heq
  have honly : m ∈ (spans (start payloads) payloads).filter (·.1 = tag) :=
    List.mem_filter.mpr ⟨hm, by simp [htag]⟩
  rw [h, List.mem_singleton] at honly
  rw [← hdata, honly]

theorem placed_file (hsize : (file payloads).length < Format.sizeLimit) (tag : Tag) :
    Format.placed (file payloads) tag = (spans (start payloads) payloads).filter (·.1 = tag) := by
  have hword := Nat.lt_trans hsize (by decide : Format.sizeLimit < UInt64.size)
  rw [Format.placed, Directory.placed, entries_file hcount hword, trailer_file hcount, places_lines]

end File

/-- Chunks that a reader takes for a graph of the given layout. -/
structure Carries (payloads : List Payload) (layout : Layout) : Prop where
  count : payloads.length < 256
  known : ∀ p ∈ payloads, p.tag ∈ [Tag.fanout, .ids, .commits, .edges, .bloomIndex, .bloomData]
  last : ∀ p, payloads.getLast? = some p → p.data ≠ []
  fanout : (spans (start payloads) payloads).filter (·.1 = .fanout) = [(.fanout, layout.fanout)]
  ids : (spans (start payloads) payloads).filter (·.1 = .ids) = [(.ids, layout.ids)]
  commits : (spans (start payloads) payloads).filter (·.1 = .commits) = [(.commits, layout.commits)]
  edges : ∃ span,
    (spans (start payloads) payloads).filter (·.1 = .edges) = span.toList.map (Tag.edges, ·) ∧
      Layout.EdgesAt span layout.edges layout.edgeCount
  filled : layout.Filled (file payloads)

section Carries

variable {layout : Layout} (carries : Carries payloads layout)
variable (hsize : (file payloads).length < Format.sizeLimit)
include carries hsize

theorem Carries.wellFormed_file : Format.WellFormed (file payloads) layout := by
  have hcount := carries.count
  have hword := Nat.lt_trans hsize (by decide : Format.sizeLimit < UInt64.size)
  constructor
  · rw [length_file hcount, start]
    omega
  · exact take_six_file hcount
  · rw [chunkCount_file hcount]
    refine List.length_pos_iff.mpr fun hnil => ?_
    have hfanout := carries.fanout
    simp [hnil, spans] at hfanout
  · rw [tableEnd_file hcount, trailer_file hcount]
    exact Nat.le_add_right _ _
  · rw [drop_file hcount, take_file hcount]
  · intro e he
    rw [entries_file hcount hword] at he
    obtain ⟨p, hp, htag⟩ := exists_of_mem_lines he
    exact htag ▸ carries.known p hp
  · rw [entries_file hcount hword, tableEnd_file hcount, trailer_file hcount]
    exact inOrder_lines (Nat.le_refl _) carries.last
  · exact (placed_file hcount hsize .fanout).trans carries.fanout
  · exact (placed_file hcount hsize .ids).trans carries.ids
  · exact (placed_file hcount hsize .commits).trans carries.commits
  · obtain ⟨span, hspan, hedges⟩ := carries.edges
    exact ⟨span, (placed_file hcount hsize .edges).trans hspan, hedges⟩
  · exact carries.filled

theorem Carries.parse_file :
    Graph.parse (file payloads) = .ok (Format.graph (file payloads) layout) :=
  Format.parse_of_wellFormed hsize (carries.wellFormed_file hsize)

end Carries

end Payload

end Ancestry
