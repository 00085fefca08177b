import Ancestry.Proofs.Graph.Reads

/-!
# The directory tiles the file

The chunks of a directory that is read lie one after the other from the end of the directory to the
trailer. Reading needs one pass only: a chunk is kept open until the offset of the next one tells its
length, and the last until the trailer does. No length is ever reckoned backwards.

A directory that was written is read as the chunks that it was written for.
-/

namespace Ancestry

open Outcome

namespace Directory

/-- The chunks lie one after the other and fill what lies from `start` up to `stop`. -/
def Tiles : Nat → List Chunk → Nat → Prop
  | start, [], stop => start = stop
  | start, c :: rest, stop => c.offset = start ∧ Tiles (c.offset + c.length) rest stop

structure Tiled (file : Bytes) (header : Header) (trailer : Nat) (chunks : List Chunk) : Prop where
  count : chunks.length = header.chunkCount.toNat
  listed : chunks.map (fun c => (c.kind.tag, c.offset)) =
    (entriesOf file header.chunkCount.toNat).map fun e => (e.tag, e.offset)
  tiles : ∃ first, chunks.head? = some first ∧ header.tableEnd ≤ first.offset ∧
    Tiles first.offset chunks trailer
  last : ∃ last, chunks.getLast? = some last ∧ 0 < last.length ∧
    last.offset + last.length = trailer
  span_eq : ∀ c ∈ chunks, c.span = ⟨c.offset, c.offset + c.length⟩
  disjoint : chunks.Pairwise fun c d => c.span.stop ≤ d.span.start

section OnePass

open Checked

/-- Gives the chunk that was read last, which is the first of the list, the bytes up to `stop`. -/
def close (stop : Nat) : List Chunk → Checked (List Chunk)
  | [] => .ok []
  | c :: before => (minus stop c.offset).map fun length => ⟨c.kind, c.offset, length⟩ :: before

/-- Takes in an entry after one with the offset `state.1`. Its chunk is still open. -/
def advance (trailer : Nat) (state : Nat × List Chunk) (e : Entry) : Checked (Nat × List Chunk) :=
  if e.offset < state.1 then .error (.error (.offsetFalls e.offset state.1))
  else if trailer ≤ e.offset then .error (.error (.offsetBeyondTrailer e.offset trailer))
  else do
    let closed ← close e.offset state.2
    (Kind.ofTag? e.tag).elim (.error (.error (.unknownTag e.tag))) fun kind =>
      .ok (e.offset, ⟨kind, e.offset, 0⟩ :: closed)

/-- Goes through the entries that are left and closes the last chunk at the trailer. The chunks come
out in reverse. -/
def scan (trailer floor : Nat) (opened : List Chunk) (entries : List Entry) :
    Checked (List Chunk) := do
  let (_, opened) ← entries.foldlM (advance trailer) (floor, opened)
  close trailer opened

/-- The chunks of a file, read in one pass in which every subtraction is checked. -/
def readOnce (file : Bytes) (header : Header) (trailer : Nat) : Checked (List Chunk) := do
  let count := header.chunkCount.toNat
  let directory ← lift (file.slice Header.byteCount (count * Entry.byteCount))
  let entries := (Bytes.blocks Entry.byteCount count directory).map Entry.ofBytes
  let chunks ← scan trailer header.tableEnd [] entries
  .ok chunks.reverse

variable {trailer floor : Nat} {e : Entry} {rest : List Entry} {c : Chunk}
variable {opened closed before : List Chunk}

theorem close_cons {stop : Nat} (h : c.offset ≤ stop) :
    close stop (c :: before) = .ok (⟨c.kind, c.offset, stop - c.offset⟩ :: before) := by
  rw [close, minus_of_le h]
  rfl

/-- What one entry does: it is refused as `check` refuses it, or it closes the chunk before and is
open itself. `result` is what is made of the marks, of which that of the entry is the first. -/
theorem scan_cons {result : List (Kind × Nat) → List Chunk}
    (hclose : floor ≤ e.offset → close e.offset opened = .ok closed)
    (hresult : ∀ kind marks, result ((kind, e.offset) :: marks) =
      (tile trailer ((kind, e.offset) :: marks)).reverse ++ closed)
    (hrest : ∀ kind, e.offset ≤ trailer →
      scan trailer e.offset (⟨kind, e.offset, 0⟩ :: closed) rest =
        lift ((check trailer e.offset rest).map fun marks =>
          (tile trailer ((kind, e.offset) :: marks)).reverse ++ closed)) :
    scan trailer floor opened (e :: rest) =
      lift ((check trailer floor (e :: rest)).map result) := by
  have hscan : scan trailer floor opened (e :: rest) =
      advance trailer (floor, opened) e >>= fun s => scan trailer s.1 s.2 rest := by
    rw [scan, List.foldlM_cons]
    cases advance trailer (floor, opened) e <;> rfl
  rw [hscan, advance, check]
  by_cases hfloor : e.offset < floor
  · rw [if_pos hfloor, if_pos hfloor]
    rfl
  by_cases htrailer : trailer ≤ e.offset
  · rw [if_neg hfloor, if_neg hfloor, if_pos htrailer, if_pos htrailer]
    rfl
  rw [if_neg hfloor, if_neg hfloor, if_neg htrailer, if_neg htrailer,
    hclose (Nat.not_lt.mp hfloor)]
  cases Kind.ofTag? e.tag with
  | none => rfl
  | some kind =>
    refine (hrest kind (Nat.le_of_not_le htrailer)).trans ?_
    cases check trailer e.offset rest with
    | error fault => rfl
    | ok marks => exact congrArg Except.ok (hresult kind marks).symm

/-- While a chunk is open, its offset is the floor. So its length is never reckoned backwards. -/
theorem scan_open (c : Chunk) (before : List Chunk) (entries : List Entry)
    (hc : c.offset ≤ trailer) :
    scan trailer c.offset (c :: before) entries =
      lift ((check trailer c.offset entries).map fun marks =>
        (tile trailer ((c.kind, c.offset) :: marks)).reverse ++ before) := by
  induction entries generalizing c before with
  | nil => exact close_cons hc
  | cons e rest ih =>
    apply scan_cons
    · exact close_cons
    · intro kind marks
      have htile : tile trailer ((c.kind, c.offset) :: (kind, e.offset) :: marks) =
          ⟨c.kind, c.offset, e.offset - c.offset⟩ :: tile trailer ((kind, e.offset) :: marks) := rfl
      rw [htile, List.reverse_cons, List.append_assoc]
      rfl
    · intro kind he
      exact ih ⟨kind, e.offset, 0⟩ _ he

theorem scan_nil (trailer floor : Nat) (entries : List Entry) :
    scan trailer floor [] entries =
      lift ((check trailer floor entries).map fun marks => (tile trailer marks).reverse) := by
  cases entries with
  | nil => rfl
  | cons e rest =>
    apply scan_cons
    · exact fun _ => rfl
    · exact fun kind marks => (List.append_nil _).symm
    · exact fun kind he => scan_open ⟨kind, e.offset, 0⟩ [] rest he

/-- Reading in one pass gives the same chunks and the same refusals. No subtraction goes wrong,
whatever the file is. -/
theorem readOnce_eq (file : Bytes) (header : Header) (trailer : Nat) :
    readOnce file header trailer = lift (read file header trailer) := by
  rw [readOnce, read]
  cases file.slice Header.byteCount (header.chunkCount.toNat * Entry.byteCount) with
  | error fault => rfl
  | ok directory =>
    have hscan := scan_nil trailer header.tableEnd
      ((Bytes.blocks Entry.byteCount header.chunkCount.toNat directory).map Entry.ofBytes)
    refine (congrArg (· >>= fun chunks => Except.ok chunks.reverse) hscan).trans ?_
    dsimp only
    cases check trailer header.tableEnd _ with
    | error fault => rfl
    | ok marks => exact congrArg Except.ok (List.reverse_reverse _)

end OnePass

section Tiles

variable {start stop trailer floor : Nat} {chunks : List Chunk} {entries : List Entry}
variable {marks : List (Kind × Nat)}

namespace Tiles

variable (h : Tiles start chunks stop)
include h

theorem le_offset : ∀ c ∈ chunks, start ≤ c.offset := by
  induction chunks generalizing start with
  | nil => exact List.forall_mem_nil _
  | cons c rest ih =>
    rcases h with ⟨rfl, hrest⟩
    intro d hd
    rcases List.mem_cons.mp hd with rfl | hd
    · exact Nat.le_refl _
    · exact Nat.le_trans (Nat.le_add_right _ _) (ih hrest d hd)

theorem pairwise : chunks.Pairwise fun c d => c.offset + c.length ≤ d.offset := by
  induction chunks generalizing start with
  | nil => exact .nil
  | cons c rest ih =>
    rcases h with ⟨_, hrest⟩
    exact List.pairwise_cons.mpr ⟨le_offset hrest, ih hrest⟩

theorem exists_getLast? (hne : chunks ≠ []) :
    ∃ last, chunks.getLast? = some last ∧ last.offset + last.length = stop := by
  induction chunks generalizing start with
  | nil => exact absurd rfl hne
  | cons c rest ih =>
    rcases h with ⟨_, hrest⟩
    cases rest with
    | nil => exact ⟨c, rfl, hrest⟩
    | cons d rest =>
      obtain ⟨last, hlast, hstop⟩ := ih hrest (List.cons_ne_nil d rest)
      refine ⟨last, ?_, hstop⟩
      rw [List.getLast?_cons_cons, hlast]

end Tiles

theorem map_mark_tile (trailer : Nat) (marks : List (Kind × Nat)) :
    (tile trailer marks).map (fun c => (c.kind, c.offset)) = marks := by
  fun_induction tile trailer marks with
  | case1 => rfl
  | case2 kind start => rfl
  | case3 kind start next stop rest ih => rw [List.map_cons, ih]

theorem tiles_tile {kind : Kind} (hrise : (start :: marks.map Prod.snd).Pairwise (· ≤ ·))
    (hbelow : ∀ n ∈ start :: marks.map Prod.snd, n < trailer) :
    Tiles start (tile trailer ((kind, start) :: marks)) trailer := by
  induction marks generalizing kind start with
  | nil =>
    have hstart := hbelow start List.mem_cons_self
    exact ⟨rfl, Nat.add_sub_cancel' (Nat.le_of_lt hstart)⟩
  | cons m marks ih =>
    obtain ⟨hfirst, hrest⟩ := List.pairwise_cons.mp hrise
    have hnext : start + (m.2 - start) = m.2 :=
      Nat.add_sub_cancel' (hfirst m.2 List.mem_cons_self)
    refine ⟨rfl, ?_⟩
    change Tiles (start + (m.2 - start)) _ trailer
    rw [hnext]
    exact ih hrest fun n hn => hbelow n (List.mem_cons_of_mem start hn)

theorem map_tag_of_named (h : Named entries marks) :
    marks.map (fun m => (m.1.tag, m.2)) = entries.map fun e => (e.tag, e.offset) := by
  induction entries generalizing marks with
  | nil =>
    cases marks with
    | nil => rfl
    | cons m marks => cases h
  | cons e entries ih =>
    cases marks with
    | nil => cases h
    | cons m marks =>
      obtain ⟨hhead, hrest⟩ := List.cons.inj h
      obtain ⟨hkind, hoffset⟩ := Prod.mk.inj hhead
      rw [List.map_cons, List.map_cons, ih hrest, Kind.tag_of_ofTag? hkind]
      exact congrArg (fun offset => (e.tag, offset) :: _) hoffset.symm

theorem map_snd_of_named (h : Named entries marks) :
    marks.map Prod.snd = entries.map Entry.offset := by
  have hoffsets := congrArg (List.map Prod.snd) (map_tag_of_named h)
  rwa [List.map_map, List.map_map] at hoffsets

section Named

variable (horder : InOrder trailer floor entries) (hnamed : Named entries marks)
include hnamed

theorem map_tile_of_named (trailer : Nat) :
    (tile trailer marks).map (fun c => (c.kind.tag, c.offset)) =
      entries.map fun e => (e.tag, e.offset) := by
  rw [← map_tag_of_named hnamed]
  conv => rhs; rw [← map_mark_tile trailer marks, List.map_map]
  rfl

include horder

theorem offset_of_mem_tile {c : Chunk} (hc : c ∈ tile trailer marks) :
    floor ≤ c.offset ∧ c.offset < trailer := by
  have hmem : (c.kind.tag, c.offset) ∈ entries.map fun e => (e.tag, e.offset) := by
    rw [← map_tile_of_named hnamed trailer]
    exact List.mem_map.mpr ⟨c, hc, rfl⟩
  obtain ⟨e, he, heq⟩ := List.mem_map.mp hmem
  rw [← (Prod.mk.inj heq).2]
  exact ⟨horder.above e he, horder.below e he⟩

theorem exists_tiles_of_named (hne : entries ≠ []) :
    ∃ first, (tile trailer marks).head? = some first ∧
      Tiles first.offset (tile trailer marks) trailer := by
  have hoffsets := map_snd_of_named hnamed
  have hrise : (marks.map Prod.snd).Pairwise (· ≤ ·) := by
    rw [hoffsets, List.pairwise_map]
    exact horder.rising
  have hbelow : ∀ n ∈ marks.map Prod.snd, n < trailer := by
    rw [hoffsets]
    exact List.forall_mem_map.mpr horder.below
  match marks with
  | [] => exact absurd (List.map_eq_nil_iff.mp hnamed) hne
  | [(kind, start)] => exact ⟨_, rfl, tiles_tile hrise hbelow⟩
  | (kind, start) :: next :: rest => exact ⟨_, rfl, tiles_tile hrise hbelow⟩

end Named

end Tiles

section Read

variable {file : Bytes} {header : Header} {trailer : Nat} {chunks : List Chunk}

theorem tiled_of_read (htrailer : trailer < UInt64.size) (hcount : 0 < header.chunkCount.toNat)
    (h : read file header trailer = .ok chunks) : Tiled file header trailer chunks := by
  obtain ⟨_, marks, hcheck, rfl⟩ := read_eq_ok_iff.mp h
  obtain ⟨horder, hnamed⟩ := check_eq_ok_iff.mp hcheck
  obtain ⟨hwithin, _⟩ := tile_of_named horder hnamed htrailer
  have hentries : (entriesOf file header.chunkCount.toNat).length = header.chunkCount.toNat := by
    rw [entriesOf, List.length_map, List.length_range]
  have hlisted := map_tile_of_named hnamed trailer
  have hlength := congrArg List.length hlisted
  rw [List.length_map, List.length_map, hentries] at hlength
  have hspan : ∀ c ∈ tile trailer marks, c.span = ⟨c.offset, c.offset + c.length⟩ :=
    fun c hc => Chunk.span_of_within (hwithin c hc) htrailer
  have hsome := List.ne_nil_of_length_pos (Nat.lt_of_lt_of_eq hcount hentries.symm)
  have hsome' := List.ne_nil_of_length_pos (Nat.lt_of_lt_of_eq hcount hlength.symm)
  obtain ⟨first, hfirst, htiles⟩ := exists_tiles_of_named horder hnamed hsome
  obtain ⟨last, hlast, hstop⟩ := htiles.exists_getLast? hsome'
  have hfloor := (offset_of_mem_tile horder hnamed (List.mem_of_mem_head? hfirst)).1
  have hbelow := (offset_of_mem_tile horder hnamed (List.mem_of_getLast? hlast)).2
  refine ⟨hlength, hlisted, ⟨first, hfirst, hfloor, htiles⟩, ⟨last, hlast, by omega, hstop⟩,
    hspan, ?_⟩
  apply htiles.pairwise.imp_of_mem
  intro c d hc hd hle
  rw [hspan c hc, hspan d hd]
  exact hle

end Read

end Directory

namespace Payload

variable {payloads : List Payload}

theorem length_file_lt (hcount : payloads.length < 256) (hsize : size payloads < 0x8000000000000000) :
    (file payloads).length < UInt64.size := by
  rw [length_file hcount, start, UInt64.size]
  omega

/-- The entry that closes the directory says where the trailer is. -/
theorem getElem?_entriesOf_file (hcount : payloads.length < 256)
    (hsize : size payloads < 0x8000000000000000) :
    (Directory.entriesOf (file payloads) (payloads.length + 1))[payloads.length]? =
      some ⟨.terminator, Format.trailer (file payloads)⟩ := by
  have hlt := length_file_lt hcount hsize
  rw [length_file hcount] at hlt
  have hoffset : ∀ e ∈ lines (start payloads) payloads ++
      [⟨.terminator, start payloads + size payloads⟩], e.offset < UInt64.size := by
    intro e he
    rcases List.mem_append.mp he with he | he
    · have hle := offset_le_of_mem_lines he
      omega
    · obtain rfl := List.mem_singleton.mp he
      change start payloads + size payloads < UInt64.size
      omega
  have hentries := Directory.entriesOf_append
    (payloads.flatMap Payload.data ++ (ObjectId.ofContents (body payloads)).toBytes)
    (length_header payloads) hoffset
  have hfile : (Header.standalone (UInt8.ofNat payloads.length)).toBytes ++
      (lines (start payloads) payloads ++
        [Entry.mk .terminator (start payloads + size payloads)]).flatMap Entry.toBytes ++
      (payloads.flatMap Payload.data ++ (ObjectId.ofContents (body payloads)).toBytes) =
      file payloads := by
    rw [file]
    conv => rhs; lhs; rw [body_eq hcount]
    simp only [List.flatMap_append, List.flatMap_cons, List.flatMap_nil, List.append_nil,
      List.append_assoc]
  rw [hfile, List.length_append, length_lines, List.length_singleton] at hentries
  rw [hentries, trailer_file hcount, List.getElem?_append_right (Nat.le_of_eq (length_lines _ _)),
    length_lines, Nat.sub_self]
  rfl

theorem parse_header (hne : payloads ≠ []) (hcount : payloads.length < 256) :
    Header.parse (file payloads) = .ok (.ofFile (file payloads)) := by
  have hpos := List.length_pos_iff.mpr hne
  have hchunks := chunkCount_file hcount
  refine Header.parse_eq_ok_iff.mpr ⟨?_, take_six_file hcount, ?_, rfl⟩
  · rw [length_file hcount, start]
    omega
  · intro hzero
    rw [Format.chunkCount, hzero] at hchunks
    exact absurd hchunks (Nat.ne_of_lt hpos)

section Read

variable {marks : List (Kind × Nat)}
variable (hcount : payloads.length < 256) (hsize : size payloads < 0x8000000000000000)
variable (hlast : ∀ p, payloads.getLast? = some p → p.data ≠ [])
variable (hnamed : Directory.Named (lines (start payloads) payloads) marks)
include hcount hsize hlast hnamed

theorem read_file : Directory.read (file payloads) (.ofFile (file payloads))
    (Format.trailer (file payloads)) =
      .ok (Directory.tile (start payloads + size payloads) marks) := by
  have hentries := entries_file hcount (length_file_lt hcount hsize)
  have hfloor : (Header.ofFile (file payloads)).tableEnd = start payloads := by
    rw [Format.tableEnd_ofFile, tableEnd_file hcount]
  rw [trailer_file hcount]
  refine Directory.read_eq_ok_iff.mpr ⟨?_, marks, ?_, rfl⟩
  · change 8 + 12 * Format.chunkCount (file payloads) ≤ _
    rw [chunkCount_file hcount, length_file hcount, start]
    omega
  · rw [hfloor]
    change Directory.check _ _ (Format.entries (file payloads)) = _
    rw [hentries]
    exact Directory.check_eq_ok_iff.mpr ⟨inOrder_lines (Nat.le_refl _) hlast, hnamed⟩

theorem map_sub_tile : (Directory.tile (start payloads + size payloads) marks).map
      (fun c => (c.kind.tag, (file payloads).sub c.span)) =
    payloads.map fun p => (p.tag, .ok p.data) := by
  have hlt := length_file_lt hcount hsize
  rw [length_file hcount] at hlt
  have hlimit : start payloads + size payloads < UInt64.size := by omega
  obtain ⟨hwithin, hplaces⟩ :=
    Directory.tile_of_named (inOrder_lines (Nat.le_refl _) hlast) hnamed hlimit
  have hwindows := map_window_file hcount
  rw [places_lines] at hplaces
  rw [← hplaces, List.map_map] at hwindows
  have hsub : ∀ c ∈ Directory.tile (start payloads + size payloads) marks,
      (file payloads).sub c.span = .ok ((file payloads).window c.span.start c.span.stop) := by
    intro c hc
    have hle : c.offset + c.length ≤ (file payloads).length := by
      have hstop := (hwithin c hc).stop_le
      rw [length_file hcount]
      omega
    rw [Chunk.span_of_within (hwithin c hc) hlimit]
    exact (Bytes.sub_eq_ok_iff (Nat.le_add_right _ _)).mpr ⟨hle, rfl⟩
  calc _ = (Directory.tile (start payloads + size payloads) marks).map (fun c =>
        (c.kind.tag, Except.ok ((file payloads).window c.span.start c.span.stop))) :=
      List.map_congr_left fun c hc => congrArg (Prod.mk c.kind.tag) (hsub c hc)
    _ = (payloads.map fun p => (p.tag, p.data)).map (fun m => (m.1, .ok m.2)) := by
      rw [← hwindows, List.map_map]
      rfl
    _ = _ := by
      rw [List.map_map]
      rfl

end Read

theorem exists_named_lines (htags : ∀ p ∈ payloads,
    p.tag ∈ [Tag.fanout, .ids, .commits, .edges, .bloomIndex, .bloomData]) :
    ∃ marks, Directory.Named (lines (start payloads) payloads) marks := by
  apply Directory.exists_named
  intro e he
  obtain ⟨p, hp, htag⟩ := exists_of_mem_lines he
  exact Format.isSome_ofTag?_iff.mpr (htag ▸ htags p hp)

end Payload

namespace Directory

/-- The chunks that are read from a directory tile the file up to the trailer, and no subtraction on
the way goes wrong. Of a file that was written they are the chunks that went into it, and the entry
that closes the directory has the place of the trailer. -/
theorem tiles_and_returns :
    (∀ (file : Bytes) (header : Header) (trailer : Nat), trailer < UInt64.size →
      0 < header.chunkCount.toNat →
      readOnce file header trailer = Checked.lift (read file header trailer) ∧
        ∀ chunks, read file header trailer = .ok chunks → Tiled file header trailer chunks) ∧
    ∀ payloads : List Payload, payloads ≠ [] → payloads.length ≤ 255 →
      (∀ p ∈ payloads, p.tag ∈ [Tag.fanout, .ids, .commits, .edges, .bloomIndex, .bloomData]) →
      (∀ p, payloads.getLast? = some p → p.data ≠ []) →
      (payloads.flatMap Payload.data).length < 0x8000000000000000 →
      ∃ file header chunks, Payload.assemble payloads = .ok file ∧
        Header.parse file = .ok header ∧ read file header (file.length - 20) = .ok chunks ∧
        chunks.map (fun c => (c.kind.tag, file.sub c.span)) =
          payloads.map (fun p => (p.tag, .ok p.data)) ∧
        (entriesOf file (payloads.length + 1))[payloads.length]? =
          some ⟨.terminator, file.length - 20⟩ := by
  constructor
  · intro file header trailer htrailer hcount
    exact ⟨readOnce_eq file header trailer, fun chunks => tiled_of_read htrailer hcount⟩
  · intro payloads hne hcount htags hlast hsize
    have hcount' : payloads.length < 256 := Nat.lt_succ_of_le hcount
    obtain ⟨marks, hnamed⟩ := Payload.exists_named_lines htags
    exact ⟨_, _, _, Payload.assemble_eq_ok_iff.mpr ⟨hcount', rfl⟩,
      Payload.parse_header hne hcount', Payload.read_file hcount' hsize hlast hnamed,
      Payload.map_sub_tile hcount' hsize hlast hnamed,
      Payload.getElem?_entriesOf_file hcount' hsize⟩

theorem tiled_sample : ∃ file header chunks,
    Payload.assemble [⟨.ids, [1, 2, 3]⟩, ⟨.bloomIndex, []⟩, ⟨.edges, [4]⟩] = .ok file ∧
    file.length - 20 < UInt64.size ∧ 0 < header.chunkCount.toNat ∧
    read file header (file.length - 20) = .ok chunks ∧
    Tiled file header (file.length - 20) chunks ∧
    chunks.map (fun c => (c.kind.tag, file.sub c.span)) =
      [(.ids, .ok [1, 2, 3]), (.bloomIndex, .ok []), (.edges, .ok [4])] := by
  obtain ⟨hreads, hwrites⟩ := tiles_and_returns
  obtain ⟨file, header, chunks, hfile, hheader, hread, hchunks, _⟩ :=
    hwrites [⟨.ids, [1, 2, 3]⟩, ⟨.bloomIndex, []⟩, ⟨.edges, [4]⟩] (List.cons_ne_nil _ _) (by decide)
      (by decide) (by simp) (by decide)
  obtain ⟨_, _, hcount, rfl⟩ := Header.parse_eq_ok_iff.mp hheader
  have hpos : 0 < (Header.ofFile file).chunkCount.toNat :=
    Nat.pos_of_ne_zero fun hzero => hcount (UInt8.toNat_inj.mp hzero)
  have hlength : file.length - 20 < UInt64.size := by
    obtain ⟨hfew, rfl⟩ := Payload.assemble_eq_ok_iff.mp hfile
    exact Nat.lt_of_le_of_lt (Nat.sub_le _ _) (Payload.length_file_lt hfew (by decide))
  exact ⟨file, _, chunks, hfile, hlength, hpos, hread, (hreads _ _ _ hlength hpos).2 _ hread, hchunks⟩

end Directory

end Ancestry
