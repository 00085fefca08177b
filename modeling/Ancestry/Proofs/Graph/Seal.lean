import Ancestry.Proofs.Graph.Stored
import Ancestry.Proofs.History.Encode

/-!
# Files altered after they were sealed

The trailer is compared before the directory is read, so a file whose trailer is not the digest of
the rest is refused for its frame: for its header, for want of room for its directory, or for the
trailer itself. Nothing of its directory and its chunks is ever reported.
-/

namespace Ancestry

attribute [local instance (high)] instPowNat

/-- What can be wrong with the frame of a file that is long enough for a header and a trailer. -/
def GraphError.IsFrameFault : GraphError → Prop
  | .badSignature _ | .badVersion _ | .badHashVersion _ | .noChunks | .noRoom _ _ | .checksum _ _ => True
  | _ => False

theorem GraphError.isFatal_of_isFrameFault {e : GraphError} (h : e.IsFrameFault) : e.isFatal := by
  cases e with
  | badSignature | badVersion | badHashVersion | noChunks | noRoom | checksum => rfl
  | _ => exact False.elim h

theorem Header.isFrameFault_of_validate {h : Header} {e : GraphError} (he : h.validate = .error e) :
    e.IsFrameFault := by
  unfold validate at he
  repeat' split at he
  all_goals cases he
  all_goals exact trivial

theorem Header.isFrameFault_of_parse {file : Bytes} {e : GraphError} (hfile : 8 ≤ file.length)
    (he : Header.parse file = .error e) : e.IsFrameFault := by
  match file with
  | s0 :: s1 :: s2 :: s3 :: version :: hashVersion :: chunkCount :: baseCount :: rest =>
    simp only [Header.parse] at he
    cases hvalidate : validate ⟨⟨s0, s1, s2, s3⟩, version, hashVersion, chunkCount, baseCount⟩ with
    | error e' =>
      rw [hvalidate] at he
      cases he
      exact isFrameFault_of_validate hvalidate
    | ok =>
      rw [hvalidate] at he
      cases he
  | [] | [_] | [_, _] | [_, _, _] | [_, _, _, _] | [_, _, _, _, _] | [_, _, _, _, _, _]
  | [_, _, _, _, _, _, _] => simp at hfile

namespace Graph

variable {file altered : Bytes}

section Unsealed

variable (hsize : 28 ≤ file.length)
variable (hseal : file.drop (Format.trailer file) ≠
  (ObjectId.ofContents (file.take (Format.trailer file))).toBytes)

include hsize in
theorem not_lt_minSize : ¬ file.length < minSize := Nat.not_lt.mpr hsize

include hsize hseal

theorem computed_ne_stored : ObjectId.ofContents (file.take (Format.trailer file)) ≠
    ObjectId.ofBytes (file.drop (Format.trailer file)) :=
  mt (Format.sealed_iff (by omega)).mp hseal

/-- If the frame is whole but for the trailer, the trailer is what is found wrong. -/
theorem parse_of_unsealed {header : Header} (hheader : Header.parse file = .ok header)
    (hroom : header.tableEnd ≤ Format.trailer file) :
    Graph.parse file = .error (.checksum (.ofBytes (file.drop (Format.trailer file)))
      (.ofContents (file.take (Format.trailer file)))) := by
  have hsum := computed_ne_stored hsize hseal
  unfold Graph.parse
  rw [if_neg (not_lt_minSize hsize), hheader]
  change (if Format.trailer file < header.tableEnd then _ else _) = _
  rw [if_neg (Nat.not_lt.mpr hroom)]
  exact if_pos hsum

theorem exists_isFrameFault_of_unsealed :
    ∃ e, Graph.parse file = .error e ∧ e.IsFrameFault := by
  cases hheader : Header.parse file with
  | error e =>
    refine ⟨e, ?_, Header.isFrameFault_of_parse (by omega) hheader⟩
    unfold Graph.parse
    rw [if_neg (not_lt_minSize hsize), hheader]
    rfl
  | ok header =>
    by_cases hroom : header.tableEnd ≤ Format.trailer file
    · exact ⟨_, parse_of_unsealed hsize hseal hheader hroom, trivial⟩
    · refine ⟨.noRoom (Format.trailer file) header.tableEnd, ?_, trivial⟩
      unfold Graph.parse
      rw [if_neg (not_lt_minSize hsize), hheader]
      exact if_pos (Nat.not_le.mp hroom)

end Unsealed

/-- Whatever is done to a file but to write a trailer for other contents breaks its seal. -/
theorem unsealed_of_altered
    (hsealed : file.drop (Format.trailer file) =
      (ObjectId.ofContents (file.take (Format.trailer file))).toBytes)
    (hne : altered ≠ file)
    (hchange : altered.take (Format.trailer file) = file.take (Format.trailer file) ∨
      altered.drop (Format.trailer file) = file.drop (Format.trailer file) ∧
        ObjectId.ofContents (altered.take (Format.trailer file)) ≠
          ObjectId.ofContents (file.take (Format.trailer file))) :
    altered.drop (Format.trailer file) ≠
      (ObjectId.ofContents (altered.take (Format.trailer file))).toBytes := by
  intro hseal
  rcases hchange with hbody | ⟨htrailer, hdigest⟩
  · rw [hbody, ← hsealed] at hseal
    apply hne
    rw [← List.take_append_drop (Format.trailer file) altered, hbody, hseal,
      List.take_append_drop]
  · rw [htrailer, hsealed] at hseal
    exact hdigest (ObjectId.toBytes_inj.mp hseal).symm

/-- A file that was altered in its trailer alone, or before it to contents with another digest, is
refused for its frame, and for the trailer if the header is as it was. -/
theorem exists_isFatal_of_altered {g : Graph} (h : Graph.parse file = .ok g)
    (hlength : altered.length = file.length) (hne : altered ≠ file)
    (hchange : altered.take (Format.trailer file) = file.take (Format.trailer file) ∨
      altered.drop (Format.trailer file) = file.drop (Format.trailer file) ∧
        ObjectId.ofContents (altered.take (Format.trailer file)) ≠
          ObjectId.ofContents (file.take (Format.trailer file))) :
    (∃ e, Graph.parse altered = .error e ∧ e.IsFrameFault ∧ e.isFatal) ∧
      (altered.take 8 = file.take 8 → ∃ stored : ObjectId,
        stored.toBytes = altered.drop (Format.trailer file) ∧ Graph.parse altered =
          .error (.checksum stored (.ofContents (altered.take (Format.trailer file))))) := by
  obtain ⟨hsize, hopening, hcount, hroom, hsealed, _⟩ := Format.parse_eq_ok_iff_steps.mp h
  have htrailer : Format.trailer altered = Format.trailer file := by
    rw [Format.trailer, Format.trailer, hlength]
  have hsize' : 28 ≤ altered.length := hlength ▸ hsize
  have hseal := unsealed_of_altered hsealed hne hchange
  rw [← htrailer] at hseal ⊢
  constructor
  · obtain ⟨e, he, hfault⟩ := exists_isFrameFault_of_unsealed hsize' hseal
    exact ⟨e, he, hfault, GraphError.isFatal_of_isFrameFault hfault⟩
  · intro hfront
    have hbyte (i : Nat) (hi : i < 8) : altered.getD i 0 = file.getD i 0 := by
      have hget := congrArg (·[i]?) hfront
      simp only [List.getElem?_take, hi, if_true] at hget
      rw [List.getD_eq_getElem?_getD, List.getD_eq_getElem?_getD, hget]
    have hopening' : altered.take 6 = [0x43, 0x47, 0x50, 0x48, 1, 1] := by
      have hsix := congrArg (List.take 6) hfront
      rw [List.take_take, List.take_take] at hsix
      exact hsix.trans hopening
    have hcount' : altered.getD 6 0 ≠ 0 := by
      intro hzero
      rw [hbyte 6 (by decide)] at hzero
      rw [Format.chunkCount, hzero] at hcount
      exact Nat.lt_irrefl 0 hcount
    have hheader := Header.parse_eq_ok_iff.mpr ⟨by omega, hopening', hcount', rfl⟩
    have hroom' : (Header.ofFile altered).tableEnd ≤ Format.trailer altered := by
      rw [Format.tableEnd_ofFile, htrailer, Format.tableEnd, Format.chunkCount,
        hbyte 6 (by decide)]
      exact hroom
    refine ⟨_, ObjectId.toBytes_ofBytes ?_, parse_of_unsealed hsize' hseal hheader hroom'⟩
    rw [List.length_drop, Format.trailer]
    omega

end Graph

theorem ObjectId.ofNat_succ_ne (id : ObjectId) : ofNat (id.number + 1) ≠ id := by
  intro h
  have hlt := id.number_lt
  have hnumber : (id.number + 1) % 256 ^ Sha1.size = id.number := ext_iff_number.mp h
  have hpow : 1 < 256 ^ Sha1.size := by decide
  rcases Nat.lt_or_eq_of_le (Nat.succ_le_of_lt hlt) with hless | heq
  · rw [Nat.mod_eq_of_lt hless] at hnumber
    omega
  · have hzero : (id.number + 1) % 256 ^ Sha1.size = 0 := heq ▸ Nat.mod_self _
    omega

namespace History

def sampleDigest : ObjectId := .ofContents (sampleFile.take (Format.trailer sampleFile))

def forgedFile : Bytes :=
  sampleFile.take (Format.trailer sampleFile) ++ (ObjectId.ofNat (sampleDigest.number + 1)).toBytes

theorem trailer_sampleFile : 8 ≤ Format.trailer sampleFile ∧
    (sampleFile.take (Format.trailer sampleFile)).length = Format.trailer sampleFile ∧
    sampleFile.drop (Format.trailer sampleFile) = sampleDigest.toBytes := by
  obtain ⟨hsize, _, _, _, hsealed, _⟩ := Format.parse_eq_ok_iff_steps.mp parse_sampleFile
  refine ⟨?_, ?_, hsealed⟩
  · rw [Format.trailer]
    omega
  · rw [List.length_take, Format.trailer]
    omega

theorem forgedFile_spec :
    forgedFile.length = sampleFile.length ∧ forgedFile ≠ sampleFile ∧
      forgedFile.take (Format.trailer sampleFile) = sampleFile.take (Format.trailer sampleFile) ∧
      forgedFile.drop (Format.trailer sampleFile) =
        (ObjectId.ofNat (sampleDigest.number + 1)).toBytes := by
  obtain ⟨_, hbody, hsealed⟩ := trailer_sampleFile
  have hdrop : forgedFile.drop (Format.trailer sampleFile) = _ := List.drop_left' hbody
  refine ⟨?_, ?_, List.take_left' hbody, hdrop⟩
  · have hlength := congrArg List.length hsealed
    rw [List.length_drop, ObjectId.length_toBytes] at hlength
    rw [forgedFile, List.length_append, hbody, ObjectId.length_toBytes]
    rw [Format.trailer] at hlength ⊢
    omega
  · intro heq
    rw [heq, hsealed] at hdrop
    exact ObjectId.ofNat_succ_ne sampleDigest (ObjectId.toBytes_inj.mp hdrop).symm

end History

namespace Tables

def redatedFile : Bytes :=
  Payload.body (dated 1).payloads ++
    (ObjectId.ofContents (Payload.body (dated 0).payloads)).toBytes

theorem trailer_dated (time : Nat) : Format.trailer (dated time).file = 1148 := by
  have hlength : (dated time).file.length = 1168 := (dated time).length_file
  rw [Format.trailer, hlength]

theorem take_dated (time : Nat) :
    (dated time).file.take 1148 = Payload.body (dated time).payloads :=
  List.take_left' (length_body_dated time)

theorem redatedFile_spec :
    redatedFile.length = (dated 0).file.length ∧
      redatedFile.take 8 = (dated 0).file.take 8 ∧
      redatedFile.take 1148 = Payload.body (dated 1).payloads ∧
      redatedFile.drop 1148 = (dated 0).file.drop 1148 ∧
      redatedFile.drop 1148 = (ObjectId.ofContents (Payload.body (dated 0).payloads)).toBytes := by
  have hbody := length_body_dated 0
  have hother := length_body_dated 1
  have hdrop : redatedFile.drop 1148 = _ := List.drop_left' hother
  have hdrop' : (dated 0).file.drop 1148 = _ := List.drop_left' hbody
  refine ⟨?_, ?_, List.take_left' hother, hdrop.trans hdrop'.symm, hdrop⟩
  · rw [redatedFile, List.length_append, hother, ← hbody, ← List.length_append]
    rfl
  · exact (Payload.take_body_append (dated 1).length_payloads _).trans
      (Payload.take_body_append (dated 0).length_payloads _).symm

end Tables

/-- The trailer of the sample is raised by one, and another file is given other contents. -/
theorem Graph.parse_forgedFile :
    (Graph.parse History.sampleFile = .ok History.sampleGraph ∧
      History.forgedFile.length = History.sampleFile.length ∧
      History.forgedFile ≠ History.sampleFile ∧
      History.forgedFile.take (Format.trailer History.sampleFile) =
        History.sampleFile.take (Format.trailer History.sampleFile) ∧
      (∃ e, Graph.parse History.forgedFile = .error e ∧ e.isFatal) ∧
      Graph.parse History.forgedFile = .error
        (.checksum (.ofNat (History.sampleDigest.number + 1)) History.sampleDigest)) ∧
    Graph.parse (Tables.dated 0).file =
      .ok (Format.graph (Tables.dated 0).file (Tables.dated 0).layout) ∧
    Graph.parse Tables.redatedFile = .error
      (.checksum (.ofContents (Payload.body (Tables.dated 0).payloads))
        (.ofContents (Payload.body (Tables.dated 1).payloads))) := by
  constructor
  · have hparse := History.parse_sampleFile
    obtain ⟨hlong, hbody, _⟩ := History.trailer_sampleFile
    obtain ⟨hlength, hne, htake, hdrop⟩ := History.forgedFile_spec
    obtain ⟨⟨e, he, _, hfatal⟩, hexact⟩ := exists_isFatal_of_altered hparse hlength hne (.inl htake)
    have hfront : History.forgedFile.take 8 = History.sampleFile.take 8 := by
      have height := congrArg (List.take 8) htake
      rwa [List.take_take, List.take_take, Nat.min_eq_left hlong] at height
    obtain ⟨stored, hstored, hexact⟩ := hexact hfront
    rw [ObjectId.toBytes_inj.mp (hstored.trans hdrop), htake] at hexact
    exact ⟨hparse, hlength, hne, htake, ⟨e, he, hfatal⟩, hexact⟩
  · have hparse := (Tables.sound_dated (Nat.zero_le _)).parse_file
    have hplace := Tables.trailer_dated 0
    obtain ⟨hlength, hfront, htake, hdrop, hstored⟩ := Tables.redatedFile_spec
    have hdigest : ObjectId.ofContents (Tables.redatedFile.take 1148) ≠
        ObjectId.ofContents ((Tables.dated 0).file.take 1148) := by
      rw [htake, Tables.take_dated]
      exact Tables.ofContents_dated_ne.symm
    have hne : Tables.redatedFile ≠ (Tables.dated 0).file := fun heq => hdigest (heq ▸ rfl)
    obtain ⟨_, hexact⟩ := exists_isFatal_of_altered hparse hlength hne
      (.inr (hplace.symm ▸ ⟨hdrop, hdigest⟩))
    obtain ⟨stored, hbytes, hexact⟩ := hexact hfront
    rw [hplace] at hbytes hexact
    rw [ObjectId.toBytes_inj.mp (hbytes.trans hstored), htake] at hexact
    exact ⟨hparse, hexact⟩

end Ancestry
