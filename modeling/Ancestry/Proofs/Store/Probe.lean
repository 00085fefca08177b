import Ancestry.Proofs.Graph.Seal
import Ancestry.Proofs.Store.Opened

/-!
# The check for staleness

The check reads the last bytes of a file and no others. It tells whole files apart all the same,
where both of them were sealed: the trailers are digests of all that stands before them, so files
with the same trailer are the same unless two contents have one digest.
-/

namespace Ancestry

namespace Graph

variable {file other : Bytes} {g k : Graph}

theorem sealed_of_parse (h : Graph.parse file = .ok g) :
    g.checksum = .ofContents (file.take (Format.trailer file)) ∧
      file.drop (Format.trailer file) = g.checksum.toBytes := by
  obtain ⟨hsize, _, _, _, hsealed, _⟩ := Format.parse_eq_ok_iff_steps.mp h
  have hchecksum : g.checksum = .ofContents (file.take (Format.trailer file)) :=
    (checksum_of_parse h).trans ((Format.sealed_iff (by omega)).mpr hsealed).symm
  exact ⟨hchecksum, hchecksum ▸ hsealed⟩

/-- Files with the same trailer are the same unless their contents have one digest. -/
theorem eq_of_checksum_eq (h : Graph.parse file = .ok g) (h' : Graph.parse other = .ok k)
    (hfree : ObjectId.ofContents (other.take (Format.trailer other)) =
        ObjectId.ofContents (file.take (Format.trailer file)) →
      other.take (Format.trailer other) = file.take (Format.trailer file))
    (hchecksum : k.checksum = g.checksum) : other = file := by
  obtain ⟨hdigest, htrailer⟩ := sealed_of_parse h
  obtain ⟨hdigest', htrailer'⟩ := sealed_of_parse h'
  have hcontents := hfree (hdigest'.symm.trans (hchecksum.trans hdigest))
  calc other = other.take (Format.trailer other) ++ other.drop (Format.trailer other) :=
        (List.take_append_drop _ _).symm
    _ = file.take (Format.trailer file) ++ file.drop (Format.trailer file) := by
        rw [hcontents, htrailer', htrailer, hchecksum]
    _ = file := List.take_append_drop _ _

end Graph

namespace Opened

variable {disk earlier : Disk} {settings : Settings} {o : Opened} {path : String} {bytes : Bytes}

/-- The last bytes of a file. Nothing is read of a file that has not that many. -/
def lastBytes (bytes : Bytes) (n : Nat) : Except DiskError Bytes :=
  if bytes.length < n then .error .invalid else .ok (bytes.drop (bytes.length - n))

/-- The check step by step. A file is read only if it has the length of the one that was opened. -/
def probe (o : Opened) (disk : Disk) (path : String) : Except DiskError Bool := do
  match ← disk.node path with
  | .directory => .ok true
  | .file bytes =>
    if bytes.length ≠ o.graph.file.length then .ok true
    else
      let trailer ← lastBytes bytes ObjectId.byteCount
      .ok (ObjectId.ofBytes trailer ≠ o.graph.checksum)

/-- What the check answers and reports. Whatever cannot be read is stale. -/
def conclude (path : String) : Except DiskError Bool → Logged Bool
  | .ok stale => ⟨stale, [.checked path stale]⟩
  | .error cause => ⟨true, [.checkFailed path cause]⟩

namespace Admitted

variable (admitted : o.Admitted settings)
include admitted

/-- What has the length of an opened file has a trailer, so no file is stale for want of one. -/
theorem isStale_eq_conclude_probe :
    o.isStale disk path = conclude path (o.probe disk path) := by
  have hsize : ObjectId.byteCount ≤ o.graph.file.length :=
    Nat.le_trans (by decide) (Graph.size_of_parse admitted.parses)
  have hlong := Nat.not_lt.mpr hsize
  unfold isStale probe
  cases disk.node path with
  | error cause => rfl
  | ok node =>
    cases node with
    | directory => rfl
    | file bytes =>
      by_cases hlength : bytes.length = o.graph.file.length
      · simp [conclude, differs, lastBytes, hlength, hlong, bind, Except.bind]
      · simp [conclude, differs, hlength, bind, Except.bind]

theorem isStale_eq_false_iff_trailer : (o.isStale disk path).value = false ↔
    ∃ bytes, disk.node path = .ok (.file bytes) ∧ bytes.length = o.graph.file.length ∧
      bytes.drop (Format.trailer bytes) = o.graph.checksum.toBytes := by
  constructor
  · intro hfresh
    obtain ⟨bytes, hnode, hlength, htrailer⟩ := admitted.matches_of_not_isStale hfresh
    exact ⟨bytes, hnode, hlength.symm, htrailer.symm⟩
  · rintro ⟨bytes, hnode, hlength, htrailer⟩
    refine isStale_eq_false_iff.mpr ⟨bytes, hnode, hlength, ?_⟩
    rw [← ObjectId.ofBytes_toBytes o.graph.checksum, ← htrailer]
    rfl

theorem isStale_eq_false_iff_eq {g : Graph} (hnode : disk.node path = .ok (.file bytes))
    (hparse : Graph.parse bytes = .ok g)
    (hfree : ObjectId.ofContents (bytes.take (Format.trailer bytes)) =
        ObjectId.ofContents (o.graph.file.take (Format.trailer o.graph.file)) →
      bytes.take (Format.trailer bytes) = o.graph.file.take (Format.trailer o.graph.file)) :
    (o.isStale disk path).value = false ↔ bytes = o.graph.file := by
  rw [admitted.isStale_eq_false_iff_trailer]
  constructor
  · rintro ⟨bytes', hnode', _, htrailer⟩
    cases hnode.symm.trans hnode'
    obtain ⟨_, hsealed⟩ := Graph.sealed_of_parse hparse
    apply Graph.eq_of_checksum_eq admitted.parses hparse hfree
    rw [← ObjectId.ofBytes_toBytes g.checksum, ← hsealed, htrailer, ObjectId.ofBytes_toBytes]
  · rintro rfl
    exact ⟨_, hnode, rfl, (Graph.sealed_of_parse admitted.parses).2⟩

end Admitted

/-- The check reads no more than a trailer, and passes exactly on files of the same length and with
the same trailer. Of the files that can be opened this is only the one that was, unless two contents
have one digest. -/
theorem isStale_exact (hopen : (openWith earlier settings).value = .ok o) (disk : Disk)
    (path : String) :
    o.isStale disk path = conclude path (o.probe disk path) ∧
    ((o.isStale disk path).value = false ↔ ∃ bytes, disk.node path = .ok (.file bytes) ∧
      bytes.length = o.graph.file.length ∧
        bytes.drop (Format.trailer bytes) = o.graph.checksum.toBytes) ∧
    ∀ bytes g, disk.node path = .ok (.file bytes) → Graph.parse bytes = .ok g →
      (ObjectId.ofContents (bytes.take (Format.trailer bytes)) =
          ObjectId.ofContents (o.graph.file.take (Format.trailer o.graph.file)) →
        bytes.take (Format.trailer bytes) = o.graph.file.take (Format.trailer o.graph.file)) →
      ((o.isStale disk path).value = false ↔ bytes = o.graph.file) := by
  have admitted := admitted_of_openWith hopen
  exact ⟨admitted.isStale_eq_conclude_probe, admitted.isStale_eq_false_iff_trailer,
    fun _ _ hnode hparse hfree => admitted.isStale_eq_false_iff_eq hnode hparse hfree⟩

theorem openWith_dated :
    (openWith (.single (Tables.dated 0).file) (.ofPath "g")).value =
      .ok ⟨"g", Format.graph (Tables.dated 0).file (Tables.dated 0).layout⟩ := by
  have hparse := (Tables.sound_dated (Nat.zero_le _)).parse_file
  refine openWith_eq_ok_iff.mpr ⟨_, _, Disk.node_single _, ?_, hparse, rfl⟩
  rw [(Tables.dated 0).length_file]
  decide

/-- The sample is told from a file with the same contents and another trailer, and a file from one
that was sealed too but for another time. -/
theorem isStale_forgedFile : (openWith (.single History.sampleFile) (.ofPath "g")).value =
      .ok ⟨"g", History.sampleGraph⟩ ∧
    Graph.parse History.sampleFile = .ok History.sampleGraph ∧
    ((⟨"g", History.sampleGraph⟩ : Opened).isStale (.single History.sampleFile) "g").value =
      false ∧
    ((⟨"g", History.sampleGraph⟩ : Opened).isStale (.single History.forgedFile) "g").value =
      true ∧
    (openWith (.single (Tables.dated 0).file) (.ofPath "g")).value =
      .ok ⟨"g", Format.graph (Tables.dated 0).file (Tables.dated 0).layout⟩ ∧
    Graph.parse (Tables.dated 1).file =
      .ok (Format.graph (Tables.dated 1).file (Tables.dated 1).layout) ∧
    ((⟨"g", Format.graph (Tables.dated 0).file (Tables.dated 0).layout⟩ : Opened).isStale
      (.single (Tables.dated 1).file) "g").value = true := by
  have hparse := History.parse_sampleFile
  have hfile := Graph.file_of_parse hparse
  have hother := (Tables.sound_dated (by decide : 1 ≤ Record.maxTime)).parse_file
  obtain ⟨_, _, hsame⟩ := isStale_exact openWith_sampleFile (.single History.sampleFile) "g"
  obtain ⟨_, htrailer, _⟩ := isStale_exact openWith_sampleFile (.single History.forgedFile) "g"
  obtain ⟨_, _, hdated⟩ := isStale_exact openWith_dated (.single (Tables.dated 1).file) "g"
  have hbody := congrArg (fun file => file.take (Format.trailer file)) hfile.symm
  have hfresh := (hsame _ _ (Disk.node_single _) hparse fun _ => hbody).mpr hfile.symm
  refine ⟨openWith_sampleFile, hparse, hfresh, eq_true_of_ne_false fun hforged => ?_,
    openWith_dated, hother, eq_true_of_ne_false fun hdate => ?_⟩
  · obtain ⟨bytes, hnode, hlength, hseal⟩ := htrailer.mp hforged
    obtain rfl := Node.file.inj (Except.ok.inj ((Disk.node_single _).symm.trans hnode))
    have hplace : Format.trailer History.forgedFile = Format.trailer History.sampleFile := by
      rw [Format.trailer, History.forgedFile_spec.1, Format.trailer]
    rw [hplace, History.forgedFile_spec.2.2.2, ObjectId.toBytes_inj,
      (Graph.sealed_of_parse hparse).1] at hseal
    exact ObjectId.ofNat_succ_ne _ hseal
  · have hdigest : ObjectId.ofContents
        ((Tables.dated 1).file.take (Format.trailer (Tables.dated 1).file)) ≠
          ObjectId.ofContents
            ((Tables.dated 0).file.take (Format.trailer (Tables.dated 0).file)) := by
      rw [Tables.trailer_dated, Tables.trailer_dated, Tables.take_dated, Tables.take_dated]
      exact Tables.ofContents_dated_ne.symm
    -- The two contents have different digests, so nothing is asked about equal ones.
    have heq : (Tables.dated 1).file = (Tables.dated 0).file :=
      (hdated _ _ (Disk.node_single _) hother fun hcollide => absurd hcollide hdigest).mp hdate
    rw [heq] at hdigest
    exact hdigest rfl

end Opened

end Ancestry
