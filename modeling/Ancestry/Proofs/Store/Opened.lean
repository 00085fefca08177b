import Ancestry.Proofs.History.Encode
import Ancestry.Store.Opened

/-!
# What opening finds

Opening succeeds exactly on a file that is no longer than allowed and can be read, and keeps all of
it. The check for staleness looks at the length and the trailer alone, and passes on the very file
that was opened.
-/

namespace Ancestry

namespace Graph

variable {file : Bytes} {g : Graph}

theorem file_of_parse (h : Graph.parse file = .ok g) : g.file = file := by
  obtain ⟨_, _, _, _, _, _, _, _, _, _, hg⟩ := Format.parse_eq_ok_iff_steps.mp h
  rw [← hg]
  rfl

theorem size_of_parse (h : Graph.parse file = .ok g) : 28 ≤ file.length :=
  (Format.parse_eq_ok_iff_steps.mp h).1

theorem checksum_of_parse (h : Graph.parse file = .ok g) :
    g.checksum = .ofBytes (file.drop (file.length - ObjectId.byteCount)) := by
  obtain ⟨_, _, _, _, _, _, _, _, _, _, hg⟩ := Format.parse_eq_ok_iff_steps.mp h
  rw [← hg]
  rfl

end Graph

theorem StoreError.isMissing_iff {e : StoreError} : e.isMissing ↔ e = .disk .notFound :=
  decide_eq_true_iff

namespace Opened

variable {disk : Disk} {settings : Settings} {o : Opened} {path : String}

/-- What opening comes to, apart from what it reports. The bytes are the same mapped or not. -/
theorem value_openWith (disk : Disk) (settings : Settings) : (openWith disk settings).value =
    match disk.node settings.path with
    | .error cause => .error (.disk cause)
    | .ok .directory => .error (.notRegular settings.path)
    | .ok (.file bytes) =>
      if settings.limit < bytes.length then
        .error (.tooLarge settings.path bytes.length settings.limit)
      else
        match Graph.parse bytes with
        | .error cause => .error (.graph cause)
        | .ok graph => .ok ⟨settings.path, graph⟩ := by
  unfold openWith
  dsimp only [Contents.ofFile]
  cases disk.node settings.path with
  | error cause => rfl
  | ok node =>
    cases node with
    | directory => rfl
    | file bytes =>
      dsimp only
      split
      · rfl
      · cases Graph.parse bytes <;> rfl

theorem openWith_eq_ok_iff : (openWith disk settings).value = .ok o ↔
    ∃ bytes graph, disk.node settings.path = .ok (.file bytes) ∧ bytes.length ≤ settings.limit ∧
      Graph.parse bytes = .ok graph ∧ ⟨settings.path, graph⟩ = o := by
  rw [value_openWith]
  cases disk.node settings.path with
  | error cause => simp
  | ok node =>
    cases node with
    | directory => simp
    | file bytes =>
      by_cases hlimit : settings.limit < bytes.length
      · simp [hlimit, Nat.not_le.mpr hlimit]
      · cases hparse : Graph.parse bytes with
        | error cause => simp [hlimit, hparse]
        | ok graph => simp [hlimit, hparse, Nat.not_lt.mp hlimit]

theorem openWith_eq_missing_iff : (openWith disk settings).value = .error (.disk .notFound) ↔
    disk.node settings.path = .error .notFound := by
  rw [value_openWith]
  cases disk.node settings.path with
  | error cause => simp
  | ok node =>
    cases node with
    | directory => simp
    | file bytes =>
      by_cases hlimit : settings.limit < bytes.length
      · simp [hlimit]
      · cases hparse : Graph.parse bytes <;> simp [hlimit, hparse]

theorem isStale_eq_false_iff : (o.isStale disk path).value = false ↔
    ∃ bytes, disk.node path = .ok (.file bytes) ∧ bytes.length = o.graph.file.length ∧
      ObjectId.ofBytes (bytes.drop (bytes.length - ObjectId.byteCount)) = o.graph.checksum := by
  unfold isStale differs
  cases hnode : disk.node path with
  | error cause => simp
  | ok node =>
    cases node with
    | directory => simp
    | file bytes => simp

structure Admitted (settings : Settings) (o : Opened) : Prop where
  path_eq : o.path = settings.path
  length_le : o.graph.file.length ≤ settings.limit
  parses : Graph.parse o.graph.file = .ok o.graph

theorem admitted_of_openWith (h : (openWith disk settings).value = .ok o) : o.Admitted settings := by
  obtain ⟨bytes, graph, _, hlimit, hparse, rfl⟩ := openWith_eq_ok_iff.mp h
  have hfile := Graph.file_of_parse hparse
  exact ⟨rfl, hfile ▸ hlimit, hfile ▸ hparse⟩

theorem isStale_of_openWith (h : (openWith disk settings).value = .ok o) :
    (o.isStale disk settings.path).value = false := by
  obtain ⟨bytes, graph, hnode, _, hparse, rfl⟩ := openWith_eq_ok_iff.mp h
  refine isStale_eq_false_iff.mpr ⟨bytes, hnode, ?_, (Graph.checksum_of_parse hparse).symm⟩
  rw [Graph.file_of_parse hparse]

/-- A file that is not stale has the length and the trailer of the one that was opened. -/
theorem Admitted.matches_of_not_isStale (h : o.Admitted settings)
    (hfresh : (o.isStale disk path).value = false) :
    ∃ bytes, disk.node path = .ok (.file bytes) ∧ o.graph.file.length = bytes.length ∧
      o.graph.checksum.toBytes = bytes.drop (bytes.length - 20) := by
  obtain ⟨bytes, hnode, hlength, hchecksum⟩ := isStale_eq_false_iff.mp hfresh
  have hsize := Graph.size_of_parse h.parses
  have htrailer : (bytes.drop (bytes.length - 20)).length = 20 := by
    rw [List.length_drop]
    omega
  refine ⟨bytes, hnode, hlength.symm, ?_⟩
  rw [← hchecksum]
  exact ObjectId.toBytes_ofBytes htrailer

end Opened

section Single

theorem splitOn_g : "g".splitOn "/" = ["g"] := by
  change String.splitOnAux "g" "/" 0 0 0 [] = ["g"]
  -- The letter is passed over, and then the end is reached.
  rw [String.splitOnAux, if_neg (by decide +kernel), if_neg (by decide +kernel),
    String.splitOnAux, if_pos (by decide +kernel)]
  decide +kernel

theorem Path.parse_g : Path.parse "g" = .ok ⟨.home, ["g"], false⟩ := by
  unfold Path.parse
  rw [splitOn_g, if_neg (by decide +kernel), if_neg (by decide +kernel), if_neg (by decide +kernel),
    if_neg (by decide +kernel)]
  congr 2
  decide +kernel

def Disk.single (bytes : Bytes) : Disk :=
  ⟨[(.home, .directory), (Location.home ++ ["g"], .file bytes)]⟩

theorem Disk.node_empty : Disk.empty.node "g" = .error .notFound := by
  rw [Disk.node, Path.parse_g]
  rfl

theorem Disk.node_single (bytes : Bytes) : (Disk.single bytes).node "g" = .ok (.file bytes) := by
  rw [Disk.node, Path.parse_g]
  rfl

namespace Opened

theorem openWith_empty :
    (openWith .empty (.ofPath "g")).value = .error (.disk .notFound) :=
  openWith_eq_missing_iff.mpr Disk.node_empty

theorem openWith_sampleFile : (openWith (.single History.sampleFile) (.ofPath "g")).value =
    .ok ⟨"g", History.sampleGraph⟩ := by
  refine openWith_eq_ok_iff.mpr
    ⟨_, _, Disk.node_single _, ?_, History.parse_sampleFile, rfl⟩
  rw [History.sampleFile, History.prepared_sample.length_file, History.length_sortedIds]
  decide

theorem openWith_blank : (openWith (.single []) (.ofPath "g")).value =
    .error (.graph (.tooShort 0)) := by
  rw [value_openWith, Settings.ofPath]
  dsimp only
  rw [Disk.node_single]
  rfl

theorem isStale_blank :
    ((⟨"g", History.sampleGraph⟩ : Opened).isStale (.single []) "g").value = true := by
  refine eq_true_of_ne_false fun hfresh => ?_
  obtain ⟨bytes, hnode, hlength, _⟩ := isStale_eq_false_iff.mp hfresh
  cases (Disk.node_single []).symm.trans hnode
  have hsize := Graph.size_of_parse History.parse_sampleFile
  rw [← Graph.file_of_parse History.parse_sampleFile, ← hlength] at hsize
  exact absurd hsize (by decide)

end Opened

end Single

end Ancestry
