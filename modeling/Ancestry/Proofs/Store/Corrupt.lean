import Ancestry.Proofs.Graph.Corrupt
import Ancestry.Proofs.Store.Current

/-!
# Corrupt files on disk

A file that cannot be read is reported as corrupt and never as missing, and a holder that finds one
drops what it held. Only a file that looks like the one that is held goes unnoticed.
-/

namespace Ancestry

namespace Opened

variable {disk : Disk} {settings : Settings} {bytes : Bytes} {cause : GraphError}

/-- The bytes have the length and the trailer of what was opened. -/
def Resembles (o : Opened) (bytes : Bytes) : Prop :=
  o.graph.file.length = bytes.length ∧
    o.graph.checksum.toBytes = bytes.drop (bytes.length - ObjectId.byteCount)

theorem openWith_of_parse_eq_error (hnode : disk.node settings.path = .ok (.file bytes))
    (hlimit : bytes.length ≤ settings.limit) (hparse : Graph.parse bytes = .error cause) :
    (openWith disk settings).value = .error (.graph cause) := by
  rw [value_openWith, hnode]
  dsimp only
  rw [if_neg (Nat.not_lt.mpr hlimit), hparse]

end Opened

namespace Current

variable {c next : Current} {disk : Disk} {settings : Settings} {bytes : Bytes}

/-- A refresh that cannot open the file drops what is held and tells why. -/
theorem Sound.drops {cause : StoreError} {outcome : Except StoreError Bool} (h : c.Sound settings)
    (hnode : disk.node settings.path = .ok (.file bytes))
    (hopen : (Opened.openWith disk settings).value = .error cause)
    (hchanged : ∀ s, c.snapshot = some s → ¬ s.opened.Resembles bytes)
    (hstep : Step c (.refresh disk) next (.refreshed outcome)) :
    next.snapshot = none ∧ outcome = .error cause := by
  rw [← h.settings_eq] at hnode hopen
  cases hstep with
  | kept _ s hheld fresh =>
    obtain ⟨found, hfound, hresembles⟩ := (h.admitted s hheld).matches_of_not_isStale fresh
    cases hnode.symm.trans hfound
    exact absurd hresembles (hchanged s hheld)
  | published _ opened _ opens => cases hopen.symm.trans opens
  | missing _ _ absent => cases hnode.symm.trans absent
  | dropped _ _ _ fails =>
    cases hopen.symm.trans fails
    exact ⟨rfl, rfl⟩

/-- A file that cannot be read is corrupt, and not missing. No holder goes on with what it held when
it finds one, unless the file resembles what it held. -/
theorem drops_of_parse_eq_error {cause : GraphError} (hsize : bytes.length < 4 * UInt32.size)
    (hparse : Graph.parse bytes = .error cause) :
    (cause.isFatal ∧ ¬ cause.isAbsent ∧ ¬ cause.isAmbiguous) ∧
    ∀ (disk : Disk) (settings : Settings), disk.node settings.path = .ok (.file bytes) →
      bytes.length ≤ settings.limit →
      ((Opened.openWith disk settings).value = .error (.graph cause) ∧
        (StoreError.graph cause).isCorrupt ∧ ¬ (StoreError.graph cause).isMissing) ∧
      ∀ calls, let c := (ofSettings settings).after calls
        (∀ s, c.snapshot = some s → ¬ s.opened.Resembles bytes) →
          (c.refresh disk).value.1.snapshot = none ∧
            (c.refresh disk).value.2 = .error (.graph cause) := by
  have hfatal : cause.isFatal := Graph.parse_isFatal hsize cause hparse
  refine ⟨⟨hfatal, GraphError.not_isAbsent_of_isFatal hfatal,
    GraphError.not_isAmbiguous_of_isFatal hfatal⟩, ?_⟩
  intro disk settings hnode hlimit
  have hopen := Opened.openWith_of_parse_eq_error hnode hlimit hparse
  refine ⟨⟨hopen, hfatal, ?_⟩, ?_⟩
  · rw [StoreError.isMissing_iff]
    rintro ⟨⟩
  · intro calls c hchanged
    have sound : c.Sound settings := sound_after settings calls
    exact sound.drops hnode hopen hchanged (step_refresh c disk)

/-- The sample is held, and dropped for as many zeros as the shortest file has bytes. -/
theorem drops_zeros :
    let zeros : Bytes := List.replicate Graph.minSize 0
    let c := (ofSettings (.ofPath "g")).after [.refresh (.single History.sampleFile)]
    let cause := GraphError.badSignature ⟨0, 0, 0, 0⟩
    zeros.length < 4 * UInt32.size ∧ Graph.parse zeros = .error cause ∧
      (∃ s, c.snapshot = some s ∧ ¬ s.opened.Resembles zeros) ∧ cause.isFatal ∧
      (c.refresh (.single zeros)).value.1.snapshot = none ∧
        (c.refresh (.single zeros)).value.2 = .error (.graph cause) := by
  intro zeros c cause
  have hsize : zeros.length < 4 * UInt32.size := by decide
  have hparse : Graph.parse zeros = .error cause := rfl
  have hsnapshot : c.snapshot = some ⟨0, ⟨"g", History.sampleGraph⟩⟩ := by
    simp [c, after, answer, refresh, reload, ofSettings, publish, Opened.openWith_sampleFile]
  have hchanged : ¬ (⟨"g", History.sampleGraph⟩ : Opened).Resembles zeros := by
    rintro ⟨hlength, _⟩
    dsimp only at hlength
    rw [Graph.file_of_parse History.parse_sampleFile, History.sampleFile,
      History.prepared_sample.length_file, History.length_sortedIds] at hlength
    exact absurd hlength (by decide)
  obtain ⟨⟨hfatal, _⟩, hdisk⟩ := drops_of_parse_eq_error hsize hparse
  obtain ⟨_, hdrops⟩ := hdisk (.single zeros) (.ofPath "g") (Disk.node_single zeros) (by decide)
  refine ⟨hsize, hparse, ⟨_, hsnapshot, hchanged⟩, hfatal, ?_⟩
  apply hdrops [.refresh (.single History.sampleFile)]
  intro s hs
  cases hsnapshot.symm.trans hs
  exact hchanged

end Current

end Ancestry
