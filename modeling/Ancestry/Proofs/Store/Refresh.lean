import Ancestry.Proofs.Store.Current

/-!
# What a refresh brings

A refresh brings a holder up to date with the disk it finds. Whatever was held before, a second
refresh on the same disk finds nothing left to do, or fails for the same cause.
-/

namespace Ancestry.Current

variable {c next : Current} {disk : Disk} {settings : Settings}

section Ok

variable {changed : Bool} (sound : c.Sound settings)
variable (hstep : Step c (.refresh disk) next (.refreshed (.ok changed)))
include sound hstep

theorem changed_iff : (changed = true ↔ next.held ≠ c.held) ∧
    (changed = false ↔ next.snapshot = c.snapshot) := by
  cases hstep with
  | kept _ s hheld fresh => simp
  | published _ opened outdated opens =>
    have hne : (c.publish opened).held ≠ c.held := sound.held_ne.symm
    exact ⟨by simp [hne], by simpa using fun heq => hne (congrArg (Option.map _) heq)⟩
  | missing _ outdated absent =>
    cases hsnapshot : c.snapshot with
    | none => simp [clear, held, hsnapshot]
    | some s => simp [clear, held, hsnapshot]

theorem snapshot_eq_none_iff :
    next.snapshot = none ↔ disk.node settings.path = .error .notFound := by
  rw [← sound.settings_eq]
  cases hstep with
  | kept _ s hheld fresh =>
    obtain ⟨bytes, hnode, _⟩ := Opened.isStale_eq_false_iff.mp fresh
    simp [hheld, hnode]
  | published _ opened outdated opens =>
    obtain ⟨bytes, graph, hnode, _⟩ := Opened.openWith_eq_ok_iff.mp opens
    simp [publish, hnode]
  | missing _ outdated absent => simp [clear, absent]

theorem isStale_of_held {s : Snapshot} (hs : next.snapshot = some s) :
    (s.opened.isStale disk settings.path).value = false := by
  rw [← sound.settings_eq]
  cases hstep with
  | kept _ s' hheld fresh =>
    cases hs.symm.trans hheld
    exact fresh
  | published _ opened outdated opens =>
    cases hs
    exact Opened.isStale_of_openWith opens
  | missing _ outdated absent => cases hs

end Ok

theorem snapshot_of_error {cause : StoreError}
    (hstep : Step c (.refresh disk) next (.refreshed (.error cause))) : next.snapshot = none := by
  cases hstep with
  | dropped => rfl

section Again

variable {last : Current} {outcome : Except StoreError Bool}
variable (hagain : Step next (.refresh disk) last (.refreshed outcome))
include hagain

theorem again_of_ok {changed : Bool} (sound : c.Sound settings)
    (hstep : Step c (.refresh disk) next (.refreshed (.ok changed))) :
    last.snapshot = next.snapshot ∧ outcome = .ok false := by
  have hsettings := (sound.step hstep).settings_eq
  cases hnext : next.snapshot with
  | some s =>
    have hfresh := isStale_of_held sound hstep hnext
    rw [← hsettings] at hfresh
    have hcurrent : ¬ next.Outdated disk := by
      intro houtdated
      have hstale := houtdated s hnext
      rw [hfresh] at hstale
      cases hstale
    cases hagain with
    | kept => exact ⟨hnext, rfl⟩
    | published _ _ outdated | missing _ outdated | dropped _ _ outdated =>
      exact absurd outdated hcurrent
  | none =>
    have habsent := (snapshot_eq_none_iff sound hstep).mp hnext
    rw [← hsettings] at habsent
    cases hagain with
    | kept _ s hheld => cases hnext.symm.trans hheld
    | published _ opened outdated opens =>
      obtain ⟨bytes, graph, hnode, _⟩ := Opened.openWith_eq_ok_iff.mp opens
      cases habsent.symm.trans hnode
    | missing => exact ⟨rfl, by rw [hnext]; rfl⟩
    | dropped _ _ _ _ present => exact absurd habsent present

theorem again_of_error {cause : StoreError}
    (hstep : Step c (.refresh disk) next (.refreshed (.error cause))) :
    last.snapshot = none ∧ outcome = .error cause := by
  cases hstep with
  | dropped _ cause _ fails present =>
    cases hagain with
    | kept _ s hheld => cases hheld
    | published _ opened _ opens => cases fails.symm.trans opens
    | missing _ _ absent => exact absurd absent present
    | dropped _ cause' _ fails' =>
      cases fails.symm.trans fails'
      exact ⟨rfl, rfl⟩

end Again

/-- A refresh answers whether another instance is held than before. If it succeeds, nothing is held
exactly when nothing is there, and else the file that is there; a second refresh finds no change. If
it fails, nothing is held, and a second refresh fails for the same cause. -/
theorem refresh_after (settings : Settings) (calls : List Call) (disk : Disk) :
    let c := (ofSettings settings).after calls
    let first := (c.refresh disk).value
    let second := (first.1.refresh disk).value
    (∀ changed, first.2 = .ok changed →
      ((changed = true ↔ first.1.held ≠ c.held) ∧
        (changed = false ↔ first.1.snapshot = c.snapshot)) ∧
      (first.1.snapshot = none ↔ disk.node settings.path = .error .notFound) ∧
      (∀ s, first.1.snapshot = some s →
        (∃ bytes, disk.node settings.path = .ok (.file bytes) ∧
          s.opened.graph.file.length = bytes.length ∧
          s.opened.graph.checksum.toBytes = bytes.drop (bytes.length - 20)) ∧
        (s.opened.isStale disk s.opened.path).value = false) ∧
      second.1.snapshot = first.1.snapshot ∧ second.2 = .ok false) ∧
    ∀ cause, first.2 = .error cause →
      first.1.snapshot = none ∧ second.1.snapshot = none ∧ second.2 = .error cause := by
  intro c first second
  have sound : c.Sound settings := sound_after settings calls
  have hfirst : Step c (.refresh disk) first.1 (.refreshed first.2) := step_refresh c disk
  have hsecond : Step first.1 (.refresh disk) second.1 (.refreshed second.2) :=
    step_refresh first.1 disk
  constructor
  · intro changed hok
    rw [hok] at hfirst
    refine ⟨changed_iff sound hfirst, snapshot_eq_none_iff sound hfirst, ?_,
      again_of_ok hsecond sound hfirst⟩
    intro s hs
    have hfresh := isStale_of_held sound hfirst hs
    have hadmitted := (sound.step hfirst).admitted s hs
    rw [hadmitted.path_eq]
    exact ⟨hadmitted.matches_of_not_isStale hfresh, hfresh⟩
  · intro cause herror
    rw [herror] at hfirst
    exact ⟨snapshot_of_error hfirst, again_of_error hsecond hfirst⟩

open History in
/-- The sample is opened and kept, and then dropped for a file with nothing in it. -/
theorem refresh_sampleFile :
    let opened := ((ofSettings (.ofPath "g")).refresh (.single sampleFile)).value
    let kept := (opened.1.refresh (.single sampleFile)).value
    let dropped := (opened.1.refresh (.single [])).value
    (opened.2 = .ok true ∧ opened.1.held = some 0) ∧
    (kept.2 = .ok false ∧ kept.1.snapshot = opened.1.snapshot) ∧
    dropped.2 = .error (.graph (.tooShort 0)) ∧ dropped.1.snapshot = none ∧
      (dropped.1.refresh (.single [])).value.2 = dropped.2 := by
  intro opened kept dropped
  have hopened : opened = ((ofSettings (.ofPath "g")).publish ⟨"g", sampleGraph⟩, .ok true) := by
    simp [opened, refresh, reload, ofSettings, Opened.openWith_sampleFile]
  have hkept := ((refresh_after (.ofPath "g") [] (.single sampleFile)).1 true
    (congrArg Prod.snd hopened)).2.2.2
  have houtdated : opened.1.Outdated (.single []) := by
    rw [hopened]
    rintro s ⟨⟩
    exact Opened.isStale_blank
  have hdropped : dropped.2 = .error (.graph (.tooShort 0)) := by
    simp only [dropped]
    rw [value_refresh_of_outdated houtdated, hopened]
    simp [reload, publish, ofSettings, Opened.openWith_blank, StoreError.isMissing]
  have hlast := (refresh_after (.ofPath "g") [.refresh (.single sampleFile)] (.single [])).2 _
    hdropped
  refine ⟨?_, hkept.symm, hdropped, hlast.1, hlast.2.2.trans hdropped.symm⟩
  rw [hopened]
  exact ⟨rfl, rfl⟩

end Ancestry.Current
