import Ancestry.Proofs.Store.Opened
import Ancestry.Store.Current

/-!
# Calls to a holder

What one call does to a holder and what it answers, and what holds after any number of calls: the
numbers of published files are never used again, and what is held was opened under the settings of
the holder. The disk may be a different one at every call.
-/

namespace Ancestry

/-- What a holder can be asked. A refresh comes with the disk that it finds. -/
inductive Call
  | refresh (disk : Disk)
  | clear
  | snapshot

inductive Answer
  | refreshed (outcome : Except StoreError Bool)
  | cleared (dropped : Bool)
  | handed (snapshot : Option Snapshot)

namespace Current

def held (c : Current) : Option Nat :=
  c.snapshot.map Snapshot.number

def answer (c : Current) : Call → Current × Answer
  | .refresh disk => ((c.refresh disk).value.1, .refreshed (c.refresh disk).value.2)
  | .clear => (c.clear.1, .cleared c.clear.2)
  | .snapshot => (c, .handed c.snapshot)

def after (c : Current) (calls : List Call) : Current :=
  calls.foldl (fun c call => (c.answer call).1) c

/-- Nothing is held, or what is held is not what the disk has. -/
def Outdated (c : Current) (disk : Disk) : Prop :=
  ∀ s, c.snapshot = some s → (s.opened.isStale disk c.settings.path).value = true

/-- All ways in which a call can be answered. -/
inductive Step (c : Current) : Call → Current → Answer → Prop
  | kept (disk : Disk) (s : Snapshot) (held : c.snapshot = some s)
      (fresh : (s.opened.isStale disk c.settings.path).value = false) :
      Step c (.refresh disk) c (.refreshed (.ok false))
  | published (disk : Disk) (opened : Opened) (outdated : c.Outdated disk)
      (opens : (Opened.openWith disk c.settings).value = .ok opened) :
      Step c (.refresh disk) (c.publish opened) (.refreshed (.ok true))
  | missing (disk : Disk) (outdated : c.Outdated disk)
      (absent : disk.node c.settings.path = .error .notFound) :
      Step c (.refresh disk) c.clear.1 (.refreshed (.ok c.snapshot.isSome))
  | dropped (disk : Disk) (cause : StoreError) (outdated : c.Outdated disk)
      (fails : (Opened.openWith disk c.settings).value = .error cause)
      (present : disk.node c.settings.path ≠ .error .notFound) :
      Step c (.refresh disk) c.clear.1 (.refreshed (.error cause))
  | cleared : Step c .clear c.clear.1 (.cleared c.snapshot.isSome)
  | handed : Step c .snapshot c (.handed c.snapshot)

variable {c : Current} {disk : Disk} {settings : Settings} {call : Call}

section Steps

theorem step_reload (h : c.Outdated disk) :
    Step c (.refresh disk) (c.reload disk).value.1 (.refreshed (c.reload disk).value.2) := by
  unfold reload
  dsimp only
  cases hopen : (Opened.openWith disk c.settings).value with
  | ok opened => exact .published disk opened h hopen
  | error cause =>
    dsimp only
    by_cases hmissing : cause.isMissing
    · rw [if_pos hmissing]
      rw [StoreError.isMissing_iff.mp hmissing] at hopen
      exact .missing disk h (Opened.openWith_eq_missing_iff.mp hopen)
    · rw [if_neg hmissing]
      refine .dropped disk cause h hopen fun habsent => hmissing ?_
      rw [Opened.openWith_eq_missing_iff.mpr habsent] at hopen
      cases hopen
      rfl

theorem value_refresh_of_outdated (h : c.Outdated disk) :
    (c.refresh disk).value = (c.reload disk).value := by
  unfold refresh
  cases hheld : c.snapshot with
  | none => rfl
  | some s =>
    dsimp only
    rw [if_pos (h s hheld)]
    rfl

theorem value_refresh_of_held {s : Snapshot} (hs : c.snapshot = some s)
    (hfresh : (s.opened.isStale disk c.settings.path).value = false) :
    (c.refresh disk).value = (c, .ok false) := by
  unfold refresh
  rw [hs]
  dsimp only
  rw [if_neg (ne_true_of_eq_false hfresh)]

theorem step_refresh (c : Current) (disk : Disk) :
    Step c (.refresh disk) (c.refresh disk).value.1 (.refreshed (c.refresh disk).value.2) := by
  by_cases houtdated : c.Outdated disk
  · rw [value_refresh_of_outdated houtdated]
    exact step_reload houtdated
  · obtain ⟨s, hs, hfresh⟩ : ∃ s, c.snapshot = some s ∧
        (s.opened.isStale disk c.settings.path).value = false := by
      simpa [Outdated] using houtdated
    rw [value_refresh_of_held hs hfresh]
    exact .kept disk s hs hfresh

theorem step_answer (c : Current) (call : Call) :
    Step c call (c.answer call).1 (c.answer call).2 := by
  cases call with
  | refresh disk => exact step_refresh c disk
  | clear => exact .cleared
  | snapshot => exact .handed

end Steps

section Invariants

structure Sound (settings : Settings) (c : Current) : Prop where
  settings_eq : c.settings = settings
  number_lt : ∀ s, c.snapshot = some s → s.number < c.published
  admitted : ∀ s, c.snapshot = some s → s.opened.Admitted settings

theorem sound_ofSettings (settings : Settings) : (ofSettings settings).Sound settings where
  settings_eq := rfl
  number_lt _ hs := by cases hs
  admitted _ hs := by cases hs

theorem Sound.held_ne (h : c.Sound settings) : c.held ≠ some c.published := by
  intro heq
  obtain ⟨s, hs, hnumber⟩ := Option.map_eq_some_iff.mp heq
  have hlt := h.number_lt s hs
  rw [hnumber] at hlt
  exact Nat.lt_irrefl _ hlt

theorem Sound.clear (h : c.Sound settings) : c.clear.1.Sound settings where
  settings_eq := h.settings_eq
  number_lt _ hs := by cases hs
  admitted _ hs := by cases hs

theorem Sound.publish {opened : Opened} (h : c.Sound settings) (hopened : opened.Admitted settings) :
    (c.publish opened).Sound settings where
  settings_eq := h.settings_eq
  number_lt s hs := by
    cases hs
    exact Nat.lt_succ_self _
  admitted s hs := by
    cases hs
    exact hopened

theorem Sound.step {next : Current} {reply : Answer} (h : c.Sound settings)
    (hstep : Step c call next reply) : next.Sound settings := by
  cases hstep with
  | kept | handed => exact h
  | published disk opened outdated opens =>
    rw [h.settings_eq] at opens
    exact h.publish (Opened.admitted_of_openWith opens)
  | missing | dropped | cleared => exact h.clear

/-- What every answer keeps is kept by all of them. -/
theorem after_of_answer {P : Current → Prop} (hanswer : ∀ c call, P c → P (c.answer call).1)
    (calls : List Call) (h : P c) : P (c.after calls) := by
  induction calls generalizing c with
  | nil => exact h
  | cons call calls ih => exact ih (hanswer c call h)

theorem sound_after (settings : Settings) (calls : List Call) :
    ((ofSettings settings).after calls).Sound settings :=
  after_of_answer (fun c call h => h.step (step_answer c call)) calls (sound_ofSettings settings)

end Invariants

end Current

end Ancestry
