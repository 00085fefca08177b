import Ancestry.Proofs.Store.Current

/-!
# Runs of calls to a holder

What a snapshot that is handed out goes back to. The answers alone tell whether two snapshots are the
same instance: each answer that is not quiet drops what was held, and what was dropped once is never
held again.
-/

namespace Ancestry

/-- An answer that leaves what is held. -/
def Answer.IsQuiet : Answer → Prop
  | .refreshed outcome => outcome = .ok false
  | .cleared _ => False
  | .handed _ => True

namespace Current

def answers (c : Current) : List Call → List Answer
  | [] => []
  | call :: calls => (c.answer call).2 :: (c.answer call).1.answers calls

variable {c next : Current} {call : Call} {calls : List Call} {reply : Answer} {n i j k : Nat}

/-- What was published as `n` is no longer held. -/
structure Gone (n : Nat) (c : Current) : Prop where
  lt_published : n < c.published
  held_ne : c.held ≠ some n

theorem gone_publish (opened : Opened) (hn : n < c.published) : (c.publish opened).Gone n := by
  refine ⟨Nat.lt_succ_of_lt hn, ?_⟩
  rintro ⟨⟩
  exact Nat.lt_irrefl _ hn

theorem gone_clear (hn : n < c.published) : c.clear.1.Gone n :=
  ⟨hn, nofun⟩

section Steps

variable (hstep : Step c call next reply)
include hstep

theorem Step.published_le : c.published ≤ next.published := by
  cases hstep with
  | published => exact Nat.le_succ _
  | kept | missing | dropped | cleared | handed => exact Nat.le_refl _

theorem Step.snapshot_of_isQuiet (hquiet : reply.IsQuiet) : next.snapshot = c.snapshot := by
  cases hstep with
  | kept | handed => rfl
  | missing =>
    have hnothing : c.snapshot.isSome = false := Except.ok.inj hquiet
    exact (Option.isNone_iff_eq_none.mp (Option.isSome_eq_false_iff.mp hnothing)).symm
  | published | dropped => cases hquiet
  | cleared => exact hquiet.elim

theorem Step.gone_of_not_isQuiet (hloud : ¬ reply.IsQuiet) (hn : n < c.published) :
    next.Gone n := by
  cases hstep with
  | kept | handed => exact absurd (by simp [Answer.IsQuiet]) hloud
  | published _ opened => exact gone_publish opened hn
  | missing | dropped | cleared => exact gone_clear hn

theorem Step.snapshot_of_handed {snapshot : Option Snapshot} (h : reply = .handed snapshot) :
    c.snapshot = snapshot := by
  cases hstep with
  | handed => exact Answer.handed.inj h
  | kept | published | missing | dropped | cleared => cases h

/-- What is held after a call was held before it, or has just been opened. -/
theorem Step.held_or_opened {s : Snapshot} (hs : next.snapshot = some s) :
    c.snapshot = some s ∨ ∃ disk, call = .refresh disk ∧ reply = .refreshed (.ok true) ∧
      (Opened.openWith disk c.settings).value = .ok s.opened ∧ s.number = c.published := by
  cases hstep with
  | kept | handed => exact .inl hs
  | published disk opened outdated opens =>
    cases hs
    exact .inr ⟨disk, rfl, rfl, opens, rfl⟩
  | missing | dropped | cleared => cases hs

theorem Gone.step (h : c.Gone n) : next.Gone n := by
  cases hstep with
  | kept | handed => exact h
  | published _ opened => exact gone_publish opened h.lt_published
  | missing | dropped | cleared => exact gone_clear h.lt_published

end Steps

section Prefixes

theorem after_append (c : Current) (calls more : List Call) :
    c.after (calls ++ more) = (c.after calls).after more :=
  List.foldl_append

theorem getElem?_answers (c : Current) (calls : List Call) (k : Nat) :
    (c.answers calls)[k]? = calls[k]?.map fun call => ((c.after (calls.take k)).answer call).2 := by
  induction calls generalizing c k with
  | nil => rfl
  | cons call calls ih =>
    cases k with
    | zero => rfl
    | succ k => exact ih (c.answer call).1 k

theorem step_of_getElem? (h : (c.answers calls)[k]? = some reply) :
    ∃ call, calls[k]? = some call ∧
      Step (c.after (calls.take k)) call (c.after (calls.take (k + 1))) reply := by
  rw [getElem?_answers] at h
  obtain ⟨call, hcall, rfl⟩ := Option.map_eq_some_iff.mp h
  refine ⟨call, hcall, ?_⟩
  rw [List.take_add_one, hcall, after_append]
  exact step_answer _ call

theorem after_take_of_answers_eq_none (h : (c.answers calls)[k]? = none) :
    c.after (calls.take (k + 1)) = c.after (calls.take k) := by
  rw [getElem?_answers, Option.map_eq_none_iff] at h
  rw [List.take_add_one, h]
  exact congrArg c.after (List.append_nil _)

/-- What holds at one point of a run and is kept by every step from there on holds later, too. -/
theorem after_take_of_step {P : Current → Prop} (hij : i ≤ j) (hi : P (c.after (calls.take i)))
    (hkeep : ∀ k call reply, i ≤ k → k < j → calls[k]? = some call →
      (c.answers calls)[k]? = some reply →
      Step (c.after (calls.take k)) call (c.after (calls.take (k + 1))) reply →
      P (c.after (calls.take k)) → P (c.after (calls.take (k + 1)))) :
    P (c.after (calls.take j)) := by
  induction hij with
  | refl => exact hi
  | @step m him ih =>
    have hm : P (c.after (calls.take m)) :=
      ih fun k call reply hik hkm => hkeep k call reply hik (Nat.lt_succ_of_lt hkm)
    cases hreply : (c.answers calls)[m]? with
    | none =>
      rw [after_take_of_answers_eq_none hreply]
      exact hm
    | some reply =>
      obtain ⟨call, hcall, hstep⟩ := step_of_getElem? hreply
      exact hkeep m call reply him (Nat.lt_succ_self m) hcall hreply hstep hm

end Prefixes

section Instances

variable (hij : i ≤ j)
include hij

theorem published_after_le :
    (c.after (calls.take i)).published ≤ (c.after (calls.take j)).published :=
  after_take_of_step (P := fun c' => (c.after (calls.take i)).published ≤ c'.published) hij
    (Nat.le_refl _) fun _ _ _ _ _ _ _ hstep h => Nat.le_trans h hstep.published_le

theorem snapshot_after_of_isQuiet
    (hquiet : ∀ k reply, i ≤ k → k < j → (c.answers calls)[k]? = some reply → reply.IsQuiet) :
    (c.after (calls.take j)).snapshot = (c.after (calls.take i)).snapshot :=
  after_take_of_step (P := fun c' => c'.snapshot = (c.after (calls.take i)).snapshot) hij rfl
    fun k _ reply hik hkj _ hreply hstep h =>
      (hstep.snapshot_of_isQuiet (hquiet k reply hik hkj hreply)).trans h

theorem Gone.after (h : (c.after (calls.take i)).Gone n) : (c.after (calls.take j)).Gone n :=
  after_take_of_step (P := Gone n) hij h fun _ _ _ _ _ _ _ hstep h => h.step hstep

end Instances

variable {settings : Settings} {s t : Snapshot}

structure PublishedAt (settings : Settings) (calls : List Call) (k : Nat) (s : Snapshot) :
    Prop where
  opened : ∃ disk bytes, calls[k]? = some (.refresh disk) ∧
    disk.node settings.path = .ok (.file bytes) ∧ bytes.length ≤ settings.limit ∧
    Graph.parse bytes = .ok s.opened.graph
  reply : ((ofSettings settings).answers calls)[k]? = some (.refreshed (.ok true))
  held_ne : ((ofSettings settings).after (calls.take k)).held ≠ some s.number
  snapshot_eq : ((ofSettings settings).after (calls.take (k + 1))).snapshot = some s

def HandedAt (settings : Settings) (calls : List Call) (k : Nat) (s : Snapshot) : Prop :=
  ((ofSettings settings).answers calls)[k]? = some (.handed (some s))

def QuietBetween (settings : Settings) (calls : List Call) (i j : Nat) : Prop :=
  ∀ k reply, i < k → k < j → ((ofSettings settings).answers calls)[k]? = some reply →
    reply.IsQuiet

theorem snapshot_of_handedAt (h : HandedAt settings calls j s) :
    ((ofSettings settings).after (calls.take j)).snapshot = some s := by
  obtain ⟨_, _, hstep⟩ := step_of_getElem? h
  exact hstep.snapshot_of_handed rfl

theorem number_lt_published
    (h : ((ofSettings settings).after (calls.take i)).snapshot = some s) :
    s.number < ((ofSettings settings).after (calls.take i)).published :=
  (sound_after settings _).number_lt s h

theorem exists_publishedAt (settings : Settings) (calls : List Call) (j : Nat) :
    ∀ s, ((ofSettings settings).after (calls.take j)).snapshot = some s →
      ∃ k, k < j ∧ PublishedAt settings calls k s := by
  apply after_take_of_step (c := ofSettings settings)
    (P := fun c' => ∀ s, c'.snapshot = some s → ∃ k, k < j ∧ PublishedAt settings calls k s)
    (Nat.zero_le j) nofun
  intro k call reply _ hkj hcall hreply hstep hk s hs
  rcases hstep.held_or_opened hs with hheld | ⟨disk, rfl, rfl, hopen, hnumber⟩
  · exact hk s hheld
  have sound := sound_after settings (calls.take k)
  rw [sound.settings_eq] at hopen
  obtain ⟨bytes, graph, hnode, hlimit, hparse, hopened⟩ := Opened.openWith_eq_ok_iff.mp hopen
  refine ⟨k, hkj, ⟨disk, bytes, hcall, hnode, hlimit, ?_⟩, hreply, ?_, hs⟩
  · rw [← hopened]
    exact hparse
  · rw [hnumber]
    exact sound.held_ne

/-- What is no longer held has gone for good. -/
theorem gone_of_held_ne (hij : i ≤ j)
    (hi : ((ofSettings settings).after (calls.take i)).held = some n)
    (hj : ((ofSettings settings).after (calls.take j)).held ≠ some n) :
    ((ofSettings settings).after (calls.take j)).Gone n := by
  obtain ⟨s, hs, rfl⟩ := Option.map_eq_some_iff.mp hi
  exact ⟨Nat.lt_of_lt_of_le (number_lt_published hs) (published_after_le hij), hj⟩

theorem PublishedAt.held_eq (h : PublishedAt settings calls k s) :
    ((ofSettings settings).after (calls.take (k + 1))).held = some s.number :=
  congrArg (Option.map Snapshot.number) h.snapshot_eq

theorem PublishedAt.not_lt (h : PublishedAt settings calls i s) (h' : PublishedAt settings calls j t)
    (hnumber : s.number = t.number) : ¬ i < j := by
  intro hij
  have hgone := gone_of_held_ne hij (h.held_eq.trans (congrArg some hnumber)) h'.held_ne
  exact (hgone.after (Nat.le_succ j)).held_ne h'.held_eq

section Handed

variable (hs : HandedAt settings calls i s) (ht : HandedAt settings calls j t)
include hs ht

theorem quietBetween_of_number_eq (hnumber : s.number = t.number) :
    QuietBetween settings calls i j := by
  intro k reply hik hkj hreply
  refine Classical.byContradiction fun hloud => ?_
  obtain ⟨_, _, hstep⟩ := step_of_getElem? hreply
  have hlt := Nat.lt_of_lt_of_le (number_lt_published (snapshot_of_handedAt hs))
    (published_after_le (Nat.le_of_lt hik))
  have hgone := (hstep.gone_of_not_isQuiet hloud hlt).after hkj
  exact hgone.held_ne (by rw [held, snapshot_of_handedAt ht, Option.map_some, hnumber])

variable (hij : i ≤ j)
include hij

theorem eq_of_quietBetween (hquiet : QuietBetween settings calls i j) : s = t := by
  have hkept := snapshot_after_of_isQuiet hij fun k reply hik hkj hreply => by
    rcases Nat.lt_or_eq_of_le hik with hik | rfl
    · exact hquiet k reply hik hkj hreply
    · -- Handing out is quiet itself.
      cases hs.symm.trans hreply
      trivial
  rw [snapshot_of_handedAt hs, snapshot_of_handedAt ht] at hkept
  exact Option.some.inj hkept.symm

/-- Two snapshots are the same instance exactly if all answers between them are quiet. -/
theorem number_eq_iff : s.number = t.number ↔ QuietBetween settings calls i j :=
  ⟨quietBetween_of_number_eq hs ht,
    fun hquiet => congrArg Snapshot.number (eq_of_quietBetween hs ht hij hquiet)⟩

end Handed

/-- In every run, a snapshot that is handed out was published by a refresh before, from all that the
disk had then. Two snapshots are the same instance exactly if all answers between them are quiet, no
instance is published twice, and one that is not held any more is not held ever after. -/
theorem handed_of_run (settings : Settings) (calls : List Call) :
    (∀ j s, HandedAt settings calls j s → ∃ k, k < j ∧ PublishedAt settings calls k s) ∧
    (∀ i j s t, i ≤ j → HandedAt settings calls i s → HandedAt settings calls j t →
      (s.number = t.number ↔ QuietBetween settings calls i j) ∧ (s.number = t.number → s = t)) ∧
    (∀ i j s t, PublishedAt settings calls i s → PublishedAt settings calls j t →
      s.number = t.number → i = j) ∧
    ∀ i j k n, i ≤ j → j ≤ k →
      ((ofSettings settings).after (calls.take i)).held = some n →
      ((ofSettings settings).after (calls.take j)).held ≠ some n →
      ((ofSettings settings).after (calls.take k)).held ≠ some n := by
  refine ⟨fun j s h => exists_publishedAt settings calls j s (snapshot_of_handedAt h), ?_, ?_, ?_⟩
  · intro i j s t hij hs ht
    exact ⟨number_eq_iff hs ht hij, fun hnumber =>
      eq_of_quietBetween hs ht hij (quietBetween_of_number_eq hs ht hnumber)⟩
  · intro i j s t hi hj hnumber
    exact Nat.le_antisymm (Nat.not_lt.mp (hj.not_lt hi hnumber.symm))
      (Nat.not_lt.mp (hi.not_lt hj hnumber))
  · intro i j k n hij hjk hi hj
    exact ((gone_of_held_ne hij hi hj).after hjk).held_ne

section Sample

open History

/-- The sample is missing, published, kept, dropped and published anew. -/
def sampleCalls : List Call :=
  [.refresh .empty, .refresh (.single sampleFile), .snapshot, .refresh (.single sampleFile),
    .snapshot, .clear, .refresh (.single sampleFile), .snapshot]

theorem answers_sampleCalls : (ofSettings (.ofPath "g")).answers sampleCalls =
    [.refreshed (.ok false), .refreshed (.ok true), .handed (some ⟨0, "g", sampleGraph⟩),
      .refreshed (.ok false), .handed (some ⟨0, "g", sampleGraph⟩), .cleared true,
      .refreshed (.ok true), .handed (some ⟨1, "g", sampleGraph⟩)] := by
  have hfresh := Opened.isStale_of_openWith Opened.openWith_sampleFile
  simp [sampleCalls, answers, answer, refresh, reload, ofSettings, publish, clear, hfresh,
    Opened.openWith_empty, Opened.openWith_sampleFile, StoreError.isMissing]

theorem handed_sampleCalls :
    (∃ k, k < 7 ∧ PublishedAt (.ofPath "g") sampleCalls k ⟨1, "g", sampleGraph⟩) ∧
      QuietBetween (.ofPath "g") sampleCalls 2 4 ∧ ¬ QuietBetween (.ofPath "g") sampleCalls 4 7 := by
  obtain ⟨horigin, hinstance, _⟩ := handed_of_run (.ofPath "g") sampleCalls
  have hfirst : HandedAt (.ofPath "g") sampleCalls 2 ⟨0, "g", sampleGraph⟩ := by
    rw [HandedAt, answers_sampleCalls]
    rfl
  have hsecond : HandedAt (.ofPath "g") sampleCalls 4 ⟨0, "g", sampleGraph⟩ := by
    rw [HandedAt, answers_sampleCalls]
    rfl
  have hlast : HandedAt (.ofPath "g") sampleCalls 7 ⟨1, "g", sampleGraph⟩ := by
    rw [HandedAt, answers_sampleCalls]
    rfl
  have hkept := (hinstance 2 4 _ _ (by decide) hfirst hsecond).1
  have hdropped := (hinstance 4 7 _ _ (by decide) hsecond hlast).1
  refine ⟨horigin 7 _ hlast, hkept.mp rfl, fun hquiet => ?_⟩
  exact absurd (hdropped.mpr hquiet) (by decide)

end Sample

end Current

end Ancestry
