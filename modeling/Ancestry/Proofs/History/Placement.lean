import Ancestry.History
import Ancestry.Proofs.Graph.Commits

/-!
# Parents written and read

What `Placement.ofParents` writes for a list of parents, a decoded commit reads back: as many
parents as there were, each under its number. The run of three and more parents is found again
whatever edges stand before and after it.
-/

namespace Ancestry

open Outcome

namespace Placement

variable {ps : List Nat} {start : Nat} {w : Placement}

/-- What is written for the parents `ps` where `start` edges stand before. -/
inductive Writes (start : Nat) : List Nat → Placement → Prop
  | root : Writes start [] ⟨Record.noParent, Record.noParent, []⟩
  | single (p : Nat) : Writes start [p] ⟨p, Record.noParent, []⟩
  | pair (p q : Nat) : Writes start [p, q] ⟨p, q, []⟩
  | octopus (p : Nat) (others : List Nat) (many : 2 ≤ others.length) (room : start < Record.flag) :
      Writes start (p :: others) ⟨p, Record.flag + start, closeRun others⟩

theorem writes_of_ofParents (h : ofParents start ps = .ok w) : Writes start ps w := by
  unfold ofParents at h
  split at h
  · obtain rfl := Except.ok.inj h
    exact .root
  · obtain rfl := Except.ok.inj h
    exact .single _
  · obtain rfl := Except.ok.inj h
    exact .pair _ _
  · next p others hone htwo =>
    split at h
    · cases h
    · next hroom =>
      obtain rfl := Except.ok.inj h
      refine .octopus p others ?_ (Nat.not_le.mp hroom)
      match others with
      | [] => exact absurd rfl hone
      | [q] => exact absurd rfl (htwo q)
      | _ :: _ :: _ => exact Nat.le_add_left _ _

/-- Only a run that would start beyond 31 bits cannot be written. -/
theorem exists_ofParents (h : ps.length < 3 ∨ start < Record.flag) :
    ∃ w, ofParents start ps = .ok w := by
  unfold ofParents
  split
  · exact ⟨_, rfl⟩
  · exact ⟨_, rfl⟩
  · exact ⟨_, rfl⟩
  · next p others hone htwo =>
    have hroom : start < Record.flag := by
      refine h.resolve_left fun hshort => ?_
      match others with
      | [] => exact hone rfl
      | [q] => exact htwo q rfl
      | _ :: _ :: _ => simp only [List.length_cons] at hshort; omega
    rw [if_neg (Nat.not_le.mpr hroom)]
    exact ⟨_, rfl⟩

theorem unflag_setFlag {p : Nat} (hp : p < Record.flag) : Record.unflag (Record.setFlag p) = p := by
  rw [Record.unflag, Record.setFlag, Nat.add_mod_left, Nat.mod_mod, Nat.mod_eq_of_lt hp]

theorem map_unflag_closeRun (h : ∀ p ∈ ps, p < Record.flag) :
    (closeRun ps).map Record.unflag = ps := by
  fun_induction closeRun ps with
  | case1 => rfl
  | case2 p =>
    rw [List.map_cons, unflag_setFlag (h p List.mem_cons_self)]
    rfl
  | case3 p q rest ih =>
    have hp : Record.unflag p = p := Nat.mod_eq_of_lt (h p List.mem_cons_self)
    rw [List.map_cons, hp, ih fun x hx => h x (List.mem_cons_of_mem p hx)]

theorem isFlagged_setFlag (p : Nat) : Record.isFlagged (Record.setFlag p) := by
  simp [Record.isFlagged, Record.setFlag]

theorem findIdx?_closeRun (hne : ps ≠ []) (h : ∀ p ∈ ps, p < Record.flag) (rest : List Nat) :
    (closeRun ps ++ rest).findIdx? Record.isFlagged = some (ps.length - 1) := by
  fun_induction closeRun ps with
  | case1 => exact absurd rfl hne
  | case2 p =>
    rw [List.cons_append, List.findIdx?_cons, if_pos (isFlagged_setFlag p)]
    rfl
  | case3 p q ps ih =>
    have hp : Record.isFlagged p = false := by
      have := h p List.mem_cons_self
      simp only [Record.isFlagged, decide_eq_false_iff_not]
      omega
    have htail := ih (List.cons_ne_nil q ps) fun x hx => h x (List.mem_cons_of_mem p hx)
    rw [List.cons_append, List.findIdx?_cons, hp, if_neg Bool.false_ne_true, htail]
    rfl

theorem closeRun_lt (h : ∀ p ∈ ps, p < Record.flag) : ∀ e ∈ closeRun ps, e < UInt32.size := by
  fun_induction closeRun ps with
  | case1 => simp
  | case2 p =>
    intro e he
    obtain rfl := List.mem_singleton.mp he
    have := Nat.mod_lt p (by decide : 0 < Record.flag)
    simp only [Record.setFlag, Record.flag, UInt32.size] at *
    omega
  | case3 p q rest ih =>
    intro e he
    rcases List.mem_cons.mp he with rfl | he
    · exact Nat.lt_trans (h e List.mem_cons_self) (by decide)
    · exact ih (fun x hx => h x (List.mem_cons_of_mem p hx)) e he

theorem Writes.length_run (h : Writes start ps w) :
    w.run.length = if ps.length < 3 then 0 else ps.length - 1 := by
  cases h with
  | root => rfl
  | single p => rfl
  | pair p q => rfl
  | octopus p others many room =>
    rw [if_neg (by simp only [List.length_cons]; omega), length_closeRun, List.length_cons]
    rfl

theorem lt_flag_of_mem {p : Nat} {others : List Nat} (hps : ∀ q ∈ p :: others, q < Record.noParent) :
    ∀ q ∈ others, q < Record.flag := by
  intro q hq
  exact Nat.lt_trans (hps q (List.mem_cons_of_mem p hq)) (by decide)

theorem Writes.run_lt (h : Writes start ps w) (hps : ∀ p ∈ ps, p < Record.noParent) :
    ∀ e ∈ w.run, e < UInt32.size := by
  cases h with
  | root => simp
  | single p => simp
  | pair p q => simp
  | octopus p others many room => exact closeRun_lt (lt_flag_of_mem hps)

theorem Writes.slots_lt (h : Writes start ps w) (hps : ∀ p ∈ ps, p < Record.noParent) :
    w.first < UInt32.size ∧ w.second < UInt32.size := by
  have hlt {p : Nat} (hp : p ∈ ps) : p < UInt32.size := Nat.lt_trans (hps p hp) (by decide)
  cases h with
  | root => decide
  | single p => exact ⟨hlt (by simp), (by decide : Record.noParent < UInt32.size)⟩
  | pair p q => exact ⟨hlt (by simp), hlt (by simp)⟩
  | octopus p others many room =>
    refine ⟨hlt List.mem_cons_self, ?_⟩
    simp only [Record.flag, UInt32.size] at *
    omega

theorem Writes.slotCount_eq {r : Record} (h : Writes start ps w)
    (hps : ∀ p ∈ ps, p < Record.noParent) (hfirst : r.first = w.first)
    (hsecond : r.second = w.second) : r.slotCount = min ps.length 2 := by
  have hne {p : Nat} (hp : p ∈ ps) : p ≠ Record.noParent := Nat.ne_of_lt (hps p hp)
  rw [Record.slotCount, hfirst, hsecond]
  cases h with
  | root => rfl
  | single p => simp [hne]
  | pair p q => simp [hne]
  | octopus p others many room =>
    have hflag : Record.flag + start ≠ Record.noParent := by
      simp only [Record.flag, Record.noParent]
      omega
    rw [if_neg (hne List.mem_cons_self), if_neg hflag, List.length_cons]
    omega

theorem Writes.edgeStart?_eq {r : Record} (h : Writes start ps w)
    (hps : ∀ p ∈ ps, p < Record.noParent) (hsecond : r.second = w.second) :
    r.edgeStart? = if ps.length < 3 then none else some start := by
  have hopen {p : Nat} (hp : p ≤ Record.noParent) : Record.isFlagged p = false := by
    apply decide_eq_false
    simp only [Record.flag, Record.noParent] at *
    omega
  rw [Record.edgeStart?, hsecond]
  cases h with
  | root => rfl
  | single p => rfl
  | pair p q => simp [hopen (Nat.le_of_lt (hps q (by simp)))]
  | octopus p others many room =>
    have hflag : Record.isFlagged (Record.flag + start) := by simp [Record.isFlagged]
    rw [if_pos hflag, if_neg (by simp only [List.length_cons]; omega), Record.unflag,
      Nat.add_mod_left, Nat.mod_eq_of_lt room]

end Placement

namespace Tables

variable {t : Tables} {before after : List Nat}

section Run

variable {others : List Nat} (hothers : ∀ p ∈ others, p < Record.flag)
variable (hedges : t.edges.toList = before ++ Placement.closeRun others ++ after)
include hothers hedges

theorem runLength_closeRun (hne : others ≠ []) :
    t.runLength before.length = .ok others.length := by
  have hpos := List.length_pos_iff.mpr hne
  have hsize : before.length + others.length ≤ t.edges.size := by
    rw [← Array.length_toList, hedges]
    simp only [List.length_append, Placement.length_closeRun]
    omega
  have hdrop : t.edges.toList.drop before.length = Placement.closeRun others ++ after := by
    rw [hedges, List.append_assoc, List.drop_left]
  rw [runLength, if_neg (by omega), hdrop, Placement.findIdx?_closeRun hne hothers]
  exact congrArg Except.ok (Nat.sub_add_cancel hpos)

theorem getElem?_closeRun {k p : Nat} (hk : others[k]? = some p) :
    ∃ e, t.edges[before.length + k]? = some e ∧ Record.unflag e = p := by
  have hrun : ((Placement.closeRun others).map Record.unflag)[k]? = some p := by
    rwa [Placement.map_unflag_closeRun hothers]
  rw [List.getElem?_map] at hrun
  obtain ⟨e, he, hunflag⟩ := Option.map_eq_some_iff.mp hrun
  refine ⟨e, ?_, hunflag⟩
  obtain ⟨hlt, _⟩ := List.getElem?_eq_some_iff.mp he
  rw [← Array.getElem?_toList, hedges, List.append_assoc,
    List.getElem?_append_right (Nat.le_add_right _ _), Nat.add_sub_cancel_left,
    List.getElem?_append_left hlt, he]

end Run

section Record

variable {r : Record} {w : Placement} {ps : List Nat}
variable (h : Placement.Writes before.length ps w) (hps : ∀ p ∈ ps, p < Record.noParent)
variable (hfirst : r.first = w.first) (hsecond : r.second = w.second)
variable (hedges : t.edges.toList = before ++ w.run ++ after)
include h hps hfirst hsecond hedges

theorem parentCount_of_writes : t.parentCount r = .ok ps.length := by
  have hslots := h.slotCount_eq hps hfirst hsecond
  have hstart := h.edgeStart?_eq hps hsecond
  rw [parentCount, hstart, hslots]
  cases h with
  | root => rfl
  | single p => rfl
  | pair p q => rfl
  | octopus p others many room =>
    have hothers := Placement.lt_flag_of_mem hps
    have hrun := runLength_closeRun hothers hedges (List.ne_nil_of_length_pos (by omega))
    rw [if_neg (by simp only [List.length_cons]; omega)]
    refine map_eq_ok.mpr ⟨_, hrun, ?_⟩
    simp only [List.length_cons]
    omega

/-- The parents are read back in the order in which they were written. -/
theorem parentPosition_of_writes (sound : t.Sound) {position : Nat} {id : ObjectId} {k p : Nat}
    (hk : ps[k]? = some p) :
    t.parentPosition (.ofRecord position id r ps.length) k = .ok p := by
  obtain ⟨hlt, _⟩ := List.getElem?_eq_some_iff.mp hk
  have hstart := h.edgeStart?_eq hps hsecond
  match k with
  | 0 =>
    rw [parentPosition_zero hlt]
    change Except.ok r.first = _
    rw [hfirst]
    cases h <;> simp_all
  | k + 1 =>
    cases h with
    | root => cases hk
    | single q => cases hk
    | pair q p' =>
      match k with
      | 0 =>
        apply (parentPosition_one hlt hstart).trans
        change Except.ok r.second = _
        rw [hsecond]
        exact congrArg Except.ok (Option.some.inj hk)
      | k + 1 => cases hk
    | octopus q others many room =>
      have hothers := Placement.lt_flag_of_mem hps
      obtain ⟨e, he, rfl⟩ := getElem?_closeRun hothers hedges hk
      obtain ⟨hsize, rfl⟩ := Array.getElem?_eq_some_iff.mp he
      rw [if_neg (by simp only [List.length_cons]; omega)] at hstart
      exact parentPosition_succ sound hlt hstart hsize

end Record

end Tables

end Ancestry
