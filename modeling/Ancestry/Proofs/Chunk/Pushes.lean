import Ancestry.Proofs.Chunk.Draft

/-!
# Pushing chunk after chunk

A draft is filled in place and may go on being filled after a push was refused. It keeps the first
chunk of each kind that carries the graph. A later one is refused and leaves no trace. Bloom chunks
are passed over, each time they come, and nothing reads them, so what becomes of a draft depends on
the first chunks alone.
-/

namespace Ancestry

namespace Draft

/-- Writes a chunk to the slot of its kind, whatever was there. Bloom chunks have no slot but are
kept in a list. -/
def fill (d : Draft) (c : Chunk) : Draft :=
  match c.kind with
  | .fanout => { d with fanout := some c }
  | .ids => { d with ids := some c }
  | .commits => { d with commits := some c }
  | .edges => { d with edges := some c }
  | .bloom _ => { d with skipped := d.skipped ++ [c] }

/-- Takes in a chunk where the draft stands. What was written before a failure would stay. -/
def pushInPlace (c : Chunk) : ExceptT GraphError (StateM Draft) Unit := do
  if ((← get).slot c.kind).isSome then throw (.duplicateChunk c.kind.tag)
  modify (·.fill c)

def pushed (d : Draft) (c : Chunk) : Except GraphError Unit × Draft :=
  (pushInPlace c).run.run d

/-- The draft after a push for each chunk, whether or not those before were taken in. -/
def pushAll (d : Draft) (chunks : List Chunk) : Draft :=
  chunks.foldl (fun d c => (d.pushed c).2) d

def firsts (chunks : List Chunk) : List Chunk :=
  [Kind.fanout, .ids, .commits, .edges].filterMap fun k => chunks.find? (·.kind = k)

variable {d : Draft} {c : Chunk} {k : Kind} {chunks others : List Chunk} {e : GraphError}

section Push

theorem pushed_eq (d : Draft) (c : Chunk) : d.pushed c =
    if (d.slot c.kind).isSome then (.error (.duplicateChunk c.kind.tag), d)
    else (.ok (), d.fill c) := by
  change (if (d.slot c.kind).isSome then _ else _ : ExceptT GraphError (StateM Draft) Unit).run.run d
    = _
  split <;> rfl

theorem push_eq (d : Draft) (c : Chunk) : d.push c =
    if (d.slot c.kind).isSome then .error (.duplicateChunk c.kind.tag) else .ok (d.fill c) := by
  obtain ⟨kind, offset, length⟩ := c
  cases kind <;> rfl

theorem push_eq_error_iff :
    d.push c = .error e ↔ (d.slot c.kind).isSome ∧ e = .duplicateChunk c.kind.tag := by
  rw [push_eq]
  split
  · next htaken => simp [htaken, eq_comm]
  · next hfree => simp [hfree]

/-- A push that fails has written nothing. -/
theorem pushed_of_push_eq_error (h : d.push c = .error e) : d.pushed c = (.error e, d) := by
  obtain ⟨htaken, rfl⟩ := push_eq_error_iff.mp h
  rw [pushed_eq, if_pos htaken]

theorem pushed_of_push_eq_ok {next : Draft} (h : d.push c = .ok next) :
    d.pushed c = (.ok (), next) := by
  rw [push_eq] at h
  rw [pushed_eq]
  split at h
  · cases h
  · next hfree =>
    obtain rfl := Except.ok.inj h
    rw [if_neg hfree]

end Push

section Slots

variable (hk : k.IsCore)
include hk

theorem slot_fill (d : Draft) (c : Chunk) :
    (d.fill c).slot k = if c.kind = k then some c else d.slot k := by
  obtain ⟨kind, offset, length⟩ := c
  cases k with
  | bloom t => exact False.elim hk
  | _ => cases kind <;> rfl

theorem slot_pushed (d : Draft) (c : Chunk) :
    (d.pushed c).2.slot k = (d.slot k).or (if c.kind = k then some c else none) := by
  rw [pushed_eq]
  split
  · next htaken =>
    split
    · next heq =>
      subst heq
      obtain ⟨x, hx⟩ := Option.isSome_iff_exists.mp htaken
      rw [hx, Option.some_or]
    · rw [Option.or_none]
  · next hfree =>
    rw [slot_fill hk]
    split
    · next heq =>
      subst heq
      rw [Option.not_isSome_iff_eq_none.mp hfree, Option.none_or]
    · rw [Option.or_none]

/-- Whatever was pushed, a slot that was empty holds the first chunk of its kind. -/
theorem slot_pushAll (d : Draft) (chunks : List Chunk) :
    (d.pushAll chunks).slot k = (d.slot k).or (chunks.find? (·.kind = k)) := by
  induction chunks generalizing d with
  | nil => rw [List.find?_nil, Option.or_none]; rfl
  | cons c chunks ih =>
    change ((d.pushed c).2.pushAll chunks).slot k = _
    rw [ih, slot_pushed hk, Option.or_assoc, List.find?_cons]
    by_cases heq : c.kind = k <;> simp [heq]

theorem slot_pushAll_empty (chunks : List Chunk) :
    (empty.pushAll chunks).slot k = chunks.find? (·.kind = k) := by
  have hempty : empty.slot k = none := by cases k <;> rfl
  rw [slot_pushAll hk, hempty, Option.none_or]

theorem filter_firsts (chunks : List Chunk) :
    (firsts chunks).filter (·.kind = k) = (chunks.find? (·.kind = k)).toList := by
  have hkeep (j : Kind) : (chunks.find? (·.kind = j)).filter (·.kind = k) =
      if j = k then chunks.find? (·.kind = k) else none := by
    cases hfind : chunks.find? (·.kind = j) with
    | none =>
      split
      · next heq => rw [← heq, hfind]; rfl
      · rfl
    | some c =>
      have hkind : c.kind = j := by simpa using List.find?_some hfind
      split
      · next heq => simp [Option.filter, hkind, heq, ← hfind]
      · next hne => simp [Option.filter, hkind, hne]
  rw [firsts, List.filter_filterMap]
  simp only [hkeep]
  cases k with
  | bloom t => exact False.elim hk
  | _ => cases chunks.find? _ <;> rfl

/-- What has the same first chunks and repeats none of them holds one chunk of a kind or none. -/
theorem filter_eq_of_perm_firsts (h : (others.filter (·.kind.IsCore)).Perm (firsts chunks)) :
    others.filter (·.kind = k) = (chunks.find? (·.kind = k)).toList := by
  have hcore : (others.filter (·.kind.IsCore)).filter (·.kind = k) = others.filter (·.kind = k) := by
    rw [List.filter_filter]
    apply List.filter_congr
    intro c _
    by_cases heq : c.kind = k <;> simp [heq, hk]
  have hperm := h.filter (·.kind = k)
  rw [hcore, filter_firsts hk] at hperm
  cases hfind : chunks.find? (·.kind = k) with
  | none =>
    rw [hfind] at hperm
    exact hperm.eq_nil
  | some c =>
    rw [hfind] at hperm
    exact hperm.eq_singleton

end Slots

theorem skipped_pushed (d : Draft) (c : Chunk) :
    (d.pushed c).2.skipped = d.skipped ++ [c].filter (¬ ·.kind.IsCore) := by
  rw [pushed_eq]
  obtain ⟨kind, offset, length⟩ := c
  cases kind with
  | bloom t => rfl
  | _ => split <;> exact (List.append_nil _).symm

theorem skipped_pushAll (d : Draft) (chunks : List Chunk) :
    (d.pushAll chunks).skipped = d.skipped ++ chunks.filter (¬ ·.kind.IsCore) := by
  induction chunks generalizing d with
  | nil => exact (List.append_nil _).symm
  | cons c chunks ih =>
    change ((d.pushed c).2.pushAll chunks).skipped = _
    rw [ih, skipped_pushed, List.append_assoc, ← List.filter_append]
    rfl

theorem ofChunks_of_perm_firsts (h : (others.filter (·.kind.IsCore)).Perm (firsts chunks)) :
    ofChunks others =
      .ok { empty.pushAll chunks with skipped := others.filter (¬ ·.kind.IsCore) } := by
  apply ofChunks_eq_ok_iff.mpr
  refine ⟨fun k hk => ?_, rfl⟩
  have hslot (d : Draft) (skipped : List Chunk) : { d with skipped := skipped }.slot k = d.slot k := by
    cases k <;> rfl
  rw [hslot, slot_pushAll_empty hk, filter_eq_of_perm_firsts hk h]

theorem isSome_slot_pushAll_iff :
    ((empty.pushAll chunks).slot k).isSome ↔ k.IsCore ∧ ∃ b ∈ chunks, b.kind = k := by
  by_cases hk : k.IsCore
  · rw [slot_pushAll_empty hk, List.find?_isSome]
    simp [hk]
  · cases k with
    | bloom t => simp [slot, Kind.IsCore]
    | _ => exact absurd trivial hk

/-- Whatever was pushed before, a push fails exactly if a chunk of the same kind was, where the kind
carries the graph, and leaves the draft as it was. The Bloom chunks are listed as they came. The draft
is finished like one that was given just the first chunk of each kind, among other Bloom chunks. -/
theorem pushAll_keeps_firsts (chunks : List Chunk) :
    let d := empty.pushAll chunks
    (∀ c e, d.push c = .error e ↔
      (c.kind.IsCore ∧ ∃ b ∈ chunks, b.kind = c.kind) ∧ e = .duplicateChunk c.kind.tag) ∧
    (∀ c e, d.push c = .error e → d.pushed c = (.error e, d)) ∧
    (∀ c next, d.push c = .ok next → d.pushed c = (.ok (), next)) ∧
    d.skipped = chunks.filter (¬ ·.kind.IsCore) ∧
    ∀ others, (others.filter (·.kind.IsCore)).Perm (firsts chunks) →
      ∃ kept, ofChunks others = .ok kept ∧ kept.skipped = others.filter (¬ ·.kind.IsCore) ∧
        ∀ file, d.finish file = kept.finish file := by
  intro d
  refine ⟨fun c e => ?_, fun c e => pushed_of_push_eq_error, fun c next => pushed_of_push_eq_ok,
    skipped_pushAll empty chunks, ?_⟩
  · rw [push_eq_error_iff, isSome_slot_pushAll_iff]
  · intro others h
    exact ⟨_, ofChunks_of_perm_firsts h, rfl, fun _ => rfl⟩

def repeated : List Chunk :=
  [⟨.ids, 100, 40⟩, ⟨.bloom .bloomData, 0, 0⟩, ⟨.ids, 300, 60⟩, ⟨.fanout, 0, 4⟩, ⟨.edges, 7, 0⟩,
    ⟨.bloom .bloomData, 9, 9⟩, ⟨.fanout, 0, 1024⟩]

/-- The fan-out that came first is found too short, be it followed by another or not. -/
theorem finish_repeated :
    (empty.pushAll repeated).pushed ⟨.edges, 8, 4⟩ =
      (.error (.duplicateChunk .edges), empty.pushAll repeated) ∧
    (empty.pushAll repeated).pushed ⟨.commits, 8, 4⟩ =
      (.ok (), { empty.pushAll repeated with commits := some ⟨.commits, 8, 4⟩ }) ∧
    (empty.pushAll repeated).skipped = [⟨.bloom .bloomData, 0, 0⟩, ⟨.bloom .bloomData, 9, 9⟩] ∧
    ∃ kept, ofChunks [⟨.edges, 7, 0⟩, ⟨.bloom .bloomIndex, 1, 1⟩, ⟨.fanout, 0, 4⟩, ⟨.ids, 100, 40⟩] =
        .ok kept ∧
      kept.skipped = [⟨.bloom .bloomIndex, 1, 1⟩] ∧
      kept.finish [] = .error (.chunkLength .fanout 1024 4) ∧
      (empty.pushAll repeated).finish [] = kept.finish [] := by
  obtain ⟨hfails, hstays, htakes, hskipped, hkeeps⟩ := pushAll_keeps_firsts repeated
  have hedges := (hfails ⟨.edges, 8, 4⟩ _).mpr ⟨⟨trivial, ⟨.edges, 7, 0⟩, by decide, rfl⟩, rfl⟩
  obtain ⟨kept, hkept, hlisted, hfinish⟩ := hkeeps
    [⟨.edges, 7, 0⟩, ⟨.bloom .bloomIndex, 1, 1⟩, ⟨.fanout, 0, 4⟩, ⟨.ids, 100, 40⟩] (by decide)
  refine ⟨hstays _ _ hedges, htakes _ _ rfl, hskipped, kept, hkept, hlisted, ?_, hfinish []⟩
  obtain rfl := Except.ok.inj hkept
  rfl

end Draft

end Ancestry
