import Ancestry.Store.Opened

/-!
# The current file

A holder keeps the file opened last and replaces it when the disk has a newer one. Every file it
publishes gets a number of its own, so two snapshots of one holder are the same instance exactly
when they have the same number. Snapshots handed out earlier stay as they are.
-/

namespace Ancestry

/-- A published file, with its number among all that its holder published. -/
structure Snapshot where
  number : Nat
  opened : Opened

structure Current where
  settings : Settings
  snapshot : Option Snapshot
  published : Nat

namespace Current

def ofSettings (settings : Settings) : Current :=
  ⟨settings, none, 0⟩

def publish (c : Current) (opened : Opened) : Current :=
  { c with snapshot := some ⟨c.published, opened⟩, published := c.published + 1 }

/-- Holds nothing any more. The answer tells whether there was something. -/
def clear (c : Current) : Current × Bool :=
  ({ c with snapshot := none }, c.snapshot.isSome)

/-- Opens the file anew. A file that is not there leaves nothing, and so does one that cannot be
used, which is an error as well. -/
def reload (c : Current) (disk : Disk) : Logged (Current × Except StoreError Bool) :=
  let attempt := Opened.openWith disk c.settings
  match attempt.value with
  | .ok opened =>
    ⟨(c.publish opened, .ok true),
      attempt.events ++ [.publishing opened.path opened.graph.tables.size]⟩
  | .error cause =>
    if cause.isMissing then
      ⟨(c.clear.1, .ok c.clear.2), attempt.events ++ [.nothingThere c.settings.path]⟩
    else ⟨(c.clear.1, .error cause), attempt.events ++ [.dropping c.settings.path cause]⟩

/-- Opens the file anew if the one that is held has become stale. The answer tells whether something
else is held now. -/
def refresh (c : Current) (disk : Disk) : Logged (Current × Except StoreError Bool) :=
  match c.snapshot with
  | none => c.reload disk
  | some s =>
    let probe := s.opened.isStale disk c.settings.path
    if probe.value then (c.reload disk).after probe.events else ⟨(c, .ok false), probe.events⟩

end Current

end Ancestry
