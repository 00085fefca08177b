import Ancestry.Store.Error

/-!
# The log

Whoever opens, checks or replaces a file reports events. What a step reports comes with its result.
-/

namespace Ancestry

inductive Event
  | opened (path : String) (size : Nat) (mapped : Bool)
  | discarded (path : String) (cause : GraphError)
  | validated (path : String) (commits edges : Nat)
  | closing (path : String)
  | checked (path : String) (stale : Bool)
  | checkFailed (path : String) (cause : DiskError)
  | publishing (path : String) (commits : Nat)
  | nothingThere (path : String)
  | dropping (path : String) (cause : StoreError)
deriving DecidableEq

namespace Event

def level : Event → String
  | .checked _ _ | .checkFailed _ _ => "TRACE"
  | .opened _ _ _ | .validated _ _ _ | .closing _ | .nothingThere _ => "DEBUG"
  | .publishing _ _ => "INFO"
  | .discarded _ _ | .dropping _ _ => "WARN"

def text : Event → String
  | .opened path size mapped => s!"Opened commit-graph {path} ({size} bytes, mapped: {mapped})"
  | .discarded path cause => s!"Discarding commit-graph {path}: {cause.message}"
  | .validated path commits edges =>
    s!"Validated commit-graph {path}: {commits} commits, {edges} extra edges"
  | .closing path => s!"Closing commit-graph {path}"
  | .checked path stale => s!"Checked commit-graph {path}: stale = {stale}"
  | .checkFailed path cause => s!"Checking commit-graph {path} failed: {cause.message}"
  | .publishing path commits => s!"Publishing commit-graph {path} with {commits} commits"
  | .nothingThere path => s!"No commit-graph at {path}"
  | .dropping path cause => s!"Dropping commit-graph {path}: {cause.message}"

def line (e : Event) : String :=
  s!"{e.level} {e.text}"

end Event

/-- A result, and what was reported on the way to it. -/
structure Logged (α : Type) where
  value : α
  events : List Event

def Logged.after {α : Type} (l : Logged α) (earlier : List Event) : Logged α :=
  { l with events := earlier ++ l.events }

end Ancestry
