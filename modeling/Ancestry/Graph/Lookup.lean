import Ancestry.Graph.Tables

/-!
# Finding commits by id

An abbreviated id is looked up in four steps. Its digits with zeros behind them make the least id
that begins with them. The fan-out gives the part of the table that can hold such ids. Bisection
finds where the least id stands or would stand, which is where the first match must be. A second
match could only follow right after it.
-/

namespace Ancestry

inductive Match
  | only (position : Nat)
  | none
  | several
deriving DecidableEq

namespace Tables

/-- The part of the table that the fan-out allows to ids that share `digits` digits with one whose
first byte is `first`: all of it, sixteen buckets, or one bucket. -/
def candidates (t : Tables) (first : Fin 256) (digits : Nat) : Nat × Nat :=
  match digits with
  | 0 => (t.countBefore 0, t.countThrough 255)
  | 1 =>
    (t.countBefore ⟨first.val / 16 * 16, by omega⟩,
      t.countThrough ⟨first.val / 16 * 16 + 15, by omega⟩)
  | _ => (t.countBefore first, t.countThrough first)

def matchesAt (t : Tables) (key : ObjectId) (digits position : Nat) : Bool :=
  t.ids[position]?.any (·.sharesDigits key digits)

/-- Looks up the first `digits` digits of `target`; at forty or more it is the whole id. -/
def lookup (t : Tables) (target : ObjectId) (digits : Nat) : Match :=
  let digits := min digits ObjectId.digitCount
  let key := target.truncate digits
  let (lo, hi) := t.candidates key.firstByte digits
  let settle (position : Nat) : Match :=
    if digits < ObjectId.digitCount ∧ t.matchesAt key digits (position + 1) then .several
    else .only position
  match t.ids.search lo hi key with
  | .hit position => settle position
  | .gap position => if t.matchesAt key digits position then settle position else .none

def contains (t : Tables) (id : ObjectId) : Bool :=
  match t.lookup id ObjectId.digitCount with
  | .only _ => true
  | _ => false

def find (t : Tables) (target : ObjectId) (digits : Nat) : Except GraphError Commit :=
  match t.lookup target digits with
  | .only position => t.commitAt position
  | .none => .error (.noMatch (target.abbreviate digits))
  | .several => .error (.ambiguous (target.abbreviate digits))

def findHex (t : Tables) (text : String) : Except GraphError Commit :=
  match Abbreviation.ofText text with
  | .error cause => .error (.badId cause)
  | .ok a => t.find a.id a.length

end Tables

end Ancestry
