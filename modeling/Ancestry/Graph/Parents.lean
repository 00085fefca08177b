import Ancestry.Graph.Tables

/-!
# Parents

The first parent stands in the first slot. The second stands in the second slot, unless that points
to the extra edges, where it and all later parents stand one after the other.

The commit asked about may come from anywhere, so its figures are not trusted: positions among the
extra edges are words of 32 bits, and one that does not fit is no edge.
-/

namespace Ancestry.Tables

def parentPosition (t : Tables) (c : Commit) (n : Nat) : Except GraphError Nat :=
  if c.parentCount ≤ n then .error (.noParent n c.parentCount)
  else
    match n, c.edgeStart with
    | 0, _ => .ok c.first
    | 1, none => .ok c.second
    | _ + 2, none => .error (.noParent n c.parentCount)
    | k + 1, some start =>
      if UInt32.size ≤ k then .error (.noParent n c.parentCount)
      else if UInt32.size ≤ start + k then .error (.noEdge (UInt32.size - 1) t.edges.size)
      else (t.edgeAt (start + k)).map Record.unflag

def parentAt (t : Tables) (c : Commit) (n : Nat) : Except GraphError Commit :=
  (t.parentPosition c n).bind t.commitAt

def parents (t : Tables) (c : Commit) : List (Except GraphError Commit) :=
  (List.range c.parentCount).map (t.parentAt c)

end Ancestry.Tables
