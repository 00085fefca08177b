import Ancestry.ObjectId.Table
import Ancestry.Record
import Ancestry.GraphError

/-!
# Histories

A history is what a file is written from: revisions in any order, each with the ids of its parents,
and further chunks to be carried along. A revision is stored at the place of its id in ascending
order, and its parents are stored by their places.
-/

namespace Ancestry

structure Revision where
  id : ObjectId
  tree : ObjectId
  parents : List ObjectId
  generation : Nat
  time : Nat
deriving DecidableEq

namespace Revision

/-- The revisions in ascending order of their ids; equal ids keep their order. -/
def sort (revisions : List Revision) : List Revision :=
  revisions.mergeSort fun a b => a.id ≤ b.id

def firstRepeat : List ObjectId → Option ObjectId
  | a :: b :: rest => if a = b then some a else firstRepeat (b :: rest)
  | _ => none

def positionOf (ids : ObjectId.Table) (id : ObjectId) : Option Nat :=
  match ids.search 0 ids.size id with
  | .hit position => some position
  | .gap _ => none

def parentPositions (ids : ObjectId.Table) (r : Revision) : Except GraphError (List Nat) :=
  r.parents.mapM fun parent =>
    match positionOf ids parent with
    | some position => .ok position
    | none => .error (.unknownParent r.id parent)

end Revision

/-- What a revision with given parents puts into its record and adds to the extra edges. -/
structure Placement where
  first : Nat
  second : Nat
  run : List Nat
deriving DecidableEq

namespace Placement

/-- A run of extra edges, closed by the flag on its last word. -/
def closeRun : List Nat → List Nat
  | [] => []
  | [p] => [Record.setFlag p]
  | p :: q :: rest => p :: closeRun (q :: rest)

/-- Up to two parents fit the slots. Of three or more the first stays in its slot and the others
become a run of extra edges, which begins at `start`. -/
def ofParents (start : Nat) : List Nat → Except GraphError Placement
  | [] => .ok ⟨Record.noParent, Record.noParent, []⟩
  | [p] => .ok ⟨p, Record.noParent, []⟩
  | [p, q] => .ok ⟨p, q, []⟩
  | p :: others =>
    if Record.flag ≤ start then .error (.tooMany .extraEdges)
    else .ok ⟨p, Record.flag + start, closeRun others⟩

theorem length_closeRun (ps : List Nat) : (closeRun ps).length = ps.length := by
  fun_induction closeRun ps with
  | case1 => rfl
  | case2 => rfl
  | case3 p q rest ih => simp_all

end Placement

namespace Revision

def place (ids : ObjectId.Table) (start : Nat) (r : Revision) :
    Except GraphError (Record × List Nat) :=
  if Record.maxGeneration < r.generation then .error (.generationTooLarge r.generation)
  else if Record.maxTime < r.time then .error (.timeTooLarge r.time)
  else do
    let parents ← r.parentPositions ids
    let p ← Placement.ofParents start parents
    .ok (⟨r.tree, p.first, p.second, r.generation, r.time⟩, p.run)

/-- The records of the revisions in turn, and all extra edges from `start` on. -/
def placeAll (ids : ObjectId.Table) (start : Nat) :
    List Revision → Except GraphError (List Record × List Nat)
  | [] => .ok ([], [])
  | r :: rest => do
    let (record, run) ← r.place ids start
    let (records, edges) ← placeAll ids (start + run.length) rest
    .ok (record :: records, run ++ edges)

end Revision

end Ancestry
