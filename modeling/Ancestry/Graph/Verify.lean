import Ancestry.Graph.Lookup
import Ancestry.Graph.Parents

/-!
# Checking a graph as a whole

Parsing checks each chunk on its own. `verify` checks them against each other: every record can be
decoded, every id stands in the bucket of its first byte, every parent is a commit of the graph, and
generations rise from parent to child where both are known.
-/

namespace Ancestry.Tables

/-- Generations rise. Zero stands for unknown, and the greatest number for all that lie above. -/
def InGenerationOrder (generation parentGeneration : Nat) : Prop :=
  generation = 0 ∨ parentGeneration = 0 ∨ Record.maxGeneration ≤ generation ∨
    parentGeneration < generation

instance (g p : Nat) : Decidable (InGenerationOrder g p) :=
  inferInstanceAs (Decidable (_ ∨ _))

def checkParent (t : Tables) (c : Commit) (n : Nat) : Except GraphError Unit := do
  let position ← t.parentPosition c n
  if t.size ≤ position then .error (.badParent c.position position)
  else
    let parent ← t.commitAt position
    if InGenerationOrder c.generation parent.generation then .ok ()
    else .error (.generationOrder c.position c.generation position parent.generation)

def checkCommit (t : Tables) (position : Nat) : Except GraphError Unit := do
  let c ← t.commitAt position
  let bucket := c.id.firstByte
  if t.countBefore bucket ≤ position ∧ position < t.countThrough bucket then
    (List.range c.parentCount).forM (t.checkParent c)
  else .error (.outsideBucket position bucket.val)

/-- Stops at the first fault, commit by commit and parent by parent. -/
def verify (t : Tables) : Except GraphError Unit :=
  (List.range t.size).forM t.checkCommit

end Ancestry.Tables
