import Ancestry.ObjectId

/-!
# Tables of object ids

A table is the ids of a packed run of bytes, twenty bytes each; a last piece shorter than that
counts for nothing. `search` bisects a part of it. The table need not be sorted: what the search
answers is then still an id it has seen, or a place between two it has compared.
-/

namespace Ancestry.ObjectId

abbrev Table := Array ObjectId

/-- Where a search ended: on the key, or in the gap before `position` where the key would stand. -/
inductive Found
  | hit (position : Nat)
  | gap (position : Nat)
deriving DecidableEq

namespace Table

def ofBytes (bs : Bytes) : Table :=
  ((Bytes.blocks byteCount (bs.length / byteCount) bs).map ObjectId.ofBytes).toArray

/-- Halves the part of the table from `lo` up to `hi` until the key is met or nothing is left. -/
def bisect (table : Table) (key : ObjectId) (lo hi : Nat) (h : hi ≤ table.size) : Found :=
  if lt : lo < hi then
    let mid := lo + (hi - lo) / 2
    have : mid < hi := by omega
    let id := table[mid]
    if id < key then bisect table key (mid + 1) hi h
    else if key < id then bisect table key lo mid (by omega)
    else .hit mid
  else .gap lo
termination_by hi - lo

/-- Searches the positions from `lo` up to `hi`, cut to what the table has. -/
def search (table : Table) (lo hi : Nat) (key : ObjectId) : Found :=
  bisect table key (min lo (min hi table.size)) (min hi table.size) (Nat.min_le_right _ _)

end Table

end Ancestry.ObjectId
