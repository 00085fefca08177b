import Ancestry.Disk
import Ancestry.GraphError

/-!
# What can go wrong with a file on disk
-/

namespace Ancestry

inductive StoreError
  | disk (cause : DiskError)
  | graph (cause : GraphError)
  | notRegular (path : String)
  | tooLarge (path : String) (size limit : Nat)
  | badSettings
deriving DecidableEq

namespace StoreError

def isMissing (e : StoreError) : Bool :=
  e = .disk .notFound

def isCorrupt : StoreError → Bool
  | .graph cause => cause.isFatal
  | _ => false

def message : StoreError → String
  | .disk cause => s!"I/O error: {cause.message}"
  | .graph cause => s!"Commit-graph error: {cause.message}"
  | .notRegular path => s!"Not a regular file: {path}"
  | .tooLarge path size limit => s!"Commit-graph {path} is {size} bytes, limit is {limit}"
  | .badSettings => "Configuration error"

end StoreError

end Ancestry
