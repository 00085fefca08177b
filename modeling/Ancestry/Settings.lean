import Ancestry.Json

/-!
# Settings

Where the file is, whether it is mapped into memory, and how large it may be. Settings are written
as a JSON object. They are read from an object with some of the members, or from an array of the
first few values; what is left out has its default, and other members are passed over.
-/

namespace Ancestry

structure Settings where
  path : String
  mapped : Bool
  limit : Nat
deriving DecidableEq

namespace Settings

def place : String := "info/commit-graph"

def join (directory : String) : String :=
  if directory.isEmpty || directory.endsWith "/" then directory ++ place
  else directory ++ "/" ++ place

def default : Settings :=
  ⟨join "objects", true, 4 * 1024 * 1024 * 1024⟩

def ofPath (path : String) : Settings :=
  { default with path }

def ofObjectsDirectory (directory : String) : Settings :=
  ofPath (join directory)

def pathName : String := "path"

def mappedName : String := "use_mmap"

def limitName : String := "max_file_size"

def toJson (s : Settings) : String :=
  String.ofList <| Json.writeObject
    [(pathName, Json.Text.write s.path),
      (mappedName, Json.writeBool s.mapped),
      (limitName, Json.writeNat s.limit)]

/-- The settings that a document gives. -/
structure Given where
  path : Option String
  mapped : Option Bool
  limit : Option Nat
deriving DecidableEq

namespace Given

def empty : Given := ⟨none, none, none⟩

def complete (p : Given) : Settings :=
  ⟨p.path.getD default.path, p.mapped.getD default.mapped, p.limit.getD default.limit⟩

def readPath : Json → Option String
  | .text t => t.toString?
  | _ => none

def readMapped : Json → Option Bool
  | .bool b => some b
  | _ => none

def readLimit : Json → Option Nat
  | .number (some n) => if n < UInt64.size then some n else none
  | _ => none

/-- Takes in a member. None of the settings may be given twice. -/
def addMember (p : Given) (member : Json.Text × Json) : Option Given := do
  let name ← member.1.toString?
  if name = pathName then
    if p.path.isSome then none else some { p with path := some (← readPath member.2) }
  else if name = mappedName then
    if p.mapped.isSome then none else some { p with mapped := some (← readMapped member.2) }
  else if name = limitName then
    if p.limit.isSome then none else some { p with limit := some (← readLimit member.2) }
  else some p

def ofItems : List Json → Option Given
  | [] => some empty
  | [a] => return ⟨some (← readPath a), none, none⟩
  | [a, b] => return ⟨some (← readPath a), some (← readMapped b), none⟩
  | [a, b, c] => return ⟨some (← readPath a), some (← readMapped b), some (← readLimit c)⟩
  | _ => none

def ofJson : Json → Option Given
  | .object members => members.foldlM addMember empty
  | .array items => ofItems items
  | _ => none

end Given

/-- Reads settings, or nothing if the text is no JSON or a setting in it is of the wrong kind. -/
def ofText (text : String) : Option Settings := do
  let document ← Json.parse text
  let given ← Given.ofJson document
  some given.complete

end Settings

end Ancestry
