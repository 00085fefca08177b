import Ancestry.Bytes
import Ancestry.Disk.Path

/-!
# Disks

A tree of directories and files, as far as opening, reading and replacing files goes. A node is
kept under the names that lead to it from the top.

Faults come in the order in which a system finds them: a bad path first, then from the left the
first name that is missing or is no directory. A file is replaced in two steps, and a directory is
made after those above it, so an operation of several steps may leave something behind when it
fails; such an operation answers with a disk in either case.
-/

namespace Ancestry

inductive Node
  | file (contents : Bytes)
  | directory
deriving DecidableEq

structure Disk where
  nodes : List (Location × Node)
deriving DecidableEq

namespace Disk

def empty : Disk := ⟨[(.home, .directory)]⟩

def find? (disk : Disk) (location : Location) : Option Node :=
  if location = [] then some .directory else disk.nodes.lookup location

def remove (disk : Disk) (location : Location) : Disk :=
  ⟨disk.nodes.filter fun (other, _) => !location.isPrefixOf other⟩

def put (disk : Disk) (location : Location) (node : Node) : Disk :=
  ⟨(location, node) :: (disk.nodes.filter fun (other, _) => other ≠ location)⟩

def maxName : Nat := 255

/-- Follows names from a location. Whatever has a name behind it must be a directory. -/
def follow (disk : Disk) (here : Location) : List String → Except DiskError Location
  | [] => .ok here
  | name :: rest =>
    if disk.find? here ≠ some .directory then .error .notDirectory
    else if name = "." then follow disk here rest
    else if name = ".." then follow disk here.dropLast rest
    else if maxName < name.utf8ByteSize then .error .nameTooLong
    else if disk.find? (here ++ [name]) = none then .error .notFound
    else follow disk (here ++ [name]) rest

def locate (disk : Disk) (p : Path) : Except DiskError Location := do
  let location ← disk.follow p.start p.names
  if p.closed && disk.find? location ≠ some .directory then .error .notDirectory
  else .ok location

/-- What a path leads to. A directory can be opened like a file. -/
def node (disk : Disk) (path : String) : Except DiskError Node := do
  let location ← disk.locate (← Path.parse path)
  match disk.find? location with
  | some node => .ok node
  | none => .error .notFound

def place (directory : Location) (name : String) : Except DiskError Location :=
  if maxName < name.utf8ByteSize then .error .nameTooLong else .ok (directory ++ [name])

/-- Moves a node and all below it. -/
def move (disk : Disk) (source target : Location) : Disk :=
  let moved := disk.nodes.filterMap fun (other, node) =>
    if source.isPrefixOf other then some (target ++ other.drop source.length, node) else none
  ⟨moved ++ ((disk.remove source).remove target).nodes⟩

def isBare (disk : Disk) (location : Location) : Bool :=
  disk.nodes.all fun (other, _) => !location.isPrefixOf other || other = location

/-- Moves what is at `old` to `new`. A file may take the place of a file, and a directory that of an
empty directory, unless one of the two lies within the other. -/
def supplant (disk : Disk) (old new : Location) : Except DiskError Disk :=
  if old = new then .ok disk
  else if old.isPrefixOf new then .error .invalid
  else if new.isPrefixOf old then .error .notEmpty
  else
    match disk.find? old, disk.find? new with
    | some .directory, some (.file _) => .error .notDirectory
    | some (.file _), some .directory => .error .isDirectory
    | some .directory, some .directory =>
      if disk.isBare new then .ok (disk.move old new) else .error .notEmpty
    | _, _ => .ok (disk.move old new)

/-- Both paths must end in a name. A slash behind either of them is for directories only. -/
def renameAt (disk : Disk) (source target : Path) : Except DiskError Disk := do
  let sourceAbove ← disk.locate source.above
  let targetAbove ← disk.locate target.above
  match source.name?, target.name? with
  | some sourceName, some targetName =>
    let old ← place sourceAbove sourceName
    if disk.find? old = none then .error .notFound
    else
      let new ← place targetAbove targetName
      if (source.closed || target.closed) && disk.find? old ≠ some .directory then
        .error .notDirectory
      else disk.supplant old new
  | _, _ => .error .busy

def rename (disk : Disk) (source target : String) : Except DiskError Disk := do
  disk.renameAt (← Path.parse source) (← Path.parse target)

def writeAt (disk : Disk) (p : Path) (contents : Bytes) : Except DiskError Disk := do
  let above ← disk.locate p.above
  match p.name? with
  | none => .error .isDirectory
  | some name =>
    let location ← place above name
    if p.closed || disk.find? location = some .directory then .error .isDirectory
    else .ok (disk.put location (.file contents))

def stagingName : String := ".staging"

/-- Puts a file in the place of whatever file is there. It is written beside that first, so nobody
finds half of it. -/
def replace (disk : Disk) (path : String) (contents : Bytes) : Disk × Except DiskError Unit :=
  match Path.parse path with
  | .error e => (disk, .error e)
  | .ok p =>
    let aside := p.sibling stagingName
    match disk.writeAt aside contents with
    | .error e => (disk, .error e)
    | .ok staged =>
      match staged.renameAt aside p with
      | .error e => (staged, .error e)
      | .ok done => (done, .ok ())

def makeDirectory (disk : Disk) (p : Path) : Except DiskError Disk := do
  let above ← disk.locate p.above
  match p.name? with
  | none => .error .exists
  | some name =>
    let location ← place above name
    if disk.find? location ≠ none then .error .exists else .ok (disk.put location .directory)

def isDirectory (disk : Disk) (p : Path) : Bool :=
  match disk.locate p with
  | .ok location => disk.find? location = some .directory
  | .error _ => false

/-- Makes a directory, and before it the one above if that is missing. -/
def makeDirectoriesAt (disk : Disk) (p : Path) : Disk × Except DiskError Unit :=
  if h : p.names = [] then (disk, .ok ())
  else
    match disk.makeDirectory p with
    | .ok made => (made, .ok ())
    | .error .notFound =>
      have : p.names.length ≠ 0 := by simpa using h
      match makeDirectoriesAt disk p.above with
      | (above, .error e) => (above, .error e)
      | (above, .ok ()) =>
        match above.makeDirectory p with
        | .ok made => (made, .ok ())
        | .error e => (above, if above.isDirectory p then .ok () else .error e)
    | .error e => (disk, if disk.isDirectory p then .ok () else .error e)
termination_by p.names.length
decreasing_by
  rw [Path.above, List.length_dropLast]
  omega

def makeDirectories (disk : Disk) (path : String) : Disk × Except DiskError Unit :=
  if path.isEmpty then (disk, .ok ())
  else
    match Path.parse path with
    | .error e => (disk, .error e)
    | .ok p => disk.makeDirectoriesAt p

/-- Removes a file, or a directory with all that is in it. The path must end in a name. -/
def removeAll (disk : Disk) (path : String) : Except DiskError Disk := do
  let p ← Path.parse path
  let location ← disk.locate p
  if p.name?.isNone then .error .invalid else .ok (disk.remove location)

end Disk

end Ancestry
