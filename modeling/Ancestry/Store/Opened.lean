import Ancestry.Graph
import Ancestry.Store.Contents
import Ancestry.Store.Event

/-!
# Opened files

A file is opened as a whole: its kind and its size are looked at, then all of it is read and
checked. What was opened never changes; a newer file on disk shows by its size or its trailer.
-/

namespace Ancestry

structure Opened where
  path : String
  graph : Graph

namespace Opened

def openWith (disk : Disk) (settings : Settings) : Logged (Except StoreError Opened) :=
  let path := settings.path
  match disk.node path with
  | .error cause => ⟨.error (.disk cause), []⟩
  | .ok .directory => ⟨.error (.notRegular path), []⟩
  | .ok (.file bytes) =>
    if settings.limit < bytes.length then
      ⟨.error (.tooLarge path bytes.length settings.limit), []⟩
    else
      let contents := Contents.ofFile settings.mapped bytes
      let event := Event.opened path bytes.length contents.mapped
      match Graph.parse contents.bytes with
      | .error cause => ⟨.error (.graph cause), [event, .discarded path cause]⟩
      | .ok graph =>
        ⟨.ok ⟨path, graph⟩,
          [event, .validated path graph.tables.size graph.tables.edges.size]⟩

def openPath (disk : Disk) (path : String) : Logged (Except StoreError Opened) :=
  openWith disk (.ofPath path)

def close (o : Opened) : Logged Unit :=
  ⟨(), [.closing o.path]⟩

def differs (o : Opened) (bytes : Bytes) : Bool :=
  bytes.length ≠ o.graph.file.length ||
    ObjectId.ofBytes (bytes.drop (bytes.length - ObjectId.byteCount)) ≠ o.graph.checksum

def isStale (o : Opened) (disk : Disk) (path : String) : Logged Bool :=
  match disk.node path with
  | .error cause => ⟨true, [.checkFailed path cause]⟩
  | .ok .directory => ⟨true, [.checked path true]⟩
  | .ok (.file bytes) => ⟨o.differs bytes, [.checked path (o.differs bytes)]⟩

end Opened

end Ancestry
