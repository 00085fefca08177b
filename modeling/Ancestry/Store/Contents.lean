import Ancestry.Settings
import Ancestry.Store.Error

/-!
# Whole files

The bytes of a file are mapped into memory or read into it. An empty file is never mapped, and
neither way gives the bytes of a directory.
-/

namespace Ancestry

structure Contents where
  bytes : Bytes
  mapped : Bool
deriving DecidableEq

namespace Contents

def ofFile (map : Bool) (bytes : Bytes) : Contents :=
  ⟨bytes, map && !bytes.isEmpty⟩

def load (disk : Disk) (path : String) (map : Bool) : Except DiskError Contents := do
  match ← disk.node path with
  | .file bytes => .ok (ofFile map bytes)
  | .directory => .error (if map then .noDevice else .isDirectory)

end Contents

def Settings.load (disk : Disk) (path : String) : Except StoreError Settings :=
  match Contents.load disk path false with
  | .error cause => .error (.disk cause)
  | .ok contents =>
    match String.fromUTF8? ⟨contents.bytes.toArray⟩ with
    | none => .error (.disk .notText)
    | some text =>
      match Settings.ofText text with
      | none => .error .badSettings
      | some settings => .ok settings

end Ancestry
