/-!
# Paths

A path names a node from the top of a tree or, without a slash in front, from the working
directory. Repeated slashes count as one; a slash at the end says that a directory is meant.
-/

namespace Ancestry

inductive DiskError
  | notFound
  | busy
  | exists
  | noDevice
  | notDirectory
  | isDirectory
  | invalid
  | nameTooLong
  | notEmpty
  | nulInName
  | notText
deriving DecidableEq

def DiskError.message : DiskError → String
  | .notFound => "No such file or directory (os error 2)"
  | .busy => "Device or resource busy (os error 16)"
  | .exists => "File exists (os error 17)"
  | .noDevice => "No such device (os error 19)"
  | .notDirectory => "Not a directory (os error 20)"
  | .isDirectory => "Is a directory (os error 21)"
  | .invalid => "Invalid argument (os error 22)"
  | .nameTooLong => "File name too long (os error 36)"
  | .notEmpty => "Directory not empty (os error 39)"
  | .nulInName => "file name contained an unexpected NUL byte"
  | .notText => "stream did not contain valid UTF-8"

/-- The names from the top down to a node. -/
abbrev Location := List String

/-- The working directory. It lies right below the top, under a name that no path can spell. -/
def Location.home : Location := [""]

structure Path where
  start : Location
  names : List String
  closed : Bool
deriving DecidableEq

namespace Path

def maxLength : Nat := 4095

def parse (text : String) : Except DiskError Path :=
  if text.toList.any (· = '\x00') then .error .nulInName
  else if text.isEmpty then .error .notFound
  else if maxLength < text.utf8ByteSize then .error .nameTooLong
  else
    .ok {
      start := if text.startsWith "/" then [] else .home
      names := (text.splitOn "/").filter (· ≠ "")
      closed := text.endsWith "/" }

def above (p : Path) : Path :=
  { p with names := p.names.dropLast, closed := true }

/-- The last name. Steps to where one already is, or upwards, name nothing. -/
def name? (p : Path) : Option String :=
  p.names.getLast?.filter fun name => name ≠ "." && name ≠ ".."

def sibling (p : Path) (name : String) : Path :=
  { p with names := p.names.dropLast ++ [name], closed := false }

end Path

end Ancestry
