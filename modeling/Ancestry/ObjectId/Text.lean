import Ancestry.ObjectId
import Ancestry.Text.Quoted

/-!
# Object ids in text

A full id is forty hexadecimal digits. An abbreviated id is at least one and at most forty of them,
and stands for the ids that begin with these digits.
-/

namespace Ancestry

attribute [local instance (high)] instPowNat

/-- Why a text is no full id. Lengths and positions count bytes of UTF-8. -/
inductive HexFault
  | oddLength
  | wrongLength
  | badByte (byte : UInt8) (position : Nat)
deriving DecidableEq

inductive IdError
  | wrongLength (actual : Nat)
  | badHex (fault : HexFault)
  | badDigit (c : Char)
  | noDigits
  | tooManyDigits (length : Nat)
deriving DecidableEq

def HexFault.message : HexFault → String
  | .oddLength => "Odd number of digits"
  | .wrongLength => "Invalid string length"
  | .badByte byte position =>
    s!"Invalid character {Text.quoted (Char.ofNat byte.toNat)} at position {position}"

def IdError.message : IdError → String
  | .wrongLength actual =>
    s!"Invalid object id length: expected {ObjectId.byteCount} bytes, got {actual}"
  | .badHex fault => s!"Invalid object id hex: {fault.message}"
  | .badDigit c => s!"Invalid hex digit {Text.quoted c} in object id prefix"
  | .noDigits => "Empty object id prefix"
  | .tooManyDigits length => s!"Object id prefix too long: {length} hex digits"

/-- An abbreviated id: its digits, padded with zeros to a whole id, and how many there are. -/
structure Abbreviation where
  id : ObjectId
  length : Nat
deriving DecidableEq

namespace ObjectId

def ofBytes? (bs : Bytes) : Except IdError ObjectId :=
  if bs.length = byteCount then .ok (ofBytes bs) else .error (.wrongLength bs.length)

/-- The values of hexadecimal digits given as ASCII bytes; the first of them is at `position`. -/
def digitsOfBytes (position : Nat) : Bytes → Except HexFault (List Nat)
  | [] => .ok []
  | byte :: rest =>
    match Hex.digit? (Char.ofNat byte.toNat) with
    | none => .error (.badByte byte position)
    | some d => (digitsOfBytes (position + 1) rest).map (d :: ·)

/-- Reads a full id. The length is judged before the digits. -/
def ofHex (text : String) : Except IdError ObjectId :=
  let bytes := text.toUTF8.data.toList
  if bytes.length % 2 = 1 then .error (.badHex .oddLength)
  else if bytes.length ≠ digitCount then .error (.badHex .wrongLength)
  else
    match digitsOfBytes 0 bytes with
    | .error fault => .error (.badHex fault)
    | .ok ds => .ok (ofNat (Digits.value 16 ds))

end ObjectId

def Abbreviation.ofText (text : String) : Except IdError Abbreviation :=
  let length := text.utf8ByteSize
  if length = 0 then .error .noDigits
  else if ObjectId.digitCount < length then .error (.tooManyDigits length)
  else
    match text.toList.find? (fun c => !Hex.isDigit c) with
    | some c => .error (.badDigit c)
    | none =>
      let ds := text.toList.filterMap Hex.digit?
      .ok ⟨.ofNat (Digits.value 16 ds * 16 ^ (ObjectId.digitCount - length)), length⟩

end Ancestry
