import Ancestry.Json.Token

/-!
# JSON documents

A document is read token by token. The state of the reader says what may come next, and a stack of
frames holds the arrays and objects that are still open, the innermost first. Objects keep their
members in order, with names that come twice.
-/

namespace Ancestry

inductive Json
  | null
  | bool (b : Bool)
  | number (natural : Option Nat)
  | text (t : Json.Text)
  | array (items : List Json)
  | object (members : List (Json.Text × Json))

namespace Json

/-- An open array or object. What it holds so far comes latest first. -/
inductive Frame
  | array (items : List Json)
  | object (members : List (Text × Json)) (name : Text)

inductive State
  | value (stack : List Frame)
  | firstItem (stack : List Frame)
  | afterItem (items : List Json) (stack : List Frame)
  | firstMember (stack : List Frame)
  | member (members : List (Text × Json)) (stack : List Frame)
  | colon (members : List (Text × Json)) (name : Text) (stack : List Frame)
  | afterMember (members : List (Text × Json)) (stack : List Frame)
  | done (document : Json)

namespace State

def put (v : Json) : List Frame → State
  | [] => .done v
  | .array items :: stack => .afterItem (v :: items) stack
  | .object members name :: stack => .afterMember ((name, v) :: members) stack

def begin (stack : List Frame) : Token → Option State
  | .openArray => some (.firstItem stack)
  | .openObject => some (.firstMember stack)
  | .null => some (put .null stack)
  | .bool b => some (put (.bool b) stack)
  | .number n => some (put (.number n) stack)
  | .text t => some (put (.text t) stack)
  | .closeArray | .closeObject | .comma | .colon => none

def step : State → Token → Option State
  | .value stack, token => begin stack token
  | .firstItem stack, .closeArray => some (put (.array []) stack)
  | .firstItem stack, token => begin (.array [] :: stack) token
  | .afterItem items stack, .comma => some (.value (.array items :: stack))
  | .afterItem items stack, .closeArray => some (put (.array items.reverse) stack)
  | .firstMember stack, .closeObject => some (put (.object []) stack)
  | .firstMember stack, .text t => some (.colon [] t stack)
  | .member members stack, .text t => some (.colon members t stack)
  | .colon members name stack, .colon => some (.value (.object members name :: stack))
  | .afterMember members stack, .comma => some (.member members stack)
  | .afterMember members stack, .closeObject => some (put (.object members.reverse) stack)
  | _, _ => none

end State

/-- The document that a text spells. Nothing but blanks may stand around it. -/
def parse (text : String) : Option Json := do
  let tokens ← Token.lex text.toList
  let state ← tokens.foldlM State.step (.value [])
  match state with
  | .done document => some document
  | _ => none

def writeObject (members : List (String × List Char)) : List Char :=
  let lines := members.map fun (name, value) => [' ', ' '] ++ Text.write name ++ [':', ' '] ++ value
  ['\x7b', '\n'] ++ [',', '\n'].intercalate lines ++ ['\n', '\x7d']

def writeBool (b : Bool) : List Char :=
  if b then ['t', 'r', 'u', 'e'] else ['f', 'a', 'l', 's', 'e']

def writeNat (n : Nat) : List Char :=
  Nat.toDigits 10 n

end Json

end Ancestry
