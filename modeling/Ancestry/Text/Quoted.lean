import Ancestry.Text.GraphemeExtend
import Ancestry.Text.Unprintable

/-!
# Quoted characters

A character is shown between single quotes. What would not show on its own is escaped: the common
controls by a letter, everything else by its code point in braces.
-/

namespace Ancestry.Text

/-- The code point in lower-case hexadecimal, without leading zeros. -/
def codePoint (c : Char) : String :=
  "\\u\x7b" ++ String.ofList (Nat.toDigits 16 c.toNat) ++ "\x7d"

/-- The halfwidth voicing marks extend the character before them, but show on their own as well. -/
def isHalfwidthMark (c : Char) : Bool :=
  c = '\uff9e' || c = '\uff9f'

def isHidden (c : Char) : Bool :=
  isUnprintable c || isFiller c || (extendsGrapheme c && !isHalfwidthMark c)

def escape (c : Char) : String :=
  match c with
  | '\x00' => "\\0"
  | '\t' => "\\t"
  | '\n' => "\\n"
  | '\r' => "\\r"
  | '\\' => "\\\\"
  | '\x27' => "\\'"
  | _ => if isHidden c then codePoint c else c.toString

def quoted (c : Char) : String :=
  "'" ++ escape c ++ "'"

end Ancestry.Text
