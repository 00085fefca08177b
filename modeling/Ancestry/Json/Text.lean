import Ancestry.Hex

/-!
# JSON text

A text stands between double quotes. Its pieces are characters, written plainly or by a letter
behind a backslash, and code units of sixteen bits, written by four hexadecimal digits. Units from
`d800` up to `dfff` make characters only in pairs; a text with one on its own is well written and
still means nothing.
-/

namespace Ancestry.Json

inductive Piece
  | char (c : Char)
  | unit (value : Nat)
deriving DecidableEq

abbrev Text := List Piece

namespace Text

def unescape? (c : Char) : Option Char :=
  match c with
  | '"' | '\\' | '/' => some c
  | 'b' => some '\x08'
  | 'f' => some '\x0c'
  | 'n' => some '\n'
  | 'r' => some '\r'
  | 't' => some '\t'
  | _ => none

def unit? (a b c d : Char) : Option Nat := do
  let a ← Hex.digit? a
  let b ← Hex.digit? b
  let c ← Hex.digit? c
  let d ← Hex.digit? d
  some (Digits.value 16 [a, b, c, d])

/-- The pieces up to the closing quote, and what follows it. Control characters must be escaped. -/
def lex : List Char → Option (Text × List Char)
  | [] => none
  | '"' :: rest => some ([], rest)
  | '\\' :: 'u' :: a :: b :: c :: d :: rest =>
    match unit? a b c d, lex rest with
    | some u, some (pieces, rest) => some (.unit u :: pieces, rest)
    | _, _ => none
  | '\\' :: c :: rest =>
    match unescape? c, lex rest with
    | some c, some (pieces, rest) => some (.char c :: pieces, rest)
    | _, _ => none
  | c :: rest =>
    if c = '\\' ∨ c.toNat < 0x20 then none
    else
      match lex rest with
      | some (pieces, rest) => some (.char c :: pieces, rest)
      | none => none

def isHigh (unit : Nat) : Bool := 0xd800 ≤ unit && unit < 0xdc00

def isLow (unit : Nat) : Bool := 0xdc00 ≤ unit && unit < 0xe000

def pair (high low : Nat) : Char :=
  Char.ofNat (0x10000 + (high - 0xd800) * 0x400 + (low - 0xdc00))

/-- The characters of a text, unless a unit lacks its partner. -/
def characters? : Text → Option (List Char)
  | [] => some []
  | .char c :: rest => (characters? rest).map (c :: ·)
  | .unit u :: rest =>
    if isHigh u then
      match rest with
      | .unit v :: rest => if isLow v then (characters? rest).map (pair u v :: ·) else none
      | _ => none
    else if isLow u then none
    else (characters? rest).map (Char.ofNat u :: ·)

def toString? (t : Text) : Option String :=
  t.characters?.map String.ofList

def escape (c : Char) : List Char :=
  match c with
  | '"' => ['\\', '"']
  | '\\' => ['\\', '\\']
  | '\x08' => ['\\', 'b']
  | '\x0c' => ['\\', 'f']
  | '\n' => ['\\', 'n']
  | '\r' => ['\\', 'r']
  | '\t' => ['\\', 't']
  | c =>
    if c.toNat < 0x20 then '\\' :: 'u' :: (Digits.ofNat 16 4 c.toNat).map Nat.digitChar else [c]

def write (s : String) : List Char :=
  '"' :: s.toList.flatMap escape ++ ['"']

theorem length_of_lex {cs : List Char} {t : Text} {rest : List Char} (h : lex cs = some (t, rest)) :
    rest.length < cs.length := by
  fun_induction lex cs generalizing t rest with
  | case1 => simp at h
  | case2 => simp at h; simp [h]
  | case3 a b c d r u p r' hl hu ih =>
    have := ih hl
    simp only [Option.some.injEq, Prod.mk.injEq] at h
    simp only [List.length_cons, ← h.2]
    omega
  | case4 => simp at h
  | case5 c r hn c' p r' hl hu ih =>
    have := ih hl
    simp only [Option.some.injEq, Prod.mk.injEq] at h
    simp only [List.length_cons, ← h.2]
    omega
  | case6 => simp at h
  | case7 => simp at h
  | case8 c r _ _ _ hc p r' hl ih =>
    have := ih hl
    simp only [Option.some.injEq, Prod.mk.injEq] at h
    simp only [List.length_cons, ← h.2]
    omega
  | case9 => simp at h

end Text

end Ancestry.Json
