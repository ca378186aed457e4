import LittleC.Literal.Integer

/-! # String literals

The length of a string literal in bytes. Each escape sequence stands for one byte: a backslash with
`x` and any hexadecimal digits, with up to three octal digits, or with one other character. -/

namespace LittleC

namespace TextLiteral

/-- Takes the quotes off a text that has one at either end. -/
def unquote (cs : List Char) : List Char :=
  match cs with
  | '"' :: rest => if rest.getLast? = some '"' then rest.dropLast else cs
  | _ => cs

/-- Where a reader of the text stands: outside of any escape, behind a backslash, or behind an
escape that the next digits may still belong to. -/
inductive Position where
  | plain
  | backslash
  | hexDigits
  | octalDigits (left : Nat)
  deriving DecidableEq, Repr

/-- Reading a character outside of any escape: the bytes it adds and the position behind it. -/
def readPlain (c : Char) : Nat × Position :=
  if c = '\\' then (0, .backslash) else (c.utf8Size, .plain)

/-- Reading one character: the bytes it adds and the position behind it. An escape adds its byte
with the character that follows the backslash. -/
def read : Position → Char → Nat × Position
  | .plain, c => readPlain c
  | .backslash, c =>
    (1, if c = 'x' then .hexDigits else if Radix.octal.isDigit c then .octalDigits 2 else .plain)
  | .hexDigits, c => if Radix.hex.isDigit c then (0, .hexDigits) else readPlain c
  | .octalDigits (n + 1), c => if Radix.octal.isDigit c then (0, .octalDigits n) else readPlain c
  | .octalDigits 0, c => readPlain c

def bytesFrom : Position → List Char → Nat
  | _, [] => 0
  | p, c :: cs => (read p c).1 + bytesFrom (read p c).2 cs

/-- The bytes of a string literal as written, without the terminator. -/
def byteLength (text : String) : Nat := bytesFrom .plain (unquote text.toList)

end TextLiteral

end LittleC
