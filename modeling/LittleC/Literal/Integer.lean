import LittleC.Ty.Basic

/-! # Integer literals

Decimal, octal and hexadecimal constants with an optional `l` or `L` at the end. A leading `0` with
more digits behind it means octal, a leading `0x` or `0X` hexadecimal. -/

namespace LittleC

inductive Radix where
  | octal
  | decimal
  | hex
  deriving DecidableEq, Repr

namespace Radix

def base : Radix → Nat
  | .octal => 8
  | .decimal => 10
  | .hex => 16

/-- The value of a digit in the radix, letters in either case. -/
def digit? (r : Radix) (c : Char) : Option Nat :=
  let value :=
    if '0' ≤ c ∧ c ≤ '9' then some (c.toNat - '0'.toNat)
    else if 'a' ≤ c ∧ c ≤ 'f' then some (c.toNat - 'a'.toNat + 10)
    else if 'A' ≤ c ∧ c ≤ 'F' then some (c.toNat - 'A'.toNat + 10)
    else none
  value.filter (· < r.base)

def isDigit (r : Radix) (c : Char) : Bool := (r.digit? c).isSome

/-- The number written by digits, the most significant first; `none` at the first other
character. -/
def number? (r : Radix) (cs : List Char) : Option Nat :=
  cs.foldlM (fun n c => (r.digit? c).map (n * r.base + ·)) 0

end Radix

structure IntegerLiteral where
  value : Int
  longSuffix : Bool
  deriving DecidableEq, Repr

namespace IntegerLiteral

/-- A constant is `long` by its suffix or because it does not fit an `int`. -/
def isLong (l : IntegerLiteral) : Bool := l.longSuffix || !Ty.fitsInt l.value

/-- Takes one `l` or `L` off the end. -/
def splitSuffix (cs : List Char) : List Char × Bool :=
  match cs.getLast? with
  | some 'l' | some 'L' => (cs.dropLast, true)
  | _ => (cs, false)

/-- Takes the mark of the radix off the front. -/
def splitRadix : List Char → Radix × List Char
  | '0' :: 'x' :: cs | '0' :: 'X' :: cs => (.hex, cs)
  | '0' :: c :: cs => (.octal, c :: cs)
  | cs => (.decimal, cs)

/-- Reads a constant; malformed digits and values from `2 ^ 63` up are refused. -/
def parse? (text : String) : Option IntegerLiteral :=
  let body := splitSuffix text.toList
  let digits := splitRadix body.1
  if digits.2.isEmpty then none
  else
    match digits.1.number? digits.2 with
    | some n => if n < 0x8000000000000000 then some ⟨n, body.2⟩ else none
    | none => none

end IntegerLiteral

end LittleC
