/-! # Types

A type is a base, a pointer depth and a shape: a single value, an array, a function with or without
a listed parameter list, or the error type that marks a construct which failed to check. -/

namespace LittleC

inductive Base where
  | char
  | int
  | long
  deriving DecidableEq, Repr

def Base.size : Base → Nat
  | .char => 1
  | .int => 4
  | .long => 8

/-- Every pointer occupies eight bytes. -/
def pointerSize : Nat := 8

inductive Ty where
  | scalar (base : Base) (depth : Nat)
  | array (base : Base) (depth : Nat) (length : Nat)
  | func (base : Base) (depth : Nat) (params : List Ty)
  | funcUnspecified (base : Base) (depth : Nat)
  | error
  deriving Repr

namespace Ty

abbrev char : Ty := .scalar .char 0
abbrev int : Ty := .scalar .int 0
abbrev long : Ty := .scalar .long 0

instance : Inhabited Ty := ⟨.error⟩

/-- The error type counts as an `int` wherever a base is asked for. -/
def base : Ty → Base
  | .scalar b _ | .array b _ _ | .func b _ _ | .funcUnspecified b _ => b
  | .error => .int

def depth : Ty → Nat
  | .scalar _ d | .array _ d _ | .func _ d _ | .funcUnspecified _ d => d
  | .error => 0

def length? : Ty → Option Nat
  | .array _ _ n => some n
  | _ => none

/-- The listed parameters of a function; `none` for any other type and for an unspecified list. -/
def params? : Ty → Option (List Ty)
  | .func _ _ ps => some ps
  | _ => none

/-! ## Shapes -/

def isScalar : Ty → Bool
  | .scalar .. => true
  | _ => false

def isArray : Ty → Bool
  | .array .. => true
  | _ => false

def isFunction : Ty → Bool
  | .func .. | .funcUnspecified .. => true
  | _ => false

def isError : Ty → Bool
  | .error => true
  | _ => false

/-- Any indirection at all, whatever the shape around it. -/
def isPointer (t : Ty) : Bool := !t.isError && 0 < t.depth

/-- A single `char`, `int` or `long`. -/
def isNumeric (t : Ty) : Bool := t.isScalar && t.depth == 0

/-- A single pointer value. -/
def isDataPointer (t : Ty) : Bool := t.isScalar && 0 < t.depth

def isLogical (t : Ty) : Bool := t.isScalar || t.isArray

/-! ## Derived types -/

/-- What a call of a function of this type produces. -/
def result : Ty → Ty
  | .error => .error
  | t => .scalar t.base t.depth

/-- An array becomes a pointer to its elements and a `char` an `int`. -/
def promote : Ty → Ty
  | .array b d _ => .scalar b (d + 1)
  | .scalar .char 0 => .int
  | t => t

def pointerTo (t : Ty) : Ty := .scalar t.base (t.depth + 1)

def deref (t : Ty) : Ty := .scalar t.base (t.depth - 1)

/-! ## Size -/

/-- Size of one element: a pointer's when there is any indirection. -/
def elementSize (t : Ty) : Nat := if 0 < t.depth then pointerSize else t.base.size

/-- Size in bytes; functions and the error type have none. -/
def size : Ty → Nat
  | .scalar b d => elementSize (.scalar b d)
  | .array b d n => elementSize (.array b d n) * n
  | .func .. | .funcUnspecified .. | .error => 0

/-- A byte count as the signed 64-bit number that offsets and constants hold. -/
def signedBytes (n : Nat) : Int := (n : Int).bmod 0x10000000000000000

def signedSize (t : Ty) : Int := signedBytes t.size

/-- The range of `int`: 32 bits with a sign. -/
def fitsInt (v : Int) : Bool := -0x80000000 ≤ v && v < 0x80000000

/-! ## Agreement and compatibility -/

mutual
/-- Two types agree when base, depth and shape do, with equal lengths and agreeing parameters; an
unspecified parameter list agrees with every list, and the error type only with itself. -/
def agrees : Ty → Ty → Bool
  | .error, .error => true
  | .scalar b d, .scalar b' d' => b == b' && d == d'
  | .array b d n, .array b' d' n' => b == b' && d == d' && n == n'
  | .func b d ps, .func b' d' ps' => b == b' && d == d' && agreesAll ps ps'
  | .func b d _, .funcUnspecified b' d' => b == b' && d == d'
  | .funcUnspecified b d, .func b' d' _ => b == b' && d == d'
  | .funcUnspecified b d, .funcUnspecified b' d' => b == b' && d == d'
  | _, _ => false

def agreesAll : List Ty → List Ty → Bool
  | [], [] => true
  | t :: ts, u :: us => agrees t u && agreesAll ts us
  | _, _ => false
end

/-- A pointer to a pointer stands in for any plain pointer. -/
def isGenericPair (t u : Ty) : Bool := 1 < t.depth && u.depth == 1

/-- Compatibility after promotion: the same number or pointer, or a generic pair of pointers. -/
def compatible (t u : Ty) : Bool :=
  let t := t.promote
  let u := u.promote
  t.isScalar && u.isScalar && (t.agrees u || isGenericPair t u || isGenericPair u t)

end Ty

end LittleC
