/-! # Operators -/

namespace LittleC

inductive UnaryOp where
  | negate
  | logicalNot
  | deref
  | address
  deriving DecidableEq, Repr

inductive Comparison where
  | eq
  | ne
  | lt
  | le
  | gt
  | ge
  deriving DecidableEq, Repr

inductive BinaryOp where
  | add
  | sub
  | mul
  | div
  | rem
  | compare (c : Comparison)
  | land
  | lor
  deriving DecidableEq, Repr

/-- The operator as it is written in a program. -/
def UnaryOp.symbol : UnaryOp → String
  | .negate => "-"
  | .logicalNot => "!"
  | .deref => "*"
  | .address => "&"

namespace Comparison

def symbol : Comparison → String
  | .eq => "=="
  | .ne => "!="
  | .lt => "<"
  | .le => "<="
  | .gt => ">"
  | .ge => ">="

/-- The comparison that holds exactly when the given one does not. -/
def negate : Comparison → Comparison
  | .eq => .ne
  | .ne => .eq
  | .lt => .ge
  | .le => .gt
  | .gt => .le
  | .ge => .lt

def all : List Comparison := [.eq, .ne, .lt, .le, .gt, .ge]

end Comparison

namespace BinaryOp

def symbol : BinaryOp → String
  | .add => "+"
  | .sub => "-"
  | .mul => "*"
  | .div => "/"
  | .rem => "%"
  | .compare c => c.symbol
  | .land => "&&"
  | .lor => "||"

def negate? : BinaryOp → Option BinaryOp
  | .compare c => some (.compare c.negate)
  | _ => none

def all : List BinaryOp :=
  [.add, .sub, .mul, .div, .rem] ++ Comparison.all.map .compare ++ [.land, .lor]

def ofSymbol? (s : String) : Option BinaryOp := all.find? (·.symbol == s)

end BinaryOp

namespace UnaryOp

def all : List UnaryOp := [.negate, .logicalNot, .deref, .address]

def ofSymbol? (s : String) : Option UnaryOp := all.find? (·.symbol == s)

end UnaryOp

end LittleC
