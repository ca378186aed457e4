import LittleC.Lowering.Operator
import LittleC.Tree.Expr

/-! # Lowering of expressions -/

namespace LittleC

/-- Where a symbol is stored: at its place in the frame, or under its name. -/
def Symbol.home (s : Symbol) : Mem :=
  match s.offset with
  | some offset => .frame offset
  | none => .global s.name

def BinaryOp.lower (op : BinaryOp) (size : Nat) (left right : Lowering ValueId) :
    Lowering ValueId :=
  match op with
  | .add => Lowering.arithmetic .add "add" size left right
  | .sub => Lowering.arithmetic .sub "sub" size left right
  | .mul => Lowering.arithmetic .imul "imul" size left right
  | .div => Lowering.divide "divide" .rax size left right
  | .rem => Lowering.divide "remainder" .rdx size left right
  | .compare c => Lowering.compare c size left right
  | .land => Lowering.logical op.symbol .eq size left right
  | .lor => Lowering.logical op.symbol .ne size left right

namespace Expr

open Lowering (newValue internText)

mutual
/-- Writes the code of an expression and gives the value of its result. -/
def lower (t : SymbolTable) : Expr → Lowering ValueId
  | number v i => Lowering.number v i.ty.size
  | text s i => do
    let label ← internText s
    newValue (.mem (.literal label)) i.ty.size
  | ident x i => newValue (.mem (t.symbol x).home) i.ty.size
  | call f args i => Lowering.call (t.symbol f) i.ty.size (lowerAll t args)
  | unary .negate e i => Lowering.negate i.ty.size (e.lower t)
  | unary .logicalNot e i => Lowering.logicalNot i.ty.size (e.lower t)
  | unary .deref e i => Lowering.deref i.ty.size (e.lower t)
  | unary .address (unary .deref p _) _ => Lowering.addressOfTarget (p.lower t)
  | unary .address e _ => Lowering.addressOfPlace (e.lower t)
  | cast e i => Lowering.cast i.ty.size (e.lower t)
  | binary op l r i => op.lower i.ty.size (l.lower t) (r.lower t)

def lowerAll (t : SymbolTable) : List Expr → Lowering (List ValueId)
  | [] => pure []
  | e :: es => do
    let v ← e.lower t
    let vs ← lowerAll t es
    pure (v :: vs)
end

/-- Branches to `label` when the expression is nonzero as `onTrue` says. A comparison becomes part
of the branch; all else is compared with zero. -/
def branch (t : SymbolTable) (e : Expr) (label : Label) (onTrue : Bool) : Lowering Unit :=
  match e with
  | binary (.compare c) l r _ => do
    let sides ← Lowering.comparison (l.lower t) (r.lower t)
    Lowering.unbind sides.2
    Lowering.emit (.jcc (if onTrue then c else c.negate) label)
  | e => do
    let v ← e.lower t
    Lowering.compareZero v
    Lowering.emit (.jcc (if onTrue then .ne else .eq) label)

end Expr

end LittleC
