import LittleC.Typing.Coercion
import LittleC.Typing.Verdict

/-! # Unary operators, sizes and casts -/

namespace LittleC.Typing

def logicalNot (e : Expr) : Verdict Expr :=
  let e := e.promote
  judge [e.ty] e.ty.isLogical .int (.invalidUnaryOperand UnaryOp.logicalNot.symbol) fun ty =>
    .unary .logicalNot e (.value ty)

def negate (e : Expr) : Verdict Expr :=
  let e := e.promote
  judge [e.ty] e.ty.isNumeric e.ty (.invalidUnaryOperand UnaryOp.negate.symbol) fun ty =>
    .unary .negate e (.value ty)

/-- What a pointer points to is a place. -/
def deref (e : Expr) : Verdict Expr :=
  let e := e.promote
  judge [e.ty] e.ty.isDataPointer e.ty.deref (.invalidUnaryOperand UnaryOp.deref.symbol) fun ty =>
    .unary .deref e (.place ty)

def address (e : Expr) : Verdict Expr :=
  judge [e.ty] e.lvalue e.ty.pointerTo .lvalueRequired fun ty => .unary .address e (.value ty)

/-- The size of an operand is an `int` constant; functions have none. -/
def sizeOf (e : Expr) : Verdict Expr :=
  ⟨.number e.ty.signedSize (.value .int), if e.ty.isFunction then some .invalidSizeof else none⟩

/-- A cast between pointers, or between a pointer and `long`. -/
def castsPointer (target source : Ty) : Bool :=
  (target.isDataPointer && (source.isDataPointer || source.agrees .long)) ||
    (source.isDataPointer && target.agrees .long)

/-- Numbers cast to numbers, pointers to pointers and pointers to and from `long`. -/
def cast (target : Ty) (e : Expr) : Verdict Expr :=
  let source := e.ty.promote
  if source.isError then ⟨e, none⟩
  else if target.isNumeric && source.isNumeric then ⟨(e.convert target).castTo target, none⟩
  else if castsPointer target source then ⟨e.promote.castTo target, none⟩
  else ⟨.cast e (.value .error), some .invalidCast⟩

end LittleC.Typing
