import LittleC.Typing.Coercion
import LittleC.Typing.Verdict

/-! # Binary operators and indexing -/

namespace LittleC.Typing

/-- Two numbers, widened towards each other. -/
def numeric (op : BinaryOp) (left right : Expr) : Expr :=
  let l := left.extend right.ty
  .binary op l (right.extend l.ty) (.value l.ty)

/-- Products, quotients and remainders are of numbers. -/
def multiplicative (op : BinaryOp) (left right : Expr) : Verdict Expr :=
  let l := left.extend right.ty
  let r := right.extend l.ty
  judge [l.ty, r.ty] (l.ty.isNumeric && r.ty.isNumeric) l.ty (.invalidBinaryOperands op.symbol)
    fun ty => .binary op l r (.value ty)

/-- Sums are of two numbers, or of a pointer and a number that counts elements. -/
def add (left right : Expr) : Verdict Expr :=
  let t := left.ty.promote
  let u := right.ty.promote
  if t.isError || u.isError then ⟨.binary .add left right (.value .error), none⟩
  else if t.isNumeric && u.isNumeric then ⟨numeric .add left right, none⟩
  else if t.isDataPointer && u.isNumeric then
    let l := left.promote
    ⟨.binary .add l ((right.extend .long).scale l.ty) (.value l.ty), none⟩
  else if t.isNumeric && u.isDataPointer then
    let r := right.promote
    ⟨.binary .add ((left.extend .long).scale r.ty) r (.value r.ty), none⟩
  else
    ⟨.binary .add left right (.value .error),
      some (.invalidBinaryOperands BinaryOp.add.symbol)⟩

/-- The elements between two pointers: the bytes between them over the size of an element. -/
def distance (left right : Expr) : Expr :=
  let l := left.promote
  .binary .div (.binary .sub l right.promote (.value .long))
    (.number l.ty.deref.signedSize (.value .long)) (.value .long)

/-- Differences are of two numbers, of a pointer and a number, or of two pointers of one type. -/
def subtract (left right : Expr) : Verdict Expr :=
  let t := left.ty.promote
  let u := right.ty.promote
  if t.isError || u.isError then ⟨.binary .sub left right (.value .error), none⟩
  else if t.isNumeric && u.isNumeric then ⟨numeric .sub left right, none⟩
  else if t.isDataPointer && t.agrees u then ⟨distance left right, none⟩
  else if t.isDataPointer && u.isNumeric then
    let l := left.promote
    ⟨.binary .sub l ((right.extend .long).scale l.ty) (.value l.ty), none⟩
  else
    ⟨.binary .sub left right (.value .error),
      some (.invalidBinaryOperands BinaryOp.sub.symbol)⟩

/-- Comparisons are of compatible operands. -/
def compare (c : Comparison) (left right : Expr) : Verdict Expr :=
  let l := left.extend right.ty
  let r := right.extend l.ty
  judge [l.ty, r.ty] (l.ty.compatible r.ty) .int (.invalidBinaryOperands c.symbol)
    fun ty => .binary (.compare c) l r (.value ty)

def logical (op : BinaryOp) (left right : Expr) : Verdict Expr :=
  let l := left.promote
  let r := right.promote
  judge [l.ty, r.ty] (l.ty.isLogical && r.ty.isLogical) .int (.invalidBinaryOperands op.symbol)
    fun ty => .binary op l r (.value ty)

def binary (op : BinaryOp) (left right : Expr) : Verdict Expr :=
  match op with
  | .add => add left right
  | .sub => subtract left right
  | .mul | .div | .rem => multiplicative op left right
  | .compare c => compare c left right
  | .land | .lor => logical op left right

/-- An element of an array is what the sum of pointer and index points to. -/
def index (left right : Expr) : Verdict Expr :=
  let l := left.promote
  let r := right.extend .long
  let legal := l.ty.isDataPointer && r.ty.agrees .long
  let offset := if legal then r.scale l.ty else r
  judge [l.ty, r.ty] legal l.ty.deref (.invalidBinaryOperands "[]") fun ty =>
    .unary .deref (.binary .add l offset (.value l.ty)) (.place ty)

end LittleC.Typing
