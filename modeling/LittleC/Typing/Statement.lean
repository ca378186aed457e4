import LittleC.Tree.Stmt
import LittleC.Typing.Coercion
import LittleC.Typing.Verdict

/-! # Statements -/

namespace LittleC.Typing

/-- An assignment stores into a place a value that is compatible with it once converted. -/
def assign (target value : Expr) : Verdict Stmt :=
  let value := value.convert target.ty
  let fault :=
    if target.ty.isError || value.ty.isError then none
    else if !target.lvalue then some .lvalueRequired
    else if !target.ty.compatible value.ty then some (.invalidBinaryOperands "=")
    else none
  ⟨.assign target value, fault⟩

/-- A return gives a value that is compatible with the result `expected` once converted. -/
def ret (expected : Ty) (e : Expr) : Verdict Stmt :=
  let e := e.convert expected
  let fault :=
    if e.ty.isError || expected.isError || e.ty.compatible expected then none
    else some .invalidReturnType
  ⟨.ret e, fault⟩

/-- The condition of a branch or loop is a logical value. -/
def test (e : Expr) : Verdict Expr :=
  let e := e.promote
  ⟨e, if e.ty.isError || e.ty.isLogical then none else some .invalidTest⟩

def loop (condition : Expr) (body : Stmt) : Verdict Stmt :=
  (test condition).map fun c => .loop c body

def ifThen (condition : Expr) (body : Stmt) : Verdict Stmt :=
  (test condition).map fun c => .ifThen c body

def ifElse (condition : Expr) (body other : Stmt) : Verdict Stmt :=
  (test condition).map fun c => .ifElse c body other

end LittleC.Typing
