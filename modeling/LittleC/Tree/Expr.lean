import LittleC.Operator
import LittleC.SymbolTable

/-! # Checked expressions

Every node carries its type and whether it names a place. Implicit conversions are nodes of their
own, so nothing that reads a tree has to know the rules that built it. -/

namespace LittleC

namespace Expr

/-- The type of a node and whether it is an lvalue. -/
structure Info where
  ty : Ty
  lvalue : Bool
  deriving Repr

/-- A node that only has a value. -/
abbrev Info.value (ty : Ty) : Info := ⟨ty, false⟩

/-- A node that names a place. -/
abbrev Info.place (ty : Ty) : Info := ⟨ty, true⟩

end Expr

inductive Expr where
  | number (value : Int) (info : Expr.Info)
  /-- A string literal as written, quotes included. -/
  | text (literal : String) (info : Expr.Info)
  | ident (symbol : SymbolId) (info : Expr.Info)
  | call (callee : SymbolId) (args : List Expr) (info : Expr.Info)
  | unary (op : UnaryOp) (operand : Expr) (info : Expr.Info)
  /-- A conversion to the type of the node. -/
  | cast (operand : Expr) (info : Expr.Info)
  | binary (op : BinaryOp) (left right : Expr) (info : Expr.Info)

namespace Expr

def info : Expr → Info
  | number _ i | text _ i | ident _ i | call _ _ i | unary _ _ i | cast _ i | binary _ _ _ i => i

def ty (e : Expr) : Ty := e.info.ty

def lvalue (e : Expr) : Bool := e.info.lvalue

def setInfo (i : Info) : Expr → Expr
  | number v _ => number v i
  | text s _ => text s i
  | ident x _ => ident x i
  | call f args _ => call f args i
  | unary op e _ => unary op e i
  | cast e _ => cast e i
  | binary op l r _ => binary op l r i

def setLvalue (b : Bool) (e : Expr) : Expr := e.setInfo ⟨e.ty, b⟩

def isError (e : Expr) : Bool := e.ty.isError

/-- The constant of a number node. -/
def number? : Expr → Option Int
  | number v _ => some v
  | _ => none

mutual
/-- Whether any node of the tree failed to check. -/
def hasError : Expr → Bool
  | number _ i | text _ i | ident _ i => i.ty.isError
  | call _ args i => i.ty.isError || anyError args
  | unary _ e i | cast e i => i.ty.isError || e.hasError
  | binary _ l r i => i.ty.isError || l.hasError || r.hasError

def anyError : List Expr → Bool
  | [] => false
  | e :: es => e.hasError || anyError es
end

end Expr

end LittleC
