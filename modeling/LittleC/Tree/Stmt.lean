import LittleC.Tree.Expr

/-! # Checked statements and functions -/

namespace LittleC

inductive Stmt where
  | expr (e : Expr)
  | assign (target value : Expr)
  | ret (e : Expr)
  | loop (condition : Expr) (body : Stmt)
  | ifThen (condition : Expr) (body : Stmt)
  | ifElse (condition : Expr) (body other : Stmt)
  /-- Statements with the scope that holds their declarations. -/
  | block (scope : ScopeId) (body : List Stmt)

namespace Stmt

mutual
def hasError : Stmt → Bool
  | expr e | ret e => e.hasError
  | assign target value => target.hasError || value.hasError
  | loop c body | ifThen c body => c.hasError || body.hasError
  | ifElse c body other => c.hasError || body.hasError || other.hasError
  | block _ body => anyError body

def anyError : List Stmt → Bool
  | [] => false
  | s :: ss => s.hasError || anyError ss
end

end Stmt

/-- A function definition. The scope of its body declares the parameters first and in order. -/
structure Function where
  symbol : SymbolId
  scope : ScopeId
  body : List Stmt

def Function.hasError (f : Function) : Bool := Stmt.anyError f.body

end LittleC
