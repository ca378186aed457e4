import LittleC.Checker
import LittleC.Proofs.Checking.Clean

/-! # Runs of a checker

A checker is asked for one thing after the other, in any order and with any types. Expressions and
statements are checked by the typing rules, over trees that it gave before. -/

namespace LittleC

open Typing (Rule StmtRule)

/-- What a checker can be asked for. The verdict on an expression or a statement is that of a
rule. -/
inductive Request where
  | line (n : Nat)
  | openScope
  | closeScope
  | defineFunction (name : String) (ty : Ty)
  | declareFunction (name : String) (ty : Ty)
  | declareVariable (name : String) (ty : Ty)
  | resolve (name : String)
  | expr (v : Verdict Expr)
  | stmt (v : Verdict Stmt)
  | function (symbol : SymbolId) (scope : ScopeId) (body : List Stmt)

namespace Request

/-- The expression that is given back, if any. -/
def exprs : Request → List Expr
  | .expr v => [v.node]
  | _ => []

/-- The statement that is given back, if any. -/
def stmts : Request → List Stmt
  | .stmt v => [v.node]
  | _ => []

end Request

def Checker.serve (c : Checker) : Request → Checker
  | .line n => c.setLine n
  | .openScope => c.openScope.2
  | .closeScope => c.closeScope.2
  | .defineFunction name ty => (c.defineFunction name ty).2
  | .declareFunction name ty => (c.declareFunction name ty).2
  | .declareVariable name ty => (c.declareVariable name ty).2
  | .resolve name => (c.resolve name).2
  | .expr v => (c.accept v).2
  | .stmt v => (c.accept v).2
  | .function symbol scope body => (c.function symbol scope body).2

/-- A checker and all trees that it has given so far. -/
structure Workbench where
  checker : Checker
  exprs : List Expr
  stmts : List Stmt

namespace Workbench

/-- A checker that has given nothing yet. -/
def ofChecker (c : Checker) : Workbench := ⟨c, [], []⟩

/-- Verdicts come from rules over the trees given so far, and bodies are made of those. -/
def Allows (w : Workbench) : Request → Prop
  | .expr v => Rule w.checker.symbols (fun _ => True) w.exprs v
  | .stmt v => StmtRule (w.checker.returnType.getD .error) w.exprs w.stmts v
  | .function _ _ body => ∀ s ∈ body, s ∈ w.stmts
  | _ => True

def serve (w : Workbench) (q : Request) : Workbench :=
  ⟨w.checker.serve q, q.exprs ++ w.exprs, q.stmts ++ w.stmts⟩

/-- Requests served one after the other. -/
inductive Run : Workbench → List Request → Workbench → Prop where
  | nil (w : Workbench) : Run w [] w
  | cons {w w' : Workbench} {q : Request} {qs : List Request} (hq : w.Allows q)
      (hrest : Run (w.serve q) qs w') : Run w (q :: qs) w'

end Workbench

end LittleC
