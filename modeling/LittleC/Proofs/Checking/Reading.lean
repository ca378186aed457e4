import LittleC.Compilation
import LittleC.Proofs.Checking.Names
import LittleC.Proofs.Checking.Quiet
import Mathlib.Logic.Relation

/-! # Reading a unit

A unit is read function after function: the name of a function is defined at file level, the scope
of its body is opened and takes the parameters, then the body is checked, in which blocks may open
and close and names are resolved, and at its end the function is collected. -/

namespace LittleC

open Typing (Rule StmtRule)

/-- A function that is being read. -/
structure Draft where
  symbol : SymbolId
  scope : ScopeId
  /-- The types of the parameters that are still to come. -/
  awaited : List Ty
  /-- What the names of the body stood for so far. -/
  names : List SymbolId
  exprs : List Expr
  stmts : List Stmt

structure Reading where
  unit : Compilation
  draft : Option Draft

namespace Reading

def checker (r : Reading) : Checker := r.unit.checker

def table (r : Reading) : SymbolTable := r.checker.symbols

/-- Nothing is read yet. -/
def start (o : Options) : Reading := ⟨.start o, none⟩

def setChecker (r : Reading) (c : Checker) : Reading :=
  { r with unit := { r.unit with checker := c } }

def setDraft (r : Reading) (d : Draft) : Reading := { r with draft := some d }

/-- The head of a definition: its name and the scope of its body. -/
def define (r : Reading) (name : String) (ty : Ty) : Reading :=
  let defined := r.checker.defineFunction name ty
  let opened := defined.2.openScope
  (r.setChecker opened.2).setDraft ⟨defined.1, opened.1, ty.params?.getD [], [], [], []⟩

def declare (r : Reading) (name : String) (ty : Ty) : Reading :=
  r.setChecker (r.checker.declareVariable name ty).2

def resolve (r : Reading) (d : Draft) (name : String) : Reading :=
  let resolved := r.checker.resolve name
  (r.setChecker resolved.2).setDraft { d with names := resolved.1 :: d.names }

def addExpr (r : Reading) (d : Draft) (v : Verdict Expr) : Reading :=
  (r.setChecker (r.checker.accept v).2).setDraft { d with exprs := v.node :: d.exprs }

def addStmt (r : Reading) (d : Draft) (v : Verdict Stmt) : Reading :=
  (r.setChecker (r.checker.accept v).2).setDraft { d with stmts := v.node :: d.stmts }

/-- Closes the scope of the body and collects the function. -/
def finish (r : Reading) (d : Draft) (body : List Stmt) : Reading :=
  let made := r.checker.closeScope.2.function d.symbol d.scope body
  ⟨({ r.unit with checker := made.2 } : Compilation).addFunction made.1, none⟩

/-- One operation in the order of reading. -/
inductive Step (r : Reading) : Reading → Prop where
  | line (n : Nat) : Step r (r.setChecker (r.checker.setLine n))
  /-- Functions may be declared everywhere, also in blocks. -/
  | declareFunction (name : String) (ty : Ty) :
      Step r (r.setChecker (r.checker.declareFunction name ty).2)
  | globalVariable (name : String) (ty : Ty) (hfile : r.draft = none) : Step r (r.declare name ty)
  | define (name : String) {ty : Ty} (hfile : r.draft = none) (hty : ty.isFunction = true) :
      Step r (r.define name ty)
  | param {d : Draft} (name : String) {ty : Ty} {rest : List Ty} (hd : r.draft = some d)
      (hawaited : d.awaited = ty :: rest) :
      Step r ((r.declare name ty).setDraft { d with awaited := rest })
  | localVariable {d : Draft} (name : String) (ty : Ty) (hd : r.draft = some d)
      (hbody : d.awaited = []) : Step r (r.declare name ty)
  | openScope {d : Draft} (hd : r.draft = some d) (hbody : d.awaited = []) :
      Step r (r.setChecker r.checker.openScope.2)
  | closeScope {d : Draft} (hd : r.draft = some d) (hinner : r.table.current? ≠ some d.scope) :
      Step r (r.setChecker r.checker.closeScope.2)
  | resolve {d : Draft} (name : String) (hd : r.draft = some d) : Step r (r.resolve d name)
  | expr {d : Draft} {v : Verdict Expr} (hd : r.draft = some d)
      (hv : Rule r.table (· ∈ d.names) d.exprs v) : Step r (r.addExpr d v)
  | stmt {d : Draft} {v : Verdict Stmt} (hd : r.draft = some d)
      (hv : StmtRule (r.checker.returnType.getD .error) d.exprs d.stmts v) : Step r (r.addStmt d v)
  | finish {d : Draft} {body : List Stmt} (hd : r.draft = some d) (hbody : d.awaited = [])
      (houter : r.table.current? = some d.scope) (hstmts : ∀ st ∈ body, st ∈ d.stmts) :
      Step r (r.finish d body)

def Steps : Reading → Reading → Prop := Relation.ReflTransGen Step

/-- Some steps after the start with options `o`. -/
def Reached (o : Options) : Reading → Prop := Steps (start o)

section
variable {r r' : Reading} {o : Options}

theorem Step.next (h : r.Step r') : r.checker.log.Next r'.checker.log := by
  cases h with
  | line n => exact .line n
  | declareFunction name ty => exact r.checker.next_declareFunction name ty
  | globalVariable name ty | param name | localVariable name ty =>
      exact r.checker.next_declareVariable name _
  | define name => exact r.checker.next_defineFunction name _
  | openScope | closeScope | finish => exact .same
  | resolve name => exact r.checker.next_resolve name
  | expr | stmt => exact r.checker.next_reportAny _

/-- What reports nothing has reported nothing before. -/
theorem Step.quiet (h : r.Step r') (hquiet : r'.checker.Quiet) : r.checker.Quiet :=
  h.next.entries_eq_nil hquiet

end

end Reading

end LittleC
