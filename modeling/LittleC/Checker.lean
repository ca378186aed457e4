import LittleC.Typing.Binary
import LittleC.Typing.Primary
import LittleC.Typing.Statement
import LittleC.Typing.Unary

/-! # The checker

The table of names, the log, and the result type of the function whose body is being checked. -/

namespace LittleC

structure Checker where
  symbols : SymbolTable
  log : Log
  returnType : Option Ty

namespace Checker

/-- A checker that knows no name and has no scope open. -/
def empty : Checker := ⟨.empty, .empty, none⟩

def setLine (c : Checker) (line : Nat) : Checker := { c with log := c.log.setLine line }

def report (c : Checker) (e : CheckError) : Checker := { c with log := c.log.report e }

def reportAny (c : Checker) : Option CheckError → Checker
  | some e => c.report e
  | none => c

/-- Takes the node of a verdict and logs its mistake. -/
def accept {α : Type} (c : Checker) (v : Verdict α) : α × Checker := (v.node, c.reportAny v.fault)

/-! ## Scopes -/

def openScope (c : Checker) : ScopeId × Checker :=
  let opened := c.symbols.openScope
  (opened.1, { c with symbols := opened.2 })

def closeScope (c : Checker) : Option ScopeId × Checker :=
  let closed := c.symbols.closeScope
  (closed.1, { c with symbols := closed.2 })

/-- The outermost scope, opened when no scope ever was. -/
def outermost (c : Checker) : ScopeId × Checker :=
  match c.symbols.outermost? with
  | some id => (id, c)
  | none => c.openScope

/-! ## Declarations -/

def insert (c : Checker) (s : Symbol) : SymbolId × Checker :=
  let inserted := c.symbols.insert s
  (inserted.1, { c with symbols := inserted.2 })

def insertIn (c : Checker) (scope : ScopeId) (s : Symbol) : SymbolId × Checker :=
  let inserted := c.symbols.insertIn scope s
  (inserted.1, { c with symbols := inserted.2 })

def replaceIn (c : Checker) (scope : ScopeId) (s : Symbol) : SymbolId × Checker :=
  let replaced := c.symbols.replaceIn scope s
  (replaced.1, { c with symbols := replaced.2 })

/-- What is wrong with defining a function of type `ty` over an earlier symbol of its name. -/
def definitionFault (name : String) (prior ty : Ty) : Option CheckError :=
  if prior.params?.isSome then some (.redefinition name)
  else if prior.agrees ty then none
  else some (.conflictingTypes name)

def declarationFault (name : String) (prior ty : Ty) : Option CheckError :=
  if prior.agrees ty then none else some (.conflictingTypes name)

/-- Defines a function at file level. It takes the place of every earlier symbol of its name. -/
def defineFunction (c : Checker) (name : String) (ty : Ty) : SymbolId × Checker :=
  let file := c.outermost
  let c : Checker := { file.2 with returnType := some ty.result }
  let fault := (c.symbols.findIn? file.1 name).bind fun id =>
    definitionFault name (c.symbols.symbol id).ty ty
  (c.reportAny fault).replaceIn file.1 (.fresh name ty)

/-- Declares a function at file level; an earlier symbol of its name stays. -/
def declareFunction (c : Checker) (name : String) (ty : Ty) : SymbolId × Checker :=
  let file := c.outermost
  let c := file.2
  match c.symbols.findIn? file.1 name with
  | some id => (id, c.reportAny (declarationFault name (c.symbols.symbol id).ty ty))
  | none => c.insertIn file.1 (.fresh name ty)

/-- Declares a variable in the innermost scope; an earlier symbol of its name there stays. Only at
file level may a variable be declared again, with the same type. -/
def declareVariable (c : Checker) (name : String) (ty : Ty) : SymbolId × Checker :=
  match c.symbols.find? name with
  | some id =>
    if c.symbols.atOutermost then
      (id, c.reportAny (declarationFault name (c.symbols.symbol id).ty ty))
    else (id, c.report (.redeclaration name))
  | none => c.insert (.fresh name ty)

/-- The symbol that a name stands for. An unknown name is reported and then known as an error. -/
def resolve (c : Checker) (name : String) : SymbolId × Checker :=
  match c.symbols.lookup? name with
  | some id => (id, c)
  | none => (c.report (.undeclared name)).insert (.fresh name .error)

/-! ## Expressions and statements -/

def ident (c : Checker) (id : SymbolId) : Expr := .ofSymbol c.symbols id

def call (c : Checker) (callee : SymbolId) (args : List Expr) : Expr × Checker :=
  c.accept (Typing.call (c.symbols.symbol callee).ty callee args)

/-- A return in a function without a known result type is checked against the error type. -/
def ret (c : Checker) (e : Expr) : Stmt × Checker :=
  c.accept (Typing.ret (c.returnType.getD .error) e)

/-- Finishes a function whose body has been closed. -/
def function (c : Checker) (symbol : SymbolId) (scope : ScopeId) (body : List Stmt) :
    Function × Checker :=
  (⟨symbol, scope, body⟩, { c with returnType := none })

end Checker

end LittleC
