import LittleC.Ty.Basic

/-! # Symbols and scopes

Symbols and scopes are kept in the order of their creation and are known by their place in it. A
scope that was closed stays in the table with everything it declares; only the chain of open scopes
forgets it. -/

namespace LittleC

structure SymbolId where
  index : Nat
  deriving DecidableEq, Repr

structure ScopeId where
  index : Nat
  deriving DecidableEq, Repr

/-- A named binding; the offset is the place in the frame of a parameter or local, once it has
one. -/
structure Symbol where
  name : String
  ty : Ty
  offset : Option Int
  deriving Repr

/-- A symbol that has no place in a frame. -/
def Symbol.fresh (name : String) (ty : Ty) : Symbol := ⟨name, ty, none⟩

instance : Inhabited Symbol := ⟨.fresh "" .error⟩

/-- Names in declaration order, with the scopes opened while this one was the innermost. -/
structure Scope where
  parent : Option ScopeId
  bindings : List (String × SymbolId)
  children : List ScopeId
  deriving Repr

instance : Inhabited Scope := ⟨⟨none, [], []⟩⟩

namespace Scope

def find? (s : Scope) (name : String) : Option SymbolId :=
  (s.bindings.find? (·.1 == name)).map (·.2)

/-- Binds a name at the end, or in its old place when it is bound already. -/
def bind (s : Scope) (name : String) (id : SymbolId) : Scope :=
  if s.bindings.any (·.1 == name) then
    { s with bindings := s.bindings.map fun b => if b.1 == name then (name, id) else b }
  else
    { s with bindings := s.bindings ++ [(name, id)] }

def unbind (s : Scope) (name : String) : Scope :=
  { s with bindings := s.bindings.filter (·.1 != name) }

end Scope

/-- The open scopes form a chain, the innermost first. -/
structure SymbolTable where
  entries : List Symbol
  scopes : List Scope
  chain : List ScopeId
  deriving Repr

namespace SymbolTable

def empty : SymbolTable := ⟨[], [], []⟩

def symbol (t : SymbolTable) (id : SymbolId) : Symbol := t.entries.getD id.index default

def scope (t : SymbolTable) (id : ScopeId) : Scope := t.scopes.getD id.index default

def current? (t : SymbolTable) : Option ScopeId := t.chain.head?

/-- The first scope ever opened, which holds the file-level names. -/
def outermost? (t : SymbolTable) : Option ScopeId := if t.scopes.isEmpty then none else some ⟨0⟩

def atOutermost (t : SymbolTable) : Bool :=
  t.current?.any fun id => (t.scope id).parent.isNone

/-- The symbols of a scope in declaration order. -/
def symbols (t : SymbolTable) (id : ScopeId) : List SymbolId := (t.scope id).bindings.map (·.2)

/-! ## Opening and closing -/

def modifyScope (t : SymbolTable) (id : ScopeId) (f : Scope → Scope) : SymbolTable :=
  { t with scopes := t.scopes.modify id.index f }

def adopt (t : SymbolTable) (child : ScopeId) : Option ScopeId → SymbolTable
  | some parent => t.modifyScope parent fun s => { s with children := s.children ++ [child] }
  | none => t

/-- Opens a scope inside the innermost open one. -/
def openScope (t : SymbolTable) : ScopeId × SymbolTable :=
  let id : ScopeId := ⟨t.scopes.length⟩
  let opened : SymbolTable :=
    { t with scopes := t.scopes ++ [⟨t.current?, [], []⟩], chain := id :: t.chain }
  (id, opened.adopt id t.current?)

def closeScope (t : SymbolTable) : Option ScopeId × SymbolTable :=
  (t.current?, { t with chain := t.chain.tail })

/-! ## Finding names -/

def findIn? (t : SymbolTable) (id : ScopeId) (name : String) : Option SymbolId :=
  (t.scope id).find? name

/-- Looks in the innermost open scope only. -/
def find? (t : SymbolTable) (name : String) : Option SymbolId :=
  t.current?.bind (t.findIn? · name)

/-- Looks through the open scopes from the inside out. -/
def lookup? (t : SymbolTable) (name : String) : Option SymbolId :=
  t.chain.findSome? (t.findIn? · name)

/-! ## Adding names -/

def insertIn (t : SymbolTable) (id : ScopeId) (s : Symbol) : SymbolId × SymbolTable :=
  let entry : SymbolId := ⟨t.entries.length⟩
  let grown : SymbolTable := { t with entries := t.entries ++ [s] }
  (entry, grown.modifyScope id (·.bind s.name entry))

/-- Adds to the innermost open scope, and opens the outermost one when none is open. -/
def insert (t : SymbolTable) (s : Symbol) : SymbolId × SymbolTable :=
  match t.current? with
  | some id => t.insertIn id s
  | none => t.openScope.2.insertIn t.openScope.1 s

/-- Drops the old binding of the name and adds the new symbol at the end of the scope. -/
def replaceIn (t : SymbolTable) (id : ScopeId) (s : Symbol) : SymbolId × SymbolTable :=
  (t.modifyScope id (·.unbind s.name)).insertIn id s

theorem symbol_insertIn (t : SymbolTable) (id : ScopeId) (s : Symbol) :
    (t.insertIn id s).2.symbol (t.insertIn id s).1 = s := by
  simp [insertIn, modifyScope, symbol]

/-- Adding a symbol changes none of those before it. -/
theorem symbol_insertIn_of_lt (t : SymbolTable) (id : ScopeId) (s : Symbol) {x : SymbolId}
    (h : x.index < t.entries.length) : (t.insertIn id s).2.symbol x = t.symbol x := by
  simp [insertIn, modifyScope, symbol, List.getElem?_append_left h]

/-! ## Frame offsets and nesting -/

def setOffset (t : SymbolTable) (id : SymbolId) (offset : Int) : SymbolTable :=
  { t with entries := t.entries.modify id.index fun s => { s with offset := some offset } }

/-- All scopes inside a scope, each before those inside it. A child is always younger than its
parent, which bounds the walk. -/
def nested (t : SymbolTable) (id : ScopeId) : List ScopeId :=
  (t.scope id).children.flatMap fun child =>
    if id.index < child.index ∧ child.index < t.scopes.length then child :: t.nested child else []
termination_by t.scopes.length - id.index
decreasing_by omega

end SymbolTable

end LittleC
