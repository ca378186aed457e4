import LittleC.Tree.Stmt

/-! # Frames

Where the parameters and locals of a function live, relative to the frame base. The first six
parameters and all locals lie below the base, each right below the one before; further parameters
lie above it, where the caller pushed them. -/

namespace LittleC

/-- Parameters that arrive in registers. -/
def registerArgs : Nat := 6

/-- Bytes of a stack word, and of every argument pushed. -/
def wordSize : Nat := 8

/-- The nearest multiple of sixteen from `n` upwards, for a displacement that is not negative. -/
def alignFrame (n : Int) : Int := (n + 15).tdiv 16 * 16

structure Slot where
  symbol : SymbolId
  offset : Int
  deriving DecidableEq, Repr

/-- Slots in declaration order, and how far the lowest lies below the frame base. -/
structure Layout where
  slots : List Slot
  displacement : Int
  deriving DecidableEq, Repr

def Layout.size (l : Layout) : Int := alignFrame l.displacement

/-- The number of listed parameters of a function. -/
def SymbolTable.paramCount (t : SymbolTable) (f : SymbolId) : Nat :=
  ((t.symbol f).ty.params?.getD []).length

namespace Frame

/-- Where the caller pushed the parameter at `index`: above the saved frame base and the return
address. -/
def pushedOffset (index : Nat) : Int := (wordSize * (index - registerArgs) + 2 * wordSize : Nat)

/-- The place of the symbol at `index` of a function's own scope, if the caller decides it. -/
def pushedPlace (params index : Nat) : Option Int :=
  if registerArgs ≤ index ∧ index < params then some (pushedOffset index) else none

/-- The symbols of a function's scopes in declaration order, each with the place that the caller
decides for it, if any. -/
def demands (t : SymbolTable) (f : Function) : List (SymbolId × Option Int) :=
  ((t.symbols f.scope).mapIdx fun i id => (id, pushedPlace (t.paramCount f.symbol) i)) ++
    ((t.nested f.scope).flatMap t.symbols).map fun id => (id, none)

/-- Gives each symbol its place; `lowest` is the lowest offset in use. -/
def place (t : SymbolTable) (lowest : Int) : List (SymbolId × Option Int) → List Slot
  | [] => []
  | (id, some offset) :: rest => ⟨id, offset⟩ :: place t lowest rest
  | (id, none) :: rest =>
    let offset := lowest - (t.symbol id).ty.signedSize
    ⟨id, offset⟩ :: place t offset rest

/-- The bytes below the frame base that the symbols take. -/
def bytesBelow (t : SymbolTable) : List (SymbolId × Option Int) → Int
  | [] => 0
  | (_, some _) :: rest => bytesBelow t rest
  | (id, none) :: rest => (t.symbol id).ty.signedSize + bytesBelow t rest

def layout (t : SymbolTable) (f : Function) : Layout :=
  ⟨place t 0 (demands t f), bytesBelow t (demands t f)⟩

end Frame

namespace SymbolTable

/-- Writes the places of a layout into the table. -/
def settle (t : SymbolTable) (l : Layout) : SymbolTable :=
  l.slots.foldl (fun t s => t.setOffset s.symbol s.offset) t

/-- Gives every symbol of a function its place. -/
def allocate (t : SymbolTable) (f : Function) : Layout × SymbolTable :=
  (Frame.layout t f, t.settle (Frame.layout t f))

def allocateAll (t : SymbolTable) : List Function → List Layout × SymbolTable
  | [] => ([], t)
  | f :: fs =>
    let first := t.allocate f
    let rest := first.2.allocateAll fs
    (first.1 :: rest.1, rest.2)

end SymbolTable

end LittleC
