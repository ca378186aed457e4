import LittleC.Proofs.Semantics.Eval

/-! # Expressions with calls

The reference meaning of every checked tree: calls run what their functions do, from left to right,
over a memory that is handed on. -/

namespace LittleC

/-- What is handed to a function for a parameter: its number, and how many bytes of it count. -/
structure Argument where
  size : Nat
  value : Int
  deriving DecidableEq, Repr

/-- What the functions of a program do with their arguments, and the variables, each at its place
with its size, that they must leave as they are. -/
structure Callees where
  result : SymbolId → List Argument → Memory → Option (Int × Memory)
  spared : List (Word × Nat)

namespace Callees

/-- The variables have the numbers that they had. -/
def spares (C : Callees) (M M' : Memory) : Bool :=
  C.spared.all fun p => M'.load p.1 p.2 == M.load p.1 p.2

/-- A call has no value if it writes a spared variable. -/
def call (C : Callees) (f : SymbolId) (args : List Argument) : StateT Memory Option Int := fun M =>
  (C.result f args M).filter fun r => C.spares M r.2

theorem call_eq_some {C : Callees} {f : SymbolId} {args : List Argument} {M M' : Memory} {x : Int}
    (h : C.call f args M = some (x, M')) :
    C.result f args M = some (x, M') ∧ ∀ p ∈ C.spared, M'.load p.1 p.2 = M.load p.1 p.2 := by
  obtain ⟨hresult, hspares⟩ := Option.filter_eq_some_iff.mp h
  exact ⟨hresult, fun p hp => beq_iff_eq.mp (List.all_eq_true.mp hspares p hp)⟩

end Callees

/-- A number that is read off the memory, which stays. -/
def reading (g : Memory → Option Int) : StateT Memory Option Int := fun M => (g M).map (·, M)

section
variable {α β : Type} {M M' : Memory}

theorem reading_eq_some {g : Memory → Option Int} {x : Int} (h : reading g M = some (x, M')) :
    g M = some x ∧ M' = M := by
  obtain ⟨y, hy, heq⟩ := Option.map_eq_some_iff.mp h
  cases heq
  exact ⟨hy, rfl⟩

theorem reading_bind (g : Memory → Option Int) (h : Int → Memory → Option Int) :
    (reading g >>= fun x => reading (h x)) = reading fun M => (g M).bind (h · M) := by
  funext M
  show ((g M).map (·, M)).bind _ = ((g M).bind _).map _
  cases g M <;> rfl

theorem reading_map (g : Memory → Option Int) (h : Int → Int) :
    (reading g >>= fun x => pure (h x)) = reading fun M => (g M).map h :=
  (reading_bind g fun x _ => some (h x)).trans
    (congrArg reading (funext fun _ => Option.map_eq_bind.symm))

/-- A computation in two parts has a value if both have. -/
theorem bind_eq_some {f : StateT Memory Option α} {g : α → StateT Memory Option β} {y : β}
    (h : (f >>= g) M = some (y, M')) : ∃ x M₁, f M = some (x, M₁) ∧ g x M₁ = some (y, M') := by
  obtain ⟨⟨x, M₁⟩, hx, hy⟩ := Option.bind_eq_some_iff.mp h
  exact ⟨x, M₁, hx, hy⟩

/-- What a computation in two parts gives behind its first part. -/
theorem bind_of_eq_some {f : StateT Memory Option α} {g : α → StateT Memory Option β} {x : α}
    (h : f M = some (x, M')) : (f >>= g) M = g x M' := by
  show (f M).bind _ = _
  rw [h]
  rfl

end

namespace Expr

mutual
/-- Computes a tree that comes after `k` string literals. -/
def run (E : Env) (C : Callees) (k : Nat) : Expr → StateT Memory Option Int
  | number v i => pure (wrap i.ty.size v)
  | text _ _ => failure
  | ident x i => if i.ty.isScalar then reading (E.load · i.ty.size (E.place x)) else failure
  | call f args _ => do
    let values ← runAll E C k args
    C.call f values
  | unary .negate e i => do
    let v ← e.run E C k
    pure (wrap i.ty.size (-v))
  | unary .logicalNot e _ => do
    let v ← e.run E C k
    pure (truth (v == 0))
  | unary .deref p i => do
    let a ← p.run E C k
    reading (E.load · i.ty.size (.ofInt 64 a))
  | unary .address (unary .deref p _) _ => p.run E C k
  | unary .address (ident x _) _ => pure (signed 8 (E.place x))
  | unary .address (text _ _) _ => pure (signed 8 (E.text k))
  | unary .address _ _ => failure
  | cast e i => do
    let v ← e.run E C k
    pure (wrap i.ty.size v)
  | binary op l r i => do
    let x ← l.run E C k
    if op.skips x then pure (truth (x != 0))
    else
      let y ← r.run E C (k + l.textCount)
      reading fun _ => op.apply i.ty.size x y

/-- Computes arguments from the first to the last. -/
def runAll (E : Env) (C : Callees) (k : Nat) : List Expr → StateT Memory Option (List Argument)
  | [] => pure []
  | e :: es => do
    let v ← e.run E C k
    let vs ← runAll E C (k + e.textCount) es
    pure (⟨e.ty.size, v⟩ :: vs)
end

mutual
/-- The variables that are operands of a tree, with their sizes. A variable of which only the
address is taken is none. -/
def operands : Expr → List (SymbolId × Nat)
  | number _ _ | text _ _ => []
  | ident x i => if i.ty.isScalar then [(x, i.ty.size)] else []
  | call _ args _ => operandsAll args
  | unary .address (ident _ _) _ => []
  | unary _ e _ | cast e _ => e.operands
  | binary _ l r _ => l.operands ++ r.operands

def operandsAll : List Expr → List (SymbolId × Nat)
  | [] => []
  | e :: es => e.operands ++ operandsAll es
end

end Expr

end LittleC
