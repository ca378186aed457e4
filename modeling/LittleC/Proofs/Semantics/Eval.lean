import LittleC.Proofs.Machine.Step
import LittleC.Tree.Expr

/-! # Values of checked expressions

The reference meaning of a tree without calls: numbers with a sign that wrap at the size of a node.
A tree has no value when it divides by zero, when a quotient overflows, and when it reads an address
that the program does not own. -/

namespace LittleC

/-- Where names and string literals are, the literals counted in the order of the program, and which
addresses belong to the program. -/
structure Env where
  place : SymbolId → Word
  text : Nat → Word
  owned : Word → Bool

namespace Env

/-- All `n` bytes at `a` belong to the program. -/
def owns (E : Env) (a : Word) (n : Nat) : Bool :=
  (List.range n).all fun i => E.owned (a + .ofNat 64 i)

def load (E : Env) (M : Memory) (n : Nat) (a : Word) : Option Int :=
  if E.owns a n then some (signed n (M.load a n)) else none

end Env

/-- The number that stands for a truth value. -/
def truth (b : Bool) : Int := if b then 1 else 0

namespace BinaryOp

/-- The left operand alone decides. -/
def skips (op : BinaryOp) (x : Int) : Bool :=
  match op with
  | .land => x == 0
  | .lor => x != 0
  | _ => false

/-- The result in `n` bytes over both operands. -/
def apply (op : BinaryOp) (n : Nat) (x y : Int) : Option Int :=
  match op with
  | .add => some (wrap n (x + y))
  | .sub => some (wrap n (x - y))
  | .mul => some (wrap n (x * y))
  | .div => if y ≠ 0 ∧ wrap n (x.tdiv y) = x.tdiv y then some (x.tdiv y) else none
  | .rem => if y ≠ 0 ∧ wrap n (x.tdiv y) = x.tdiv y then some (x.tmod y) else none
  | .compare c => some (truth (c.eval x y))
  | .land | .lor => some (truth (y != 0))

end BinaryOp

namespace Expr

mutual
/-- The string literals in a tree. -/
def textCount : Expr → Nat
  | number _ _ | ident _ _ => 0
  | text _ _ => 1
  | call _ args _ => textCountAll args
  | unary _ e _ | cast e _ => e.textCount
  | binary _ l r _ => l.textCount + r.textCount

def textCountAll : List Expr → Nat
  | [] => 0
  | e :: es => e.textCount + textCountAll es
end

/-- The value of a tree that comes after `k` string literals, over the memory `M`. -/
def eval (E : Env) (M : Memory) (k : Nat) : Expr → Option Int
  | number v _ => some v
  | text _ _ => none
  | ident x i => if i.ty.isScalar then E.load M i.ty.size (E.place x) else none
  | call _ _ _ => none
  | unary .negate e i => (e.eval E M k).map fun v => wrap i.ty.size (-v)
  | unary .logicalNot e _ => (e.eval E M k).map fun v => truth (v == 0)
  | unary .deref p i => (p.eval E M k).bind fun a => E.load M i.ty.size (.ofInt 64 a)
  | unary .address (unary .deref p _) _ => p.eval E M k
  | unary .address (ident x _) _ => some (signed 8 (E.place x))
  | unary .address (text _ _) _ => some (signed 8 (E.text k))
  | unary .address _ _ => none
  | cast e i => (e.eval E M k).map (wrap i.ty.size)
  | binary op l r i =>
    (l.eval E M k).bind fun x =>
      if op.skips x then some (truth (x != 0))
      else (r.eval E M (k + l.textCount)).bind (op.apply i.ty.size x)

end Expr

/-! ## Owned bytes -/

section
variable {E : Env} {a b : Word} {n : Nat}

theorem Env.owned_of_covers (h : E.owns a n = true) (hb : Covers a n b) : E.owned b = true := by
  have hall := List.all_eq_true.mp h (b - a).toNat (List.mem_range.mpr hb)
  rwa [BitVec.ofNat_toNat, BitVec.setWidth_eq, BitVec.add_comm, BitVec.sub_add_cancel] at hall

theorem Env.load_eq_some {M : Memory} {x : Int} (h : E.load M n a = some x) :
    E.owns a n = true ∧ signed n (M.load a n) = x := by
  unfold Env.load at h
  split at h
  · next howns => exact ⟨howns, Option.some.inj h⟩
  · cases h

/-- A load reads owned bytes only. -/
theorem Env.load_congr {M M' : Memory} (hn : n ≤ 8) (h : ∀ b, E.owned b = true → M' b = M b)
    (howns : E.owns a n = true) : M'.load a n = M.load a n :=
  Memory.load_congr hn fun b hb => h b (Env.owned_of_covers howns hb)

end

end LittleC
