import LittleC.Tree.Expr
import LittleC.Ty.Lemmas

/-! # Implicit conversions

Each conversion wraps the operand into a node that shows it. Promotion turns arrays into pointers
and `char` into `int`; extension widens a number towards another operand; conversion is what
assignment does. -/

namespace LittleC

/-- A number that an operand of type `target` widens: any number beside a `char`, and `long` beside
any. -/
def Ty.widensTo (t target : Ty) : Bool :=
  !t.agrees target && t.isNumeric && target.isNumeric && (t.base == .char || target.base == .long)

namespace Expr

def promote (e : Expr) : Expr :=
  match e.ty with
  | .array .. => .unary .address e (.value e.ty.promote)
  | .scalar .char 0 => .cast e (.value .int)
  | _ => e

/-- Widens a number towards `target`, never narrows it, and promotes what it has then. -/
def extend (e : Expr) (target : Ty) : Expr :=
  (if e.ty.widensTo target then .cast e (.value target) else e).promote

/-- Arrays go to pointers where a pointer is wanted, and numbers to the wanted number. -/
def convert (e : Expr) (target : Ty) : Expr :=
  let e := if e.ty.isArray && target.isPointer then e.promote else e
  if !e.ty.agrees target && e.ty.isNumeric && target.isNumeric then .cast e (.value target) else e

/-- A conversion to `target`, left out when the operand has that type already. -/
def castTo (e : Expr) (target : Ty) : Expr :=
  if e.ty.agrees target then e else .cast e (.value target)

/-- A count of elements as a count of bytes, for elements that `pointer` points to. -/
def scale (e : Expr) (pointer : Ty) : Expr :=
  .binary .mul e (.number pointer.deref.signedSize (.value .long)) (.value .long)

/-! ## Types of converted operands -/

theorem ty_promote (e : Expr) : e.promote.ty = e.ty.promote := by
  unfold promote
  split
  · rfl
  · next h => rw [h]; rfl
  · next array char => rw [Ty.promote.eq_def]; split <;> simp_all

theorem ty_extend (e : Expr) (target : Ty) :
    (e.extend target).ty = if e.ty.widensTo target then target.promote else e.ty.promote := by
  unfold extend
  rw [ty_promote]
  split <;> rfl

/-- After a cast to a number or pointer type the operand has that type. -/
theorem ty_castTo_scalar (e : Expr) (b : Base) (d : Nat) :
    (e.castTo (.scalar b d)).ty = .scalar b d := by
  unfold castTo
  split
  · next h => exact Ty.agrees_scalar_iff.mp h
  · rfl

/-! ## Nodes of conversions -/

/-- A conversion promotes its operand or leaves it, and then casts one number type to another or
not. -/
theorem convert_cases {motive : Expr → Prop} {e : Expr} {target : Ty} (hself : motive e)
    (hpromote : motive e.promote)
    (hcast : ∀ p : Expr, motive p → p.ty.isNumeric = true → target.isNumeric = true →
      motive (.cast p (.value target))) : motive (e.convert target) := by
  have hoperand : motive (if e.ty.isArray && target.isPointer then e.promote else e) := by
    split
    · exact hpromote
    · exact hself
  unfold convert
  revert hoperand
  generalize (if e.ty.isArray && target.isPointer then e.promote else e) = p
  intro hp
  dsimp only
  split
  · next h =>
      simp only [Bool.and_eq_true] at h
      exact hcast p hp h.1.2 h.2
  · exact hp

end Expr

end LittleC
