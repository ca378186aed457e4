import LittleC.Proofs.Ty.Agreement
import LittleC.Typing.Unary
import LittleC.Typing.Verdict

/-! # The typing rules as tables

For each operation the table of the operand types it is for, with the type of the result. Operand
types are promoted, so they are numbers, pointers or neither. Checking accepts exactly what stands
in the tables: there it reports nothing and gives the type of the table, everywhere else it reports
the mistake of the operation. -/

namespace LittleC

namespace Ty

/-- Types whose values may meet in a comparison, an assignment or a return: any two numbers, a
pointer and its like, and a plain pointer and a pointer to a pointer. -/
def related : Ty → Ty → Bool
  | .scalar _ 0, .scalar _ 0 => true
  | .scalar b (d + 1), .scalar c (e + 1) => (b == c && d == e) || (d == 0) != (e == 0)
  | _, _ => false

/-- An argument of type `arg` converts to a parameter: a number to any number, an array to the
pointer it promotes to, anything else only to its own type. -/
def passes (arg : Ty) : Ty → Bool
  | .scalar _ 0 => arg.isNumeric
  | .scalar b (d + 1) => arg.promote.agrees (.scalar b (d + 1))
  | param => arg.agrees param && !(arg.isArray && param.isPointer)

end Ty

namespace BinaryOp

/-- The type of the result over operands of the given promoted types. -/
def table : BinaryOp → Ty → Ty → Option Ty
  | .add, .scalar b 0, .scalar c 0 => some (.scalar (b.join c) 0)
  | .add, .scalar b (d + 1), .scalar _ 0 => some (.scalar b (d + 1))
  | .add, .scalar _ 0, .scalar c (e + 1) => some (.scalar c (e + 1))
  | .sub, .scalar b 0, .scalar c 0 => some (.scalar (b.join c) 0)
  | .sub, .scalar b (d + 1), .scalar _ 0 => some (.scalar b (d + 1))
  | .sub, .scalar b (d + 1), .scalar c (e + 1) => if b = c ∧ d = e then some .long else none
  | .mul, .scalar b 0, .scalar c 0 => some (.scalar (b.join c) 0)
  | .div, .scalar b 0, .scalar c 0 => some (.scalar (b.join c) 0)
  | .rem, .scalar b 0, .scalar c 0 => some (.scalar (b.join c) 0)
  | .compare _, p, q => if p.related q then some .int else none
  | .land, .scalar .., .scalar .. => some .int
  | .lor, .scalar .., .scalar .. => some .int
  | _, _, _ => none

end BinaryOp

namespace Typing

def indexTable : Ty → Ty → Option Ty
  | .scalar b (d + 1), .scalar _ 0 => some (.scalar b d)
  | _, _ => none

def notTable : Ty → Option Ty
  | .scalar .. => some .int
  | _ => none

def negateTable : Ty → Option Ty
  | .scalar b 0 => some (.scalar b 0)
  | _ => none

def derefTable : Ty → Option Ty
  | .scalar b (d + 1) => some (.scalar b d)
  | _ => none

/-- The result of a cast to `target`. -/
def castTable : Ty → Ty → Option Ty
  | .scalar b 0, .scalar _ 0 => some (.scalar b 0)
  | .scalar b (d + 1), .scalar _ (_ + 1) => some (.scalar b (d + 1))
  | .scalar b (d + 1), .scalar .long 0 => some (.scalar b (d + 1))
  | .scalar .long 0, .scalar _ (_ + 1) => some .long
  | _, _ => none

/-- The result of a call with arguments of the given types. -/
def callTable : Ty → List Ty → Option Ty
  | .func b d params, args =>
    if params.length = args.length ∧ (args.zip params).all fun (a, p) => a.passes p then
      some (.scalar b d)
    else none
  | .funcUnspecified b d, _ => some (.scalar b d)
  | _, _ => none

/-- What is wrong with a call that the table does not have. -/
def callFault (callee : Ty) : CheckError :=
  if callee.isFunction then .invalidArguments else .notAFunction

/-- What is wrong with an assignment of a value of promoted type `value`. -/
def assignFault (target : Ty) (lvalue : Bool) (value : Ty) : Option CheckError :=
  if !lvalue then some .lvalueRequired
  else if target.related value then none
  else some (.invalidBinaryOperands "=")

/-- What is wrong with returning a value of promoted type `value` where `expected` is wanted.
Without a proper result type nothing is. -/
def retFault (expected value : Ty) : Option CheckError :=
  if expected.isError || expected.related value then none else some .invalidReturnType

/-- A condition is any single value. -/
def testFault (condition : Ty) : Option CheckError :=
  if condition.isScalar then none else some .invalidTest

end Typing

/-- The verdict on an expression is that of a table entry: its type and no fault, or else an error
and the given fault. -/
def Verdict.Decides (v : Verdict Expr) (entry : Option Ty) (fault : CheckError) : Prop :=
  match entry with
  | some ty => v.node.ty = ty ∧ v.fault = none
  | none => v.node.ty = .error ∧ v.fault = some fault

/-! ## Laws of promoted types -/

namespace Ty

/-- A type is a number, a pointer or no single value. -/
theorem kinds (t : Ty) :
    (∃ b, t = .scalar b 0) ∨ (∃ b d, t = .scalar b (d + 1)) ∨ t.isScalar = false := by
  cases t with
  | scalar b d =>
      cases d with
      | zero => exact Or.inl ⟨b, rfl⟩
      | succ d => exact Or.inr (Or.inl ⟨b, d, rfl⟩)
  | _ => exact Or.inr (Or.inr rfl)

theorem isNumeric_of_not_isScalar {t : Ty} (h : t.isScalar = false) : t.isNumeric = false := by
  rw [isNumeric, h, Bool.false_and]

theorem isDataPointer_of_not_isScalar {t : Ty} (h : t.isScalar = false) :
    t.isDataPointer = false := by
  rw [isDataPointer, h, Bool.false_and]

theorem agrees_of_not_isScalar {t : Ty} (h : t.isScalar = false) (b : Base) (d : Nat) :
    t.agrees (.scalar b d) = false := by
  cases hagree : t.agrees (.scalar b d) with
  | false => rfl
  | true =>
      rw [agrees_scalar_iff.mp hagree] at h
      cases h

theorem isNumeric_pointer (b : Base) (d : Nat) : (scalar b (d + 1)).isNumeric = false := rfl

theorem isDataPointer_pointer (b : Base) (d : Nat) : (scalar b (d + 1)).isDataPointer = true := by
  simp [isDataPointer, isScalar, depth]

theorem related_of_not_isScalar {p q : Ty} (h : p.isScalar = false ∨ q.isScalar = false) :
    p.related q = false := by
  unfold related
  split
  · rcases h with h | h <;> cases h
  · rcases h with h | h <;> cases h
  · rfl

/-- Beside two numbers, promoted types are compatible exactly when they are related. -/
theorem compatible_eq_related {p q : Ty} (hp : p.promote = p) (hq : q.promote = q)
    (h : (p.isNumeric && q.isNumeric) = false) : p.compatible q = p.related q := by
  simp only [compatible, hp, hq]
  obtain ⟨b, rfl⟩ | ⟨b, d, rfl⟩ | hns := p.kinds
  · obtain ⟨c, rfl⟩ | ⟨c, e, rfl⟩ | hns := q.kinds
    · cases h
    · simp [isScalar, agrees, isGenericPair, depth, related]
    · rw [related_of_not_isScalar (Or.inr hns), hns]
      simp
  · obtain ⟨c, rfl⟩ | ⟨c, e, rfl⟩ | hns := q.kinds
    · simp [isScalar, agrees, isGenericPair, depth, related]
    · cases d <;> cases e <;> simp [isScalar, agrees, isGenericPair, depth, related]
    · rw [related_of_not_isScalar (Or.inr hns), hns]
      simp
  · rw [related_of_not_isScalar (Or.inl hns), hns]
    simp

theorem isNumeric_of_isArray {t : Ty} (h : t.isArray = true) : t.isNumeric = false := by
  cases t <;> first | rfl | cases h

/-- A type that arithmetic is done at is compatible with itself. -/
theorem IsWide.compatible_self {t : Ty} (h : t.IsWide) : t.compatible t = true := by
  rcases h with rfl | rfl <;> rfl

end Ty

/-- No operator but a comparison of related types takes anything but single values. -/
theorem BinaryOp.table_of_not_isScalar {op : BinaryOp} {p q : Ty}
    (h : p.isScalar = false ∨ q.isScalar = false) : op.table p q = none := by
  unfold table
  split
  case h_10 => rw [Ty.related_of_not_isScalar h, if_neg Bool.false_ne_true]
  case h_13 => rfl
  all_goals rcases h with h | h <;> cases h

theorem Typing.indexTable_of_not_isScalar {p q : Ty}
    (h : p.isScalar = false ∨ q.isScalar = false) : indexTable p q = none := by
  unfold indexTable
  split
  · rcases h with h | h <;> cases h
  · rfl

theorem Typing.castTable_of_not_isScalar {p q : Ty}
    (h : p.isScalar = false ∨ q.isScalar = false) : castTable p q = none := by
  unfold castTable
  split
  case h_5 => rfl
  all_goals rcases h with h | h <;> cases h

/-! ## Verdicts of the tables -/

theorem judge_decides {operands : List Ty} {legal : Bool} {result : Ty} {fault : CheckError}
    {node : Ty → Expr} {entry : Option Ty} (hnode : ∀ ty, (node ty).ty = ty)
    (hoperands : operands.any (·.isError) = false)
    (hentry : entry = if legal then some result else none) :
    (judge operands legal result fault node).Decides entry fault := by
  unfold judge
  rw [hoperands, hentry]
  cases legal
  · exact ⟨hnode _, rfl⟩
  · exact ⟨hnode _, rfl⟩

end LittleC
