import LittleC.Ty.Basic

/-! # Laws of types

The shapes as equations, agreement as a reflexive and symmetric relation, and promotion as something
that is done once. -/

namespace LittleC.Ty

/-! ## Shapes -/

theorem isError_iff {t : Ty} : t.isError = true ↔ t = .error := by
  cases t <;> simp [isError]

theorem isScalar_iff {t : Ty} : t.isScalar = true ↔ ∃ b d, t = .scalar b d := by
  cases t <;> simp [isScalar]

theorem isNumeric_iff {t : Ty} : t.isNumeric = true ↔ ∃ b, t = .scalar b 0 := by
  cases t <;> simp [isNumeric, isScalar, depth]

theorem isDataPointer_iff {t : Ty} : t.isDataPointer = true ↔ ∃ b d, t = .scalar b (d + 1) := by
  cases t with
  | scalar b d => cases d <;> simp [isDataPointer, isScalar, depth]
  | _ => simp [isDataPointer, isScalar]

/-! ## Agreement -/

/-- Only a scalar type itself agrees with it. -/
theorem agrees_scalar_iff {t : Ty} {b : Base} {d : Nat} :
    t.agrees (.scalar b d) = true ↔ t = .scalar b d := by
  cases t <;> simp [agrees]

mutual
theorem agrees_refl : ∀ t : Ty, t.agrees t = true
  | .error | .scalar .. | .array .. | .funcUnspecified .. => by simp [agrees]
  | .func _ _ ps => by simp [agrees, agreesAll_refl ps]

theorem agreesAll_refl : ∀ ts : List Ty, agreesAll ts ts = true
  | [] => by simp [agreesAll]
  | t :: ts => by simp [agreesAll, agrees_refl t, agreesAll_refl ts]
end

mutual
theorem agrees_comm : ∀ t u : Ty, t.agrees u = u.agrees t
  | .func b d ps, u => by
    cases u with
    | func b' d' ps' =>
        simp [agrees, agreesAll_comm ps ps', Bool.beq_comm (a := b), Bool.beq_comm (a := d)]
    | _ => simp [agrees, BEq.comm]
  | .error, u | .scalar .., u | .array .., u | .funcUnspecified .., u => by
    cases u <;> simp [agrees, BEq.comm]

theorem agreesAll_comm : ∀ ts us : List Ty, agreesAll ts us = agreesAll us ts
  | [], us => by cases us <;> simp [agreesAll]
  | t :: ts, [] => by simp [agreesAll]
  | t :: ts, u :: us => by simp [agreesAll, agrees_comm t u, agreesAll_comm ts us]
end

/-! ## Promotion -/

theorem promote_promote (t : Ty) : t.promote.promote = t.promote := by
  cases t with
  | scalar b d => cases b <;> cases d <;> rfl
  | array b d n => cases b <;> rfl
  | _ => rfl

theorem isError_promote (t : Ty) : t.promote.isError = t.isError := by
  cases t with
  | scalar b d => cases b <;> cases d <;> rfl
  | _ => rfl

/-! ## Sizes -/

/-- A count that a signed 64-bit number can hold is that number. -/
theorem signedBytes_of_lt {n : Nat} (h : n < 0x8000000000000000) : signedBytes n = n := by
  unfold signedBytes
  exact Int.bmod_eq_of_le (by omega) (by omega)

/-- Every scalar has one of the three access widths. -/
theorem size_scalar (b : Base) (d : Nat) :
    (scalar b d).size = 1 ∨ (scalar b d).size = 4 ∨ (scalar b d).size = 8 := by
  cases d with
  | zero => cases b <;> decide
  | succ d => exact Or.inr (Or.inr (by simp [size, elementSize, depth, pointerSize]))

end LittleC.Ty
