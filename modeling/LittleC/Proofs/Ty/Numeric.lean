import LittleC.Typing.Coercion

/-! # Numbers, pointers and the width of an operation

Which scalars there are after promotion, and the type at which two numbers meet. -/

namespace LittleC

namespace Ty

theorem isError_of_isNumeric {t : Ty} (h : t.isNumeric = true) : t.isError = false := by
  obtain ⟨b, rfl⟩ := isNumeric_iff.mp h
  rfl

theorem isError_of_isScalar {t : Ty} (h : t.isScalar = true) : t.isError = false := by
  obtain ⟨b, d, rfl⟩ := isScalar_iff.mp h
  rfl

theorem isScalar_of_isNumeric {t : Ty} (h : t.isNumeric = true) : t.isScalar = true := by
  obtain ⟨b, rfl⟩ := isNumeric_iff.mp h
  rfl

theorem isScalar_of_isDataPointer {t : Ty} (h : t.isDataPointer = true) : t.isScalar = true := by
  obtain ⟨b, d, rfl⟩ := isDataPointer_iff.mp h
  rfl

/-- A scalar is a number or a pointer, and not both. -/
theorem isScalar_eq (t : Ty) : t.isScalar = (t.isNumeric || t.isDataPointer) := by
  cases t with
  | scalar b d => cases d <;> rfl
  | _ => rfl

theorem size_of_isDataPointer {t : Ty} (h : t.isDataPointer = true) : t.size = 8 := by
  obtain ⟨b, d, rfl⟩ := isDataPointer_iff.mp h
  simp [size, elementSize, depth, pointerSize]

/-- A function gives a single value. -/
theorem isScalar_result {t : Ty} (h : t.isFunction = true) : t.result.isScalar = true := by
  cases t with
  | func => rfl
  | funcUnspecified => rfl
  | _ => cases h

/-- The range of `long`: 64 bits with a sign. -/
def fitsLong (v : Int) : Bool := -0x8000000000000000 ≤ v && v < 0x8000000000000000

/-- The two types that arithmetic is done at. -/
def IsWide (t : Ty) : Prop := t = .int ∨ t = .long

theorem IsWide.isNumeric {t : Ty} (h : t.IsWide) : t.isNumeric = true := by
  rcases h with rfl | rfl <;> rfl

theorem isWide_promote {t : Ty} (h : t.promote.isNumeric = true) : t.promote.IsWide := by
  cases t with
  | scalar b d =>
      cases d with
      | zero =>
          cases b
          · exact Or.inl rfl
          · exact Or.inl rfl
          · exact Or.inr rfl
      | succ d => cases b <;> cases h
  | _ => cases h

/-- Only a number promotes to a number. -/
theorem isNumeric_promote (t : Ty) : t.promote.isNumeric = t.isNumeric := by
  cases t with
  | scalar b d => cases b <;> cases d <;> rfl
  | _ => rfl

/-- A promoted type is no array and no `char`. -/
theorem isLogical_promote (t : Ty) : t.promote.isLogical = t.promote.isScalar := by
  cases t with
  | scalar b d => cases b <;> cases d <;> rfl
  | _ => rfl

theorem promote_ne_char (t : Ty) : t.promote ≠ .char := by
  cases t with
  | scalar b d => cases b <;> cases d <;> simp [promote]
  | _ => simp [promote]

/-- A generic pair is of pointers. -/
theorem isDataPointer_of_isGenericPair {b c : Base} {d e : Nat}
    (h : isGenericPair (.scalar b d) (.scalar c e) = true) :
    (scalar b d).isDataPointer = true ∧ (scalar c e).isDataPointer = true := by
  change (decide (1 < d) && e == 1) = true at h
  change (true && decide (0 < d)) = true ∧ (true && decide (0 < e)) = true
  simp only [Bool.and_eq_true, decide_eq_true_eq, beq_iff_eq, true_and] at h ⊢
  omega

/-- Compatible types that are promoted already are scalars of one size. -/
theorem size_of_compatible {t u : Ty} (ht : t.promote = t) (hu : u.promote = u)
    (h : t.compatible u = true) :
    t.isScalar = true ∧ u.isScalar = true ∧ t.size = u.size := by
  simp only [compatible, ht, hu, Bool.and_eq_true, Bool.or_eq_true] at h
  obtain ⟨⟨hst, hsu⟩, hpair⟩ := h
  refine ⟨hst, hsu, ?_⟩
  obtain ⟨b, d, rfl⟩ := isScalar_iff.mp hst
  obtain ⟨c, e, rfl⟩ := isScalar_iff.mp hsu
  rcases hpair with (hagree | hpair) | hpair
  · rw [agrees_scalar_iff.mp hagree]
  · obtain ⟨hd, he⟩ := isDataPointer_of_isGenericPair hpair
    rw [size_of_isDataPointer hd, size_of_isDataPointer he]
  · obtain ⟨he, hd⟩ := isDataPointer_of_isGenericPair hpair
    rw [size_of_isDataPointer hd, size_of_isDataPointer he]

end Ty

/-- The base at which two numbers meet. -/
def Base.join : Base → Base → Base
  | .long, _ | _, .long => .long
  | _, _ => .int

theorem Base.isWide_join (b c : Base) : (Ty.scalar (b.join c) 0).IsWide := by
  cases b <;> cases c <;> simp [join, Ty.IsWide]

namespace Expr

/-- Widened towards the right number, the left one has the type at which both meet. -/
theorem ty_extend_left {e : Expr} {b : Base} (he : e.ty = .scalar b 0) (c : Base) :
    (e.extend (.scalar c 0)).ty = .scalar (b.join c) 0 := by
  rw [ty_extend, he]
  cases b <;> cases c <;> rfl

/-- Widened towards what the left number has become, the right one has that type. -/
theorem ty_extend_right {e : Expr} {c : Base} (he : e.ty = .scalar c 0) (b : Base) :
    (e.extend (.scalar (b.join c) 0)).ty = .scalar (b.join c) 0 := by
  rw [ty_extend, he]
  cases b <;> cases c <;> rfl

/-- Anything but two numbers is only promoted. -/
theorem ty_extend_of_not_numeric {e : Expr} {target : Ty}
    (h : (e.ty.isNumeric && target.isNumeric) = false) :
    (e.extend target).ty = e.ty.promote := by
  have hnot : e.ty.widensTo target = false := by
    rw [Ty.widensTo, Bool.and_assoc _ e.ty.isNumeric, h]
    simp
  rw [ty_extend, hnot]
  rfl

/-- A widened operand is promoted. -/
theorem promote_ty_extend (e : Expr) (target : Ty) :
    (e.extend target).ty.promote = (e.extend target).ty := by
  rw [ty_extend]
  split <;> exact Ty.promote_promote _

/-- A number widened to `long` has that type. -/
theorem ty_extend_long {e : Expr} (h : e.ty.isNumeric = true) : (e.extend .long).ty = .long := by
  obtain ⟨b, hb⟩ := Ty.isNumeric_iff.mp h
  rw [ty_extend_left hb .long]
  cases b <;> rfl

end Expr

end LittleC
