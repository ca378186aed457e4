import LittleC.Proofs.Typing.Rules

/-! # Pointers and counts of elements

A sum of a pointer and a number moves the pointer by elements, and so do a difference and an index:
all of them widen the number to `long`, scale it and promote the pointer. So indexing gives the tree
of a dereferenced sum, and what it refuses is reported as its own mistake. -/

namespace LittleC

theorem Ty.isNumeric_of_isDataPointer {t : Ty} (h : t.isDataPointer = true) :
    t.isNumeric = false := by
  obtain ⟨b, d, rfl⟩ := isDataPointer_iff.mp h
  rfl

namespace Expr

/-- A count of elements as the bytes that a pointer moves by. -/
def bytes (count pointer : Expr) : Expr := (count.extend .long).scale pointer.promote.ty

/-- A pointer that is moved by a count of elements, forwards or backwards. -/
def moved (op : BinaryOp) (pointer count : Expr) : Expr :=
  .binary op pointer.promote (count.bytes pointer) (.value pointer.promote.ty)

/-- Pointers are promoted already. -/
theorem promote_of_isDataPointer {e : Expr} (h : e.ty.isDataPointer = true) : e.promote = e := by
  obtain ⟨b, d, hty⟩ := Ty.isDataPointer_iff.mp h
  unfold promote
  split
  · next harray => cases harray.symm.trans hty
  · next hchar => cases hchar.symm.trans hty
  · rfl

end Expr

namespace Typing

open LittleC.Expr

section
variable {p n e : Expr}

/-! ## Rules over a pointer and a number -/

theorem add_pointer_number (hp : p.ty.promote.isDataPointer = true) (hn : n.ty.isNumeric = true) :
    add p n = ⟨p.moved .add n, none⟩ := by
  have hnumber : n.ty.promote.isNumeric = true := (Ty.isNumeric_promote _).trans hn
  unfold add
  simp only [Ty.isError_of_isScalar (Ty.isScalar_of_isDataPointer hp),
    Ty.isError_of_isNumeric hnumber, Ty.isNumeric_of_isDataPointer hp, hp, hnumber]
  rfl

theorem add_number_pointer (hp : p.ty.promote.isDataPointer = true) (hn : n.ty.isNumeric = true) :
    add n p = ⟨.binary .add (n.bytes p) p.promote (.value p.promote.ty), none⟩ := by
  have hnumber : n.ty.promote.isNumeric = true := (Ty.isNumeric_promote _).trans hn
  unfold add
  simp only [Ty.isError_of_isScalar (Ty.isScalar_of_isDataPointer hp),
    Ty.isError_of_isNumeric hnumber, Ty.isNumeric_of_isDataPointer hp, hp, hnumber, Bool.and_false]
  rfl

theorem subtract_pointer_number (hp : p.ty.promote.isDataPointer = true)
    (hn : n.ty.isNumeric = true) : subtract p n = ⟨p.moved .sub n, none⟩ := by
  have hnumber : n.ty.promote.isNumeric = true := (Ty.isNumeric_promote _).trans hn
  have hdiffer : p.ty.promote.agrees n.ty.promote = false := by
    obtain ⟨b, d, hty⟩ := Ty.isDataPointer_iff.mp hp
    obtain ⟨c, hcount⟩ := Ty.isNumeric_iff.mp hnumber
    simp [hty, hcount, Ty.agrees]
  unfold subtract
  simp only [Ty.isError_of_isScalar (Ty.isScalar_of_isDataPointer hp),
    Ty.isError_of_isNumeric hnumber, Ty.isNumeric_of_isDataPointer hp, hp, hnumber, hdiffer]
  rfl

theorem subtract_pointers (hp : p.ty.promote.isDataPointer = true)
    (he : e.ty.promote = p.ty.promote) : subtract e p = ⟨distance e p, none⟩ := by
  unfold subtract
  simp only [he, Ty.isError_of_isScalar (Ty.isScalar_of_isDataPointer hp),
    Ty.isNumeric_of_isDataPointer hp, hp, Ty.agrees_refl]
  rfl

theorem deref_pointer (hp : p.ty.isDataPointer = true) :
    deref p = ⟨.unary .deref p (.place p.ty.deref), none⟩ := by
  unfold deref judge
  simp only [promote_of_isDataPointer hp, hp, List.any_cons, List.any_nil,
    Ty.isError_of_isScalar (Ty.isScalar_of_isDataPointer hp)]
  rfl

theorem index_pointer_number (hp : p.ty.promote.isDataPointer = true) (hn : n.ty.isNumeric = true) :
    index p n = ⟨.unary .deref (p.moved .add n) (.place p.promote.ty.deref), none⟩ := by
  have hpointer : p.promote.ty.isDataPointer = true := by rw [ty_promote]; exact hp
  unfold index judge
  simp only [ty_extend_long hn, hpointer, Ty.agrees_refl, List.any_cons, List.any_nil,
    Ty.isError_of_isScalar (Ty.isScalar_of_isDataPointer hpointer)]
  rfl

/-- An index has the verdict of a dereferenced sum. -/
theorem index_eq_deref_add (hp : p.ty.promote.isDataPointer = true) (hn : n.ty.isNumeric = true) :
    index p n = deref (add p n).node := by
  have hsum : (p.moved .add n).ty.isDataPointer = true := by
    show p.promote.ty.isDataPointer = true
    rw [ty_promote]
    exact hp
  rw [index_pointer_number hp hn, add_pointer_number hp hn, deref_pointer hsum]
  rfl

theorem indexTable_eq_none (p n : Ty) (h : (p.isDataPointer && n.isNumeric) = false) :
    indexTable p n = none := by
  unfold indexTable
  split
  · rw [Ty.isDataPointer_pointer] at h
    cases h
  · rfl

end

end Typing

namespace Checker

/-- Indexing is dereferenced addition. Over a pointer and a number, `p[n]` is the same tree as `*(p
+ n)`, and neither is reported. Any other operands that did not fail to check are reported once and
give an error. -/
theorem index_is_deref_of_sum (c : Checker) (l r : Expr) :
    (l.ty.promote.isDataPointer = true → r.ty.isNumeric = true →
      let sum := c.accept (Typing.add l r)
      c.accept (Typing.index l r) = sum.2.accept (Typing.deref sum.1) ∧
        sum.2 = c ∧ (c.accept (Typing.index l r)).2 = c) ∧
    (l.ty.isError = false → r.ty.isError = false →
      (l.ty.promote.isDataPointer && r.ty.isNumeric) = false →
      (c.accept (Typing.index l r)).1.ty = .error ∧
        (c.accept (Typing.index l r)).2 = c.report (.invalidBinaryOperands "[]") ∧
        (CheckError.invalidBinaryOperands "[]").message = "invalid operands to binary []") := by
  refine ⟨?_, ?_⟩
  · intro hp hn sum
    have hsum : sum.2 = c := by
      show c.reportAny (Typing.add l r).fault = c
      rw [Typing.add_pointer_number hp hn]
      rfl
    refine ⟨?_, hsum, ?_⟩
    · rw [hsum, Typing.index_eq_deref_add hp hn]
      rfl
    · rw [Typing.index_pointer_number hp hn]
      rfl
  · intro hl hr hother
    have hrefused := c.gives_accept (Typing.index_decides hl hr)
    rw [← Ty.isNumeric_promote r.ty] at hother
    rw [Typing.indexTable_eq_none _ _ hother] at hrefused
    exact ⟨hrefused.1, hrefused.2, rfl⟩

/-- An element of an array is read over an array and a `char`, and a number is no array. -/
theorem index_is_deref_of_sum_array :
    let t : SymbolTable := ⟨[.fresh "a" (.array .int 1 10), .fresh "i" .char], [], []⟩
    let c : Checker := { Checker.empty with symbols := t }
    let a := Expr.ofSymbol t ⟨0⟩
    let i := Expr.ofSymbol t ⟨1⟩
    c.accept (Typing.index a i) = c.accept (Typing.deref (Typing.add a i).node) ∧
      (c.accept (Typing.index a i)).1.ty = .scalar .int 1 ∧
      (c.accept (Typing.index i a)).1.ty = .error ∧
      (c.accept (Typing.index i a)).2 = c.report (.invalidBinaryOperands "[]") := by
  intro t c a i
  obtain ⟨hsame, -, -⟩ := (index_is_deref_of_sum c a i).1 rfl rfl
  obtain ⟨herror, hreported, -⟩ := (index_is_deref_of_sum c i a).2 rfl rfl rfl
  exact ⟨hsame, rfl, herror, hreported⟩

end Checker

end LittleC
