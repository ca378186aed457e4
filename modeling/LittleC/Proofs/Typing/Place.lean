import LittleC.Proofs.Typing.Nodes

/-! # Places

Which expressions name places and which have an address, errors included. -/

namespace LittleC.Expr

/-- Marked as a place exactly when it is one, and then of a single value unless it failed to
check. -/
def PlaceFits (e : Expr) : Prop :=
  e.lvalue = e.isPlace ∧ (e.isPlace = true → e.ty.isScalar = true ∨ e.ty.isError = true)

/-- A name, a string literal or what a pointer points to: what an address can be taken of. -/
def isNamed : Expr → Bool
  | ident .. | text .. | unary .deref .. => true
  | _ => false

/-- A node whose mark fits, that is an array only as a name or string literal, and that is an
address only of what one can be taken of. -/
structure Shaped (n : Expr) : Prop where
  fits : n.PlaceFits
  array : n.ty.isArray = true → n.isNamed = true
  address : ∀ operand i, n = .unary .address operand i → i.ty.isError = false →
    operand.isNamed = true

section
variable {e : Expr}

theorem isNamed_of_isPlace (h : e.isPlace = true) : e.isNamed = true := by
  unfold isPlace at h
  split at h
  · rfl
  · rfl
  · cases h

/-- A value that is no array. -/
theorem shaped_of_value (hlvalue : e.lvalue = false) (hplace : e.isPlace = false)
    (hty : e.ty.isArray = false)
    (haddress : ∀ operand i, e = .unary .address operand i → i.ty.isError = false →
      operand.isNamed = true) : e.Shaped := by
  refine ⟨⟨?_, ?_⟩, ?_, haddress⟩
  · rw [hlvalue, hplace]
  · intro h
    exact absurd (hplace.symm.trans h) Bool.false_ne_true
  · intro h
    exact absurd (hty.symm.trans h) Bool.false_ne_true

theorem kept_shaped : Kept Shaped := by
  intro n hn
  cases hn with
  | number v hty | call f args hty | cast e hty | binary op l r hty | logicalNot e hty
  | negate e hty =>
      refine shaped_of_value rfl rfl hty ?_
      intro operand i heq
      cases heq
  | text s =>
      refine ⟨⟨rfl, ?_⟩, fun _ => rfl, ?_⟩
      · intro h
        cases h
      · intro operand i heq
        cases heq
  | deref e hty =>
      refine ⟨⟨rfl, fun _ => hty⟩, fun _ => rfl, ?_⟩
      intro operand i heq
      cases heq
  | address he hty hoperand =>
      refine shaped_of_value rfl rfl hty ?_
      intro operand i heq hproper
      cases heq
      rcases hoperand with herror | hplace | harray
      · exact absurd (hproper.symm.trans herror) Bool.false_ne_true
      · exact isNamed_of_isPlace (he.fits.1.symm.trans hplace)
      · exact he.array harray

theorem shaped_ofSymbol (t : SymbolTable) (x : SymbolId) : (ofSymbol t x).Shaped := by
  refine ⟨⟨rfl, Or.inl⟩, fun _ => rfl, ?_⟩
  intro operand i heq
  cases heq

theorem Built.placeFits {t : SymbolTable} (he : Built t e) : e.PlaceFits :=
  (kept_shaped.every_built (shaped_ofSymbol t) he).root.fits

/-- A place that did not fail to check holds a single value. -/
theorem Built.isScalar_of_lvalue {t : SymbolTable} (he : Built t e) (hlvalue : e.lvalue = true)
    (herror : e.ty.isError = false) : e.ty.isScalar = true := by
  obtain ⟨hmark, hscalar⟩ := he.placeFits
  rw [hmark] at hlvalue
  rcases hscalar hlvalue with h | h
  · exact h
  · rw [herror] at h
    cases h

end

end LittleC.Expr
