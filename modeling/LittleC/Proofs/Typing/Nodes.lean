import LittleC.Proofs.Typing.Canonical

/-! # The nodes of checked trees

What the typing rules put on top of their operands, told by a few shapes of nodes. A property that
these shapes have, and names have, holds at every node of every checked tree, whether it failed to
check or not. -/

namespace LittleC

namespace Ty

theorem isArray_promote (t : Ty) : t.promote.isArray = false := by
  cases t with
  | scalar b d => cases b <;> cases d <;> rfl
  | _ => rfl

theorem isArray_of_isNumeric {t : Ty} (h : t.isNumeric = true) : t.isArray = false := by
  cases t with
  | array => cases h
  | _ => rfl

theorem isArray_of_isScalar {t : Ty} (h : t.isScalar = true) : t.isArray = false := by
  cases t with
  | array => cases h
  | _ => rfl

end Ty

namespace Expr

/-- The nodes that rules make, names apart. No operator gives an array, and what a pointer points to
is a single value. Addresses are of places and of arrays, unless they failed to check; what else the
operand is, `N` tells. -/
inductive Made (N : Expr → Prop) : Expr → Prop where
  | number (v : Int) {ty : Ty} (hty : ty.isArray = false) : Made N (.number v (.value ty))
  | text (s : String) : Made N (ofText s)
  | call (f : SymbolId) (args : List Expr) {ty : Ty} (hty : ty.isArray = false) :
      Made N (.call f args (.value ty))
  | cast (e : Expr) {ty : Ty} (hty : ty.isArray = false) : Made N (.cast e (.value ty))
  | binary (op : BinaryOp) (l r : Expr) {ty : Ty} (hty : ty.isArray = false) :
      Made N (.binary op l r (.value ty))
  | logicalNot (e : Expr) {ty : Ty} (hty : ty.isArray = false) :
      Made N (.unary .logicalNot e (.value ty))
  | negate (e : Expr) {ty : Ty} (hty : ty.isArray = false) : Made N (.unary .negate e (.value ty))
  | deref (e : Expr) {ty : Ty} (hty : ty.isScalar = true ∨ ty.isError = true) :
      Made N (.unary .deref e (.place ty))
  | address {e : Expr} {ty : Ty} (he : N e) (hty : ty.isArray = false)
      (hoperand : ty.isError = true ∨ e.lvalue = true ∨ e.ty.isArray = true) :
      Made N (.unary .address e (.value ty))

/-- A property of single nodes that all nodes have which rules make. -/
def Kept (N : Expr → Prop) : Prop := ∀ n, Made N n → N n

namespace Kept

section
variable {N : Expr → Prop} {e l r : Expr}

/-! ## Conversions -/

theorem every_cast (h : Kept N) (he : e.Every N) {ty : Ty} (hty : ty.isArray = false) :
    (Expr.cast e (.value ty)).Every N := Expr.every_cast.mpr ⟨h _ (.cast e hty), he⟩

theorem every_binary (h : Kept N) (op : BinaryOp) (hl : l.Every N) (hr : r.Every N) {ty : Ty}
    (hty : ty.isArray = false) : (Expr.binary op l r (.value ty)).Every N :=
  Expr.every_binary.mpr ⟨h _ (.binary op l r hty), hl, hr⟩

theorem every_promote (h : Kept N) (he : e.Every N) : e.promote.Every N := by
  unfold promote
  split
  · next harray =>
      refine every_unary.mpr ⟨h _ (.address he.root (Ty.isArray_promote _) ?_), he⟩
      rw [harray]
      exact .inr (.inr rfl)
  · exact h.every_cast he rfl
  · exact he

theorem every_extend (h : Kept N) (he : e.Every N) (target : Ty) : (e.extend target).Every N := by
  unfold extend
  apply h.every_promote
  split
  · next hwidens =>
      exact h.every_cast he (Ty.isArray_of_isNumeric (widensTo_numeric hwidens).2)
  · exact he

theorem every_convert (h : Kept N) (he : e.Every N) (target : Ty) : (e.convert target).Every N := by
  apply convert_cases he (h.every_promote he)
  intro p hp _ htarget
  exact h.every_cast hp (Ty.isArray_of_isNumeric htarget)

theorem every_castTo (h : Kept N) (he : e.Every N) {target : Ty}
    (htarget : target.isArray = false) : (e.castTo target).Every N := by
  unfold castTo
  split
  · exact he
  · exact h.every_cast he htarget

theorem every_scale (h : Kept N) (he : e.Every N) (pointer : Ty) : (e.scale pointer).Every N :=
  h.every_binary .mul he (every_number.mpr (h _ (.number _ rfl))) rfl

/-! ## Rules -/

/-- A judgement gives the node at the result type or as an error. -/
theorem every_judge {operands : List Ty} {legal : Bool} {result : Ty} {fault : CheckError}
    {node : Ty → Expr} {P : Ty → Prop} (hnode : ∀ ty, P ty → (node ty).Every N) (hresult : P result)
    (herror : P .error) : (judge operands legal result fault node).node.Every N := by
  unfold judge
  split_ifs
  · exact hnode .error herror
  · exact hnode result hresult
  · exact hnode .error herror

theorem isArray_ty_promote (e : Expr) : e.promote.ty.isArray = false := by
  rw [ty_promote]
  exact Ty.isArray_promote _

theorem isArray_ty_extend (e : Expr) (target : Ty) : (e.extend target).ty.isArray = false := by
  rw [ty_extend]
  split <;> exact Ty.isArray_promote _

theorem every_multiplicative (h : Kept N) (op : BinaryOp) (hl : l.Every N) (hr : r.Every N) :
    (Typing.multiplicative op l r).node.Every N :=
  every_judge (fun _ => h.every_binary op (h.every_extend hl _) (h.every_extend hr _))
    (isArray_ty_extend _ _) rfl

theorem every_compare (h : Kept N) (c : Comparison) (hl : l.Every N) (hr : r.Every N) :
    (Typing.compare c l r).node.Every N :=
  every_judge (fun _ => h.every_binary _ (h.every_extend hl _) (h.every_extend hr _)) rfl rfl

theorem every_logical (h : Kept N) (op : BinaryOp) (hl : l.Every N) (hr : r.Every N) :
    (Typing.logical op l r).node.Every N :=
  every_judge (fun _ => h.every_binary op (h.every_promote hl) (h.every_promote hr)) rfl rfl

theorem every_numeric (h : Kept N) (op : BinaryOp) (hl : l.Every N) (hr : r.Every N) :
    (Typing.numeric op l r).Every N :=
  h.every_binary op (h.every_extend hl _) (h.every_extend hr _) (isArray_ty_extend _ _)

theorem every_distance (h : Kept N) (hl : l.Every N) (hr : r.Every N) :
    (Typing.distance l r).Every N := by
  have hbytes : (Expr.binary .sub l.promote r.promote (.value .long)).Every N :=
    h.every_binary .sub (h.every_promote hl) (h.every_promote hr) rfl
  exact h.every_binary .div hbytes (every_number.mpr (h _ (.number _ rfl))) rfl

theorem every_add (h : Kept N) (hl : l.Every N) (hr : r.Every N) :
    (Typing.add l r).node.Every N := by
  have hscaled {e : Expr} (he : e.Every N) (pointer : Ty) :
      ((e.extend .long).scale pointer).Every N :=
    h.every_scale (h.every_extend he _) pointer
  unfold Typing.add
  dsimp only
  split_ifs
  · exact h.every_binary .add hl hr rfl
  · exact h.every_numeric .add hl hr
  · exact h.every_binary .add (h.every_promote hl) (hscaled hr _) (isArray_ty_promote l)
  · exact h.every_binary .add (hscaled hl _) (h.every_promote hr) (isArray_ty_promote r)
  · exact h.every_binary .add hl hr rfl

theorem every_subtract (h : Kept N) (hl : l.Every N) (hr : r.Every N) :
    (Typing.subtract l r).node.Every N := by
  unfold Typing.subtract
  dsimp only
  split_ifs
  · exact h.every_binary .sub hl hr rfl
  · exact h.every_numeric .sub hl hr
  · exact h.every_distance hl hr
  · refine h.every_binary .sub (h.every_promote hl) ?_ (isArray_ty_promote l)
    exact h.every_scale (h.every_extend hr _) _
  · exact h.every_binary .sub hl hr rfl

theorem every_binaryRule (h : Kept N) (op : BinaryOp) (hl : l.Every N) (hr : r.Every N) :
    (Typing.binary op l r).node.Every N := by
  cases op with
  | add => exact h.every_add hl hr
  | sub => exact h.every_subtract hl hr
  | mul | div | rem => exact h.every_multiplicative _ hl hr
  | compare c => exact h.every_compare c hl hr
  | land | lor => exact h.every_logical _ hl hr

theorem every_index (h : Kept N) (hl : l.Every N) (hr : r.Every N) :
    (Typing.index l r).node.Every N := by
  have hindex : (r.extend .long).Every N := h.every_extend hr _
  refine every_judge (fun ty hty => every_unary.mpr ⟨h _ (.deref _ hty), ?_⟩) (.inl rfl) (.inr rfl)
  refine h.every_binary .add (h.every_promote hl) ?_ (isArray_ty_promote l)
  split
  · exact h.every_scale hindex _
  · exact hindex

theorem every_logicalNot (h : Kept N) (he : e.Every N) : (Typing.logicalNot e).node.Every N :=
  every_judge (fun _ hty => every_unary.mpr ⟨h _ (.logicalNot _ hty), h.every_promote he⟩) rfl rfl

theorem every_negate (h : Kept N) (he : e.Every N) : (Typing.negate e).node.Every N :=
  every_judge (fun _ hty => every_unary.mpr ⟨h _ (.negate _ hty), h.every_promote he⟩)
    (isArray_ty_promote e) rfl

theorem every_deref (h : Kept N) (he : e.Every N) : (Typing.deref e).node.Every N :=
  every_judge (fun _ hty => every_unary.mpr ⟨h _ (.deref _ hty), h.every_promote he⟩) (.inl rfl)
    (.inr rfl)

/-- An address that is no error was taken of a place. -/
theorem every_address (h : Kept N) (he : e.Every N) : (Typing.address e).node.Every N := by
  have herror : (Expr.unary .address e (.value .error)).Every N :=
    every_unary.mpr ⟨h _ (.address he.root rfl (.inl rfl)), he⟩
  unfold Typing.address judge
  split_ifs with _ hplace
  · exact herror
  · exact every_unary.mpr ⟨h _ (.address he.root rfl (.inr (.inl hplace))), he⟩
  · exact herror

theorem every_castRule (h : Kept N) (target : Ty) (he : e.Every N) :
    (Typing.cast target e).node.Every N := by
  unfold Typing.cast
  dsimp only
  split_ifs with _ hnum hpointer
  · exact he
  · rw [Bool.and_eq_true] at hnum
    exact h.every_castTo (h.every_convert he target) (Ty.isArray_of_isNumeric hnum.1)
  · refine h.every_castTo (h.every_promote he) ?_
    exact Ty.isArray_of_isScalar (Typing.size_of_castsPointer hpointer).2.1
  · exact h.every_cast he rfl

theorem every_callRule (h : Kept N) (ty : Ty) (f : SymbolId) {args : List Expr}
    (hargs : ∀ a ∈ args, a.Every N) : (Typing.call ty f args).node.Every N := by
  have hconverted : ∀ params, ∀ a ∈ (Typing.convertArgs args params).1, a.Every N := fun params =>
    Typing.forall_mem_convertArgs (P := Every N) (fun _ target he => h.every_convert he target)
      hargs
  have hnode {args : List Expr} (hargs : ∀ a ∈ args, a.Every N)
      {ty : Ty} (hty : ty.isArray = false) :
      (Expr.call f args (.value ty)).Every N := every_call.mpr ⟨h _ (.call f args hty), hargs⟩
  unfold Typing.call
  split
  · exact hnode hargs rfl
  · dsimp only
    split_ifs
    · exact hnode (hconverted _) rfl
    · exact hnode (hconverted _) rfl
    · exact hnode hargs rfl
  · refine hnode ?_ rfl
    intro a ha
    obtain ⟨b, hb, rfl⟩ := List.mem_map.mp ha
    exact h.every_promote (hargs b hb)
  · exact hnode hargs rfl
  · exact hnode hargs rfl

theorem every_ofInteger (h : Kept N) (l : IntegerLiteral) : (ofInteger l).Every N := by
  refine every_number.mpr (h _ (.number l.value ?_))
  split <;> rfl

/-- All nodes of what checking builds over a table, if names have the property. -/
theorem every_built (h : Kept N) {t : SymbolTable} (hident : ∀ x, N (ofSymbol t x)) {e : Expr}
    (he : e.Built t) : e.Every N := by
  induction he with
  | ident x => exact every_ident.mpr (hident x)
  | number l => exact h.every_ofInteger l
  | text s => exact every_text.mpr (h _ (.text s))
  | call f _ ih => exact h.every_callRule _ f ih
  | index _ _ hl hr => exact h.every_index hl hr
  | logicalNot _ ih => exact h.every_logicalNot ih
  | negate _ ih => exact h.every_negate ih
  | deref _ ih => exact h.every_deref ih
  | address _ ih => exact h.every_address ih
  | sizeOf _ _ => exact every_number.mpr (h _ (.number _ rfl))
  | cast target _ ih => exact h.every_castRule target ih
  | binary op _ _ hl hr => exact h.every_binaryRule op hl hr
  | test _ ih => exact h.every_promote ih
  | converted target _ ih => exact h.every_convert ih target

end

end Kept

end Expr

end LittleC
