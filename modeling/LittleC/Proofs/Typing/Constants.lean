import LittleC.Proofs.Typing.Place

/-! # Constants fit their types

The numbers in a tree come from literals, from the sizes of elements and from `sizeof`. The first
two fit the types of their nodes. A size is an `int` whatever it is, so it fits only below two
gigabytes. -/

namespace LittleC

namespace Ty

/-- Whether a constant of the type can be `v`. Constants are `int` or `long`. -/
def holds : Ty → Int → Bool
  | .scalar .int 0, v => fitsInt v
  | .scalar .long 0, v => fitsLong v
  | _, _ => false

/-- Only arrays are larger than a `long`. -/
theorem size_le_of_not_isArray {t : Ty} (h : t.isArray = false) : t.size ≤ 8 := by
  cases t with
  | scalar b d => rcases size_scalar b d with h | h | h <;> omega
  | array => cases h
  | _ => exact Nat.zero_le 8

theorem holds_int_size {n : Nat} : int.holds n = true ↔ n < 0x80000000 := by
  simp only [holds, fitsInt, Bool.and_eq_true, decide_eq_true_eq]
  omega

/-- A `long` can hold the size of an element. -/
theorem holds_signedSize_deref (t : Ty) : long.holds t.deref.signedSize = true := by
  rcases size_scalar t.base (t.depth - 1) with h | h | h
  all_goals
    rw [signedSize, deref, h]
    rfl

end Ty

/-! ## Leaves -/

namespace Expr

def isLeaf : Expr → Bool
  | number .. | text .. | ident .. => true
  | _ => false

/-- All numbers, string literals and names in the tree have the property. -/
def Leaves (P : Expr → Prop) (e : Expr) : Prop := e.Every fun n => n.isLeaf = true → P n

section
variable {P : Expr → Prop} {e l r : Expr} {op : BinaryOp} {i : Info}

@[simp]
theorem leaves_number {v : Int} : (number v i).Leaves P ↔ P (number v i) := by
  simp [Leaves, every_number, isLeaf]

@[simp]
theorem leaves_text {s : String} : (text s i).Leaves P ↔ P (text s i) := by
  simp [Leaves, every_text, isLeaf]

@[simp]
theorem leaves_ident {x : SymbolId} : (ident x i).Leaves P ↔ P (ident x i) := by
  simp [Leaves, every_ident, isLeaf]

@[simp]
theorem leaves_call {f : SymbolId} {args : List Expr} :
    (call f args i).Leaves P ↔ ∀ a ∈ args, a.Leaves P := by
  simp [Leaves, every_call, isLeaf]

@[simp]
theorem leaves_unary {op : UnaryOp} : (unary op e i).Leaves P ↔ e.Leaves P := by
  simp [Leaves, every_unary, isLeaf]

@[simp]
theorem leaves_cast : (cast e i).Leaves P ↔ e.Leaves P := by
  simp [Leaves, every_cast, isLeaf]

@[simp]
theorem leaves_binary : (binary op l r i).Leaves P ↔ l.Leaves P ∧ r.Leaves P := by
  simp [Leaves, every_binary, isLeaf]

/-! ### Conversions -/

@[simp]
theorem leaves_promote : e.promote.Leaves P ↔ e.Leaves P := by
  unfold promote
  split
  · exact leaves_unary
  · exact leaves_cast
  · rfl

@[simp]
theorem leaves_extend {target : Ty} : (e.extend target).Leaves P ↔ e.Leaves P := by
  unfold extend
  rw [leaves_promote]
  split
  · exact leaves_cast
  · rfl

@[simp]
theorem leaves_convert {target : Ty} : (e.convert target).Leaves P ↔ e.Leaves P := by
  apply convert_cases (motive := fun p => p.Leaves P ↔ e.Leaves P)
  · rfl
  · exact leaves_promote
  · intro p hp _ _
    exact leaves_cast.trans hp

@[simp]
theorem leaves_castTo {target : Ty} : (e.castTo target).Leaves P ↔ e.Leaves P := by
  unfold castTo
  split
  · rfl
  · exact leaves_cast

/-- A scaled count has one number more. -/
@[simp]
theorem leaves_scale {pointer : Ty} :
    (e.scale pointer).Leaves P ↔
      e.Leaves P ∧ P (.number pointer.deref.signedSize (.value .long)) := by
  simp [scale]

end

end Expr

/-! ### Rules -/

namespace Typing

open LittleC.Expr

section
variable {P : Expr → Prop} {e l r : Expr}

/-- A verdict is over the same leaves whichever way the judge decides. -/
theorem leaves_judge {operands : List Ty} {legal : Bool} {result : Ty} {fault : CheckError}
    {node : Ty → Expr} (hnode : ∀ ty, (node ty).Leaves P) :
    (judge operands legal result fault node).node.Leaves P := by
  obtain ⟨ty, h⟩ := exists_judge_node operands legal result fault node
  rw [h]
  exact hnode ty

theorem leaves_convertArgs {args : List Expr} {params : List Ty} (h : ∀ a ∈ args, a.Leaves P) :
    ∀ a ∈ (convertArgs args params).1, a.Leaves P :=
  forall_mem_convertArgs (fun _ _ => leaves_convert.mpr) h

theorem leaves_castRule (target : Ty) (he : e.Leaves P) : (cast target e).node.Leaves P := by
  unfold cast
  dsimp only
  split_ifs <;> simpa using he

theorem leaves_callRule (ty : Ty) (f : SymbolId) {args : List Expr} (h : ∀ a ∈ args, a.Leaves P) :
    (call ty f args).node.Leaves P := by
  unfold call
  split
  · exact leaves_call.mpr h
  · dsimp only
    split_ifs
    · exact leaves_call.mpr (leaves_convertArgs h)
    · exact leaves_call.mpr (leaves_convertArgs h)
    · exact leaves_call.mpr h
  · simpa using h
  · exact leaves_call.mpr h
  · exact leaves_call.mpr h

variable (hsize : ∀ t : Ty, P (.number t.deref.signedSize (.value .long)))
include hsize

theorem leaves_add (hl : l.Leaves P) (hr : r.Leaves P) : (add l r).node.Leaves P := by
  unfold add
  dsimp only
  split_ifs <;> simp [numeric, hl, hr, hsize]

theorem leaves_subtract (hl : l.Leaves P) (hr : r.Leaves P) : (subtract l r).node.Leaves P := by
  unfold subtract
  dsimp only
  split_ifs <;> simp [numeric, distance, hl, hr, hsize]

theorem leaves_binaryRule (op : BinaryOp) (hl : l.Leaves P) (hr : r.Leaves P) :
    (binary op l r).node.Leaves P := by
  cases op with
  | add => exact leaves_add hsize hl hr
  | sub => exact leaves_subtract hsize hl hr
  | mul | div | rem | compare | land | lor =>
      apply leaves_judge
      simp [hl, hr]

theorem leaves_index (hl : l.Leaves P) (hr : r.Leaves P) : (index l r).node.Leaves P := by
  apply leaves_judge
  intro ty
  split_ifs <;> simp [hl, hr, hsize]

end

end Typing

/-! ## Bounded sources -/

namespace Expr

/-- What the typing rules give over literals of 64 bits, where the types of all names and string
literals stay below `bound` bytes. -/
inductive Sized (t : SymbolTable) (bound : Nat) : Expr → Prop where
  | ident {x : SymbolId} (hx : (t.symbol x).ty.size < bound) : Sized t bound (ofSymbol t x)
  | number {l : IntegerLiteral} (hl : Ty.fitsLong l.value = true) : Sized t bound (ofInteger l)
  | text {s : String} (hs : (ofText s).ty.size < bound) : Sized t bound (ofText s)
  | call (f : SymbolId) {args : List Expr} (hargs : ∀ a ∈ args, Sized t bound a) :
      Sized t bound (Typing.call (t.symbol f).ty f args).node
  | index {l r : Expr} (hl : Sized t bound l) (hr : Sized t bound r) :
      Sized t bound (Typing.index l r).node
  | logicalNot {e : Expr} (he : Sized t bound e) : Sized t bound (Typing.logicalNot e).node
  | negate {e : Expr} (he : Sized t bound e) : Sized t bound (Typing.negate e).node
  | deref {e : Expr} (he : Sized t bound e) : Sized t bound (Typing.deref e).node
  | address {e : Expr} (he : Sized t bound e) : Sized t bound (Typing.address e).node
  | sizeOf {e : Expr} (he : Sized t bound e) : Sized t bound (Typing.sizeOf e).node
  | cast (target : Ty) {e : Expr} (he : Sized t bound e) : Sized t bound (Typing.cast target e).node
  | binary (op : BinaryOp) {l r : Expr} (hl : Sized t bound l) (hr : Sized t bound r) :
      Sized t bound (Typing.binary op l r).node
  | test {e : Expr} (he : Sized t bound e) : Sized t bound (Typing.test e).node
  | converted (target : Ty) {e : Expr} (he : Sized t bound e) : Sized t bound (e.convert target)

section
variable {t : SymbolTable} {bound : Nat} {e : Expr}

theorem Sized.built (h : Sized t bound e) : Built t e := by
  induction h with
  | ident => exact .ident _
  | number => exact .number _
  | text => exact .text _
  | call f _ ih => exact .call f ih
  | index _ _ hl hr => exact .index hl hr
  | logicalNot _ ih => exact .logicalNot ih
  | negate _ ih => exact .negate ih
  | deref _ ih => exact .deref ih
  | address _ ih => exact .address ih
  | sizeOf _ ih => exact .sizeOf ih
  | cast target _ ih => exact .cast target ih
  | binary op _ _ hl hr => exact .binary op hl hr
  | test _ ih => exact .test ih
  | converted target _ ih => exact .converted target ih

/-- A name or string literal below the bound, or a number that its type holds or that is the size of
two gigabytes or more. -/
def Bounded (t : SymbolTable) (bound : Nat) : Expr → Prop
  | number v i => i.ty.holds v = true ∨ ∃ operand, Sized t bound operand ∧
      0x80000000 ≤ operand.ty.size ∧ number v i = (Typing.sizeOf operand).node
  | n => n.ty.size < bound

/-- An array is a name or a string literal, so its size is bounded where leaves are. -/
theorem Built.size_lt (he : Built t e) (hleaves : e.Leaves (Bounded t bound)) (hbound : 8 < bound) :
    e.ty.size < bound := by
  have hshaped : e.Shaped := (kept_shaped.every_built (shaped_ofSymbol t) he).root
  cases harray : e.ty.isArray with
  | false => exact Nat.lt_of_le_of_lt (Ty.size_le_of_not_isArray harray) hbound
  | true =>
      have hnamed := hshaped.array harray
      cases e with
      | ident x i => exact leaves_ident.mp hleaves
      | text s i => exact leaves_text.mp hleaves
      | unary op p i =>
          cases op with
          | deref =>
              -- What a pointer points to is a single value.
              have hty : (unary .deref p i).ty.isArray = false := by
                rcases hshaped.fits.2 rfl with h | h
                · exact Ty.isArray_of_isScalar h
                · rw [Ty.isError_iff.mp h]
                  rfl
              exact absurd (harray.symm.trans hty) Bool.noConfusion
          | _ => cases hnamed
      | _ => cases hnamed

theorem leaves_ofInteger {l : IntegerLiteral} (hl : Ty.fitsLong l.value = true) :
    (ofInteger l).Leaves (Bounded t bound) := by
  refine leaves_number.mpr (Or.inl ?_)
  show (if l.isLong then Ty.long else Ty.int).holds l.value = true
  cases hlong : l.isLong with
  | true => exact hl
  | false =>
      rw [IntegerLiteral.isLong, Bool.or_eq_false_iff, Bool.not_eq_false'] at hlong
      exact hlong.2

variable (hhigh : bound ≤ 0x8000000000000000)
include hhigh

theorem node_sizeOf (hsize : e.ty.size < bound) :
    (Typing.sizeOf e).node = .number e.ty.size (.value .int) :=
  congrArg (number · (.value .int)) (Ty.signedBytes_of_lt (Nat.lt_of_lt_of_le hsize hhigh))

/-- The one rule that gives a constant of a type that may not hold it. -/
theorem leaves_sizeOf (he : Sized t bound e) (hsize : e.ty.size < bound) :
    (Typing.sizeOf e).node.Leaves (Bounded t bound) := by
  have hnode := node_sizeOf hhigh hsize
  rw [hnode]
  refine leaves_number.mpr ?_
  rcases Nat.lt_or_ge e.ty.size 0x80000000 with hfits | hlarge
  · exact Or.inl (Ty.holds_int_size.mpr hfits)
  · exact Or.inr ⟨e, he, hlarge, hnode.symm⟩

variable (hlow : 8 < bound)
include hlow

theorem Sized.leaves (h : Sized t bound e) : e.Leaves (Bounded t bound) := by
  have hsize (u : Ty) : Bounded t bound (.number u.deref.signedSize (.value .long)) :=
    Or.inl (Ty.holds_signedSize_deref u)
  induction h with
  | ident hx => exact leaves_ident.mpr hx
  | number hl => exact leaves_ofInteger hl
  | text hs => exact leaves_text.mpr hs
  | call f _ ih => exact Typing.leaves_callRule _ f ih
  | index _ _ hl hr => exact Typing.leaves_index hsize hl hr
  | logicalNot _ ih | negate _ ih | deref _ ih | address _ ih =>
      apply Typing.leaves_judge
      simpa using ih
  -- The operand does not stay in the tree, but its own leaves still bound its size.
  | sizeOf he ih => exact leaves_sizeOf hhigh he (he.built.size_lt ih hlow)
  | cast target _ ih => exact Typing.leaves_castRule target ih
  | binary op _ _ hl hr => exact Typing.leaves_binaryRule hsize op hl hr
  | test _ ih => exact leaves_promote.mpr ih
  | converted target _ ih => exact leaves_convert.mpr ih

theorem Sized.size_lt (h : Sized t bound e) : e.ty.size < bound :=
  h.built.size_lt (h.leaves hhigh hlow) hlow

/-- Constants fit their types but for large sizes. Over names and string literals of less than
`bound` bytes, a number that its type does not hold is the size of an operand of two gigabytes or
more, so there is none where the bound is that low. The constant of `sizeof` is the size of the
operand as an `int`, which fits below two gigabytes only. -/
theorem constants_fit (he : Sized t bound e) :
    (∀ v i, number v i ∈ e.subexprs → i.ty.holds v = true ∨ ∃ operand, Sized t bound operand ∧
      0x80000000 ≤ operand.ty.size ∧ number v i = (Typing.sizeOf operand).node) ∧
    (bound ≤ 0x80000000 → ∀ v i, number v i ∈ e.subexprs → i.ty.holds v = true) ∧
    (Typing.sizeOf e).node = .number e.ty.size (.value .int) ∧
    (Ty.int.holds e.ty.size = true ↔ e.ty.size < 0x80000000) := by
  have hnumbers (v : Int) (i : Info) (hmem : number v i ∈ e.subexprs) :
      Bounded t bound (number v i) := he.leaves hhigh hlow _ hmem rfl
  refine ⟨hnumbers, ?_, node_sizeOf hhigh (he.size_lt hhigh hlow), Ty.holds_int_size⟩
  intro hsmall v i hmem
  rcases hnumbers v i hmem with hfits | ⟨operand, hoperand, hlarge, -⟩
  · exact hfits
  · have hsize := hoperand.size_lt hhigh hlow
    omega

end

/-- Moving a pointer by the size of its array makes two constants, both small. -/
theorem constants_fit_array :
    let t : SymbolTable := ⟨[.fresh "a" (.array .int 0 10)], [], []⟩
    let a := ofSymbol t ⟨0⟩
    let e := (Typing.binary .add a (Typing.sizeOf a).node).node
    number 4 (.value .long) ∈ e.subexprs ∧ number 40 (.value .int) ∈ e.subexprs ∧
      (Typing.sizeOf a).node = number 40 (.value .int) ∧
      ∀ v i, number v i ∈ e.subexprs → i.ty.holds v = true := by
  intro t a e
  have ha : Sized t 0x80000000 a := .ident (by decide)
  obtain ⟨-, -, hsize, -⟩ := constants_fit (by decide) (by decide) ha
  obtain ⟨-, hfit, -, -⟩ := constants_fit (by decide) (by decide) (.binary .add ha (.sizeOf ha))
  have hbytes : a.ty.signedSize = 40 := by decide
  have hscale : a.ty.promote.deref.signedSize = 4 := by decide
  have htree : e =
      .binary .add a.promote
        (.binary .mul (.cast (.number a.ty.signedSize (.value .int)) (.value .long))
          (.number a.ty.promote.deref.signedSize (.value .long)) (.value .long))
        (.value (.scalar .int 1)) := rfl
  rw [hbytes, hscale] at htree
  refine ⟨?_, ?_, hsize, hfit (Nat.le_refl _)⟩
  · rw [htree]
    exact List.mem_of_getElem? (i := 6) rfl
  · rw [htree]
    exact List.mem_of_getElem? (i := 5) rfl

/-- The size of an array of two gigabytes is no `int`. -/
theorem sizeof_exceeds_int :
    ¬ ∀ (t : SymbolTable) (e : Expr), Sized t 0x8000000000000000 e → e.hasError = false →
      ∀ v i, number v i ∈ e.subexprs → i.ty.holds v = true := by
  intro hfit
  let t : SymbolTable := ⟨[.fresh "a" (.array .char 0 0x80000000)], [], []⟩
  have ha : Sized t 0x8000000000000000 (ofSymbol t ⟨0⟩) := .ident (by decide)
  have hmem : number 0x80000000 (.value .int) ∈ (Typing.sizeOf (ofSymbol t ⟨0⟩)).node.subexprs := by
    rw [node_sizeOf (Nat.le_refl _) (by decide)]
    exact List.mem_singleton.mpr rfl
  exact absurd (hfit t _ (.sizeOf ha) rfl _ _ hmem) (by decide)

end Expr

end LittleC
