import LittleC.Proofs.Tree.Subexpr
import LittleC.Proofs.Ty.Numeric
import LittleC.Typing.Binary
import LittleC.Typing.Primary
import LittleC.Typing.Statement
import LittleC.Typing.Unary
import Mathlib.Tactic.SplitIfs

/-! # Expressions that checking builds

The closure of names and constants under every typing rule. Operands may have failed to check; a
rule then gives a node of the error type. -/

namespace LittleC

namespace Expr

/-- What the typing rules give over the symbols of a table, each applied to earlier results. -/
inductive Built (t : SymbolTable) : Expr → Prop where
  | ident (x : SymbolId) : Built t (ofSymbol t x)
  | number (l : IntegerLiteral) : Built t (ofInteger l)
  | text (s : String) : Built t (ofText s)
  | call (f : SymbolId) {args : List Expr} (hargs : ∀ a ∈ args, Built t a) :
      Built t (Typing.call (t.symbol f).ty f args).node
  | index {l r : Expr} (hl : Built t l) (hr : Built t r) : Built t (Typing.index l r).node
  | logicalNot {e : Expr} (he : Built t e) : Built t (Typing.logicalNot e).node
  | negate {e : Expr} (he : Built t e) : Built t (Typing.negate e).node
  | deref {e : Expr} (he : Built t e) : Built t (Typing.deref e).node
  | address {e : Expr} (he : Built t e) : Built t (Typing.address e).node
  | sizeOf {e : Expr} (he : Built t e) : Built t (Typing.sizeOf e).node
  | cast (target : Ty) {e : Expr} (he : Built t e) : Built t (Typing.cast target e).node
  | binary (op : BinaryOp) {l r : Expr} (hl : Built t l) (hr : Built t r) :
      Built t (Typing.binary op l r).node
  /-- The condition of a branch or loop. -/
  | test {e : Expr} (he : Built t e) : Built t (Typing.test e).node
  /-- The value that an assignment stores or a return gives, where `target` is wanted. -/
  | converted (target : Ty) {e : Expr} (he : Built t e) : Built t (e.convert target)

/-- Only the types of the symbols count. -/
theorem Built.of_types {t u : SymbolTable} (h : ∀ x, (t.symbol x).ty = (u.symbol x).ty) {e : Expr}
    (he : Built t e) : Built u e := by
  induction he with
  | ident x =>
      have hx : ofSymbol t x = ofSymbol u x := by simp only [ofSymbol, h x]
      rw [hx]
      exact .ident x
  | number l => exact .number l
  | text s => exact .text s
  | call f _ ih =>
      rw [h f]
      exact .call f ih
  | index _ _ hl hr => exact .index hl hr
  | logicalNot _ ih => exact .logicalNot ih
  | negate _ ih => exact .negate ih
  | deref _ ih => exact .deref ih
  | address _ ih => exact .address ih
  | sizeOf _ ih => exact .sizeOf ih
  | cast target _ ih => exact .cast target ih
  | binary op _ _ hl hr => exact .binary op hl hr
  | test _ ih => exact .test ih
  | converted target _ ih => exact .converted target ih

/-! ## Conversions and errors

A conversion adds nodes of proper types only, so it neither makes nor hides an error. -/

theorem hasError_cast (e : Expr) {target : Ty} (h : target.isError = false) :
    (Expr.cast e (.value target)).hasError = e.hasError := by
  simp [hasError, h]

theorem hasError_promote (e : Expr) : e.promote.hasError = e.hasError := by
  unfold promote
  split
  · next h =>
      simp only [hasError, h]
      rfl
  · exact hasError_cast e rfl
  · rfl

theorem widensTo_numeric {t target : Ty} (h : t.widensTo target = true) :
    t.isNumeric = true ∧ target.isNumeric = true := by
  simp only [Ty.widensTo, Bool.and_eq_true] at h
  exact ⟨h.1.1.2, h.1.2⟩

theorem hasError_extend (e : Expr) (target : Ty) : (e.extend target).hasError = e.hasError := by
  unfold extend
  rw [hasError_promote]
  split
  · next h => exact hasError_cast e (Ty.isError_of_isNumeric (widensTo_numeric h).2)
  · rfl

theorem hasError_convert (e : Expr) (target : Ty) : (e.convert target).hasError = e.hasError := by
  apply convert_cases (motive := fun p => p.hasError = e.hasError)
  · rfl
  · exact hasError_promote e
  · intro p hp _ htarget
    rw [hasError_cast p (Ty.isError_of_isNumeric htarget), hp]

theorem hasError_castTo (e : Expr) {target : Ty} (h : target.isError = false) :
    (e.castTo target).hasError = e.hasError := by
  unfold castTo
  split
  · rfl
  · exact hasError_cast e h

theorem hasError_scale (e : Expr) (pointer : Ty) : (e.scale pointer).hasError = e.hasError := by
  simp [scale, hasError, Ty.isError]

/-- The root of a tree without errors has a proper type. -/
theorem isError_ty_of_hasError {e : Expr} (h : e.hasError = false) : e.ty.isError = false := by
  cases e <;> simp_all [hasError, ty, info]

end Expr

/-! ## Verdicts without errors -/

/-- A verdict that is no error found a legal combination. -/
theorem judge_legal {operands : List Ty} {legal : Bool} {result : Ty} {fault : CheckError}
    {node : Ty → Expr} (hnode : (node .error).hasError = true)
    (h : (judge operands legal result fault node).node.hasError = false) :
    legal = true ∧ (judge operands legal result fault node).node = node result := by
  unfold judge at h ⊢
  split at h
  · rw [hnode] at h
    cases h
  · split at h
    · next hoperands hlegal => simp [hoperands, hlegal]
    · rw [hnode] at h
      cases h


/-- A verdict is always over the given node, at some type. -/
theorem exists_judge_node (operands : List Ty) (legal : Bool) (result : Ty) (fault : CheckError)
    (node : Ty → Expr) : ∃ ty, (judge operands legal result fault node).node = node ty := by
  unfold judge
  split
  · exact ⟨.error, rfl⟩
  · split
    · exact ⟨result, rfl⟩
    · exact ⟨.error, rfl⟩

namespace Typing

/-- A cast of a pointer, or to one, is between scalars of eight bytes. -/
theorem size_of_castsPointer {target source : Ty}
    (h : castsPointer target source = true) :
    (source.isScalar = true ∧ source.size = 8) ∧ target.isScalar = true ∧ target.size = 8 := by
  have hpointer {u : Ty} (hu : u.isDataPointer = true) : u.isScalar = true ∧ u.size = 8 :=
    ⟨Ty.isScalar_of_isDataPointer hu, Ty.size_of_isDataPointer hu⟩
  have hlong {u : Ty} (hu : u.agrees .long = true) : u.isScalar = true ∧ u.size = 8 := by
    rw [Ty.agrees_scalar_iff.mp hu]
    exact ⟨rfl, rfl⟩
  simp only [castsPointer, Bool.or_eq_true, Bool.and_eq_true] at h
  rcases h with ⟨ht, hs | hs⟩ | ⟨hs, ht⟩
  · exact ⟨hpointer hs, hpointer ht⟩
  · exact ⟨hlong hs, hpointer ht⟩
  · exact ⟨hpointer hs, hlong ht⟩

end Typing

/-! ## Operands of trees without errors -/

namespace Expr

theorem hasError_binary_eq_false {op : BinaryOp} {l r : Expr} {i : Info} :
    (binary op l r i).hasError = false ↔
      i.ty.isError = false ∧ l.hasError = false ∧ r.hasError = false := by
  simp only [hasError, Bool.or_eq_false_iff, and_assoc]

theorem hasError_unary_eq_false {op : UnaryOp} {e : Expr} {i : Info} :
    (unary op e i).hasError = false ↔ i.ty.isError = false ∧ e.hasError = false := by
  simp only [hasError, Bool.or_eq_false_iff]

section
variable {e l r : Expr}

theorem hasError_of_numeric {op : BinaryOp} (h : (Typing.numeric op l r).hasError = false) :
    l.hasError = false ∧ r.hasError = false := by
  have hparts := (hasError_binary_eq_false.mp h).2
  rwa [hasError_extend, hasError_extend] at hparts

theorem hasError_of_add (h : (Typing.add l r).node.hasError = false) :
    l.hasError = false ∧ r.hasError = false := by
  unfold Typing.add at h
  dsimp only at h
  split_ifs at h
  · exact (hasError_binary_eq_false.mp h).2
  · exact hasError_of_numeric h
  all_goals
    have hparts := (hasError_binary_eq_false.mp h).2
    simpa only [hasError_promote, hasError_scale, hasError_extend] using hparts

theorem hasError_of_subtract (h : (Typing.subtract l r).node.hasError = false) :
    l.hasError = false ∧ r.hasError = false := by
  unfold Typing.subtract at h
  dsimp only at h
  split_ifs at h
  · exact (hasError_binary_eq_false.mp h).2
  · exact hasError_of_numeric h
  · have hparts := (hasError_binary_eq_false.mp (hasError_binary_eq_false.mp h).2.1).2
    simpa only [hasError_promote] using hparts
  all_goals
    have hparts := (hasError_binary_eq_false.mp h).2
    simpa only [hasError_promote, hasError_scale, hasError_extend] using hparts

theorem hasError_of_judge_binary {operands : List Ty} {legal : Bool} {result : Ty}
    {fault : CheckError} {op : BinaryOp}
    (h : (judge operands legal result fault fun ty => .binary op l r (.value ty)).node.hasError =
      false) : l.hasError = false ∧ r.hasError = false := by
  obtain ⟨ty, hnode⟩ := exists_judge_node operands legal result fault
    fun ty => .binary op l r (.value ty)
  rw [hnode] at h
  exact (hasError_binary_eq_false.mp h).2

theorem hasError_of_judge_unary {operands : List Ty} {legal : Bool} {result : Ty}
    {fault : CheckError} {op : UnaryOp} {lvalue : Bool}
    (h : (judge operands legal result fault fun ty => .unary op e ⟨ty, lvalue⟩).node.hasError =
      false) : e.hasError = false := by
  obtain ⟨ty, hnode⟩ := exists_judge_node operands legal result fault
    fun ty => .unary op e ⟨ty, lvalue⟩
  rw [hnode] at h
  exact (hasError_unary_eq_false.mp h).2

theorem hasError_of_binary {op : BinaryOp} (h : (Typing.binary op l r).node.hasError = false) :
    l.hasError = false ∧ r.hasError = false := by
  cases op with
  | add => exact hasError_of_add h
  | sub => exact hasError_of_subtract h
  | mul | div | rem | compare c | land | lor =>
      simpa only [hasError_extend, hasError_promote] using hasError_of_judge_binary h

theorem hasError_of_index (h : (Typing.index l r).node.hasError = false) :
    l.hasError = false ∧ r.hasError = false := by
  obtain ⟨hl, hr⟩ := (hasError_binary_eq_false.mp (hasError_of_judge_unary h)).2
  rw [hasError_promote] at hl
  refine ⟨hl, ?_⟩
  split at hr
  · rwa [hasError_scale, hasError_extend] at hr
  · rwa [hasError_extend] at hr

theorem hasError_of_castRule {target : Ty} (h : (Typing.cast target e).node.hasError = false) :
    e.hasError = false := by
  unfold Typing.cast at h
  dsimp only at h
  split_ifs at h with herror hnum hpointer
  · exact h
  · rw [Bool.and_eq_true] at hnum
    rwa [hasError_castTo _ (Ty.isError_of_isNumeric hnum.1), hasError_convert] at h
  · have htarget := Ty.isError_of_isScalar (Typing.size_of_castsPointer hpointer).2.1
    rwa [hasError_castTo _ htarget, hasError_promote] at h
  · simp [hasError, Ty.isError] at h

end

end Expr

end LittleC
