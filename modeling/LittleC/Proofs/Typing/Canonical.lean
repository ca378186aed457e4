import LittleC.Proofs.Typing.Built
import Mathlib.Data.List.Forall2

/-! # Canonical trees

Every operator of a checked tree has operands of the types that its code is written for: all
conversions are nodes of their own. -/

namespace LittleC

/-- Operand types of a binary operator whose result has type `n`. -/
def BinaryOp.Operands (op : BinaryOp) (n l r : Ty) : Prop :=
  match op with
  | .add =>
      (n.IsWide ∧ l = n ∧ r = n) ∨
        n.isDataPointer = true ∧ (l = n ∧ r = .long ∨ l = .long ∧ r = n)
  | .sub =>
      (n.IsWide ∧ l = n ∧ r = n) ∨ (n.isDataPointer = true ∧ l = n ∧ r = .long) ∨
        n = .long ∧ l.isDataPointer = true ∧ r = l
  | .mul | .div | .rem => n.IsWide ∧ l = n ∧ r = n
  | .compare _ =>
      n = .int ∧ l.isScalar = true ∧ r.isScalar = true ∧ l.compatible r = true ∧ l.size = r.size
  | .land | .lor =>
      n = .int ∧ (l.isScalar = true ∧ l ≠ .char) ∧ r.isScalar = true ∧ r ≠ .char

/-- Argument types and result type of a call of a function of the given type. An unspecified list
takes promoted arguments. -/
def Ty.CallTypes (callee : Ty) (args : List Ty) (n : Ty) : Prop :=
  match callee with
  | .func b d params => n = .scalar b d ∧ List.Forall₂ (fun a p => a.agrees p = true) args params
  | .funcUnspecified b d => n = .scalar b d ∧ ∀ a ∈ args, a.promote = a
  | _ => False

namespace Expr

/-- The types at a node fit together. -/
def Canonical (t : SymbolTable) : Expr → Prop
  | number _ i => i.ty.IsWide
  | text s i => i.ty = .array .char 0 (TextLiteral.byteLength s + 1)
  | ident x i => i.ty = (t.symbol x).ty
  | call f args i => (t.symbol f).ty.CallTypes (args.map (·.ty)) i.ty
  | unary .negate e i => i.ty.IsWide ∧ e.ty = i.ty
  | unary .logicalNot e i => i.ty = .int ∧ e.ty.isScalar = true ∧ e.ty ≠ .char
  | unary .deref e i => e.ty.isDataPointer = true ∧ i.ty = e.ty.deref
  | unary .address e i =>
      (e.ty.isArray = true ∧ i.ty = e.ty.promote) ∨ e.lvalue = true ∧ i.ty = e.ty.pointerTo
  | cast e i =>
      (e.ty.isNumeric = true ∧ i.ty.isNumeric = true) ∨
        (e.ty.isScalar = true ∧ e.ty.size = 8) ∧ i.ty.isScalar = true ∧ i.ty.size = 8
  | binary op l r i => op.Operands i.ty l.ty r.ty

/-- Only a dereference and a name of a single value name places. -/
def isPlace : Expr → Bool
  | ident _ i => i.ty.isScalar
  | unary .deref _ _ => true
  | _ => false

/-- A canonical node that is marked as a place exactly when it is one. -/
def WellFormed (t : SymbolTable) (n : Expr) : Prop := n.Canonical t ∧ n.lvalue = n.isPlace

section
variable {t : SymbolTable} {e l r : Expr}

/-- A cast is from a single value to a single value. -/
theorem Canonical.isScalar_cast {i : Info} (h : (cast e i).Canonical t) :
    e.ty.isScalar = true ∧ i.ty.isScalar = true := by
  rcases h with ⟨h, h'⟩ | ⟨⟨h, -⟩, h', -⟩
  · exact ⟨Ty.isScalar_of_isNumeric h, Ty.isScalar_of_isNumeric h'⟩
  · exact ⟨h, h'⟩

/-! ## Conversions keep every node well-formed -/

theorem wellFormed_cast_numeric {target : Ty} (he : e.ty.isNumeric = true)
    (htarget : target.isNumeric = true) : (Expr.cast e (.value target)).WellFormed t :=
  ⟨Or.inl ⟨he, htarget⟩, rfl⟩

theorem every_promote (he : e.Every (WellFormed t)) : e.promote.Every (WellFormed t) := by
  unfold promote
  split
  · next h =>
      refine every_unary.mpr ⟨⟨Or.inl ⟨?_, rfl⟩, rfl⟩, he⟩
      rw [h]
      rfl
  · next h =>
      refine every_cast.mpr ⟨wellFormed_cast_numeric ?_ rfl, he⟩
      rw [h]
      rfl
  · exact he

theorem every_extend (he : e.Every (WellFormed t)) (target : Ty) :
    (e.extend target).Every (WellFormed t) := by
  unfold extend
  apply every_promote
  split
  · next h =>
      obtain ⟨hnum, htarget⟩ := widensTo_numeric h
      exact every_cast.mpr ⟨wellFormed_cast_numeric hnum htarget, he⟩
  · exact he

theorem every_convert (he : e.Every (WellFormed t)) (target : Ty) :
    (e.convert target).Every (WellFormed t) := by
  apply convert_cases he (every_promote he)
  intro p hp hnumeric htarget
  exact every_cast.mpr ⟨wellFormed_cast_numeric hnumeric htarget, hp⟩

theorem every_scale (he : e.Every (WellFormed t)) (hlong : e.ty = .long) (pointer : Ty) :
    (e.scale pointer).Every (WellFormed t) :=
  every_binary.mpr
    ⟨⟨⟨Or.inr rfl, hlong, rfl⟩, rfl⟩, he, every_number.mpr ⟨Or.inr rfl, rfl⟩⟩

end

section
variable {t : SymbolTable} {e l r : Expr}

/-! ## Each rule keeps every node well-formed -/

/-- Two numbers meet at one of the two types that arithmetic is done at. -/
theorem ty_extend_numbers (hl : l.ty.isNumeric = true) (hr : r.ty.isNumeric = true) :
    (l.extend r.ty).ty.IsWide ∧ (r.extend (l.extend r.ty).ty).ty = (l.extend r.ty).ty := by
  obtain ⟨b, hb⟩ := Ty.isNumeric_iff.mp hl
  obtain ⟨c, hc⟩ := Ty.isNumeric_iff.mp hr
  have hleft : (l.extend r.ty).ty = .scalar (b.join c) 0 := by
    rw [hc]
    exact ty_extend_left hb c
  rw [hleft]
  exact ⟨Base.isWide_join b c, ty_extend_right hc b⟩

/-- Widening does not make a number of anything else. -/
theorem isNumeric_ty_extend (e : Expr) (target : Ty) :
    (e.extend target).ty.isNumeric = e.ty.isNumeric := by
  rw [ty_extend]
  split
  · next h =>
      obtain ⟨hnum, htarget⟩ := widensTo_numeric h
      rw [Ty.isNumeric_promote, hnum, htarget]
  · exact Ty.isNumeric_promote _

theorem every_binary_extend {op : BinaryOp} {n : Ty} (hl : l.Every (WellFormed t))
    (hr : r.Every (WellFormed t))
    (hn : op.Operands n (l.extend r.ty).ty (r.extend (l.extend r.ty).ty).ty) :
    (Expr.binary op (l.extend r.ty) (r.extend (l.extend r.ty).ty) (.value n)).Every
      (WellFormed t) :=
  every_binary.mpr ⟨⟨hn, rfl⟩, every_extend hl _, every_extend hr _⟩

theorem every_numeric {op : BinaryOp} (hop : op = .add ∨ op = .sub)
    (hl : l.Every (WellFormed t)) (hr : r.Every (WellFormed t)) (hln : l.ty.isNumeric = true)
    (hrn : r.ty.isNumeric = true) : (Typing.numeric op l r).Every (WellFormed t) := by
  obtain ⟨hwide, hright⟩ := ty_extend_numbers hln hrn
  apply every_binary_extend hl hr
  rw [hright]
  rcases hop with rfl | rfl <;> exact Or.inl ⟨hwide, rfl, rfl⟩

theorem every_multiplicative {op : BinaryOp} (hop : op = .mul ∨ op = .div ∨ op = .rem)
    (hl : l.Every (WellFormed t)) (hr : r.Every (WellFormed t))
    (h : (Typing.multiplicative op l r).node.hasError = false) :
    (Typing.multiplicative op l r).node.Every (WellFormed t) := by
  obtain ⟨hlegal, hnode⟩ := judge_legal (by simp [hasError, Ty.isError]) h
  rw [Bool.and_eq_true, isNumeric_ty_extend, isNumeric_ty_extend] at hlegal
  obtain ⟨hwide, hright⟩ := ty_extend_numbers hlegal.1 hlegal.2
  rw [Typing.multiplicative, hnode]
  apply every_binary_extend hl hr
  rw [hright]
  rcases hop with rfl | rfl | rfl <;> exact ⟨hwide, rfl, rfl⟩

theorem every_compare {c : Comparison} (hl : l.Every (WellFormed t))
    (hr : r.Every (WellFormed t)) (h : (Typing.compare c l r).node.hasError = false) :
    (Typing.compare c l r).node.Every (WellFormed t) := by
  obtain ⟨hlegal, hnode⟩ := judge_legal (by simp [hasError, Ty.isError]) h
  rw [Typing.compare, hnode]
  apply every_binary_extend hl hr
  obtain ⟨hls, hrs, hsize⟩ :=
    Ty.size_of_compatible (promote_ty_extend _ _) (promote_ty_extend _ _) hlegal
  exact ⟨rfl, hls, hrs, hlegal, hsize⟩

theorem every_logical {op : BinaryOp} (hop : op = .land ∨ op = .lor)
    (hl : l.Every (WellFormed t)) (hr : r.Every (WellFormed t))
    (h : (Typing.logical op l r).node.hasError = false) :
    (Typing.logical op l r).node.Every (WellFormed t) := by
  obtain ⟨hlegal, hnode⟩ := judge_legal (by simp [hasError, Ty.isError]) h
  rw [ty_promote, ty_promote, Bool.and_eq_true, Ty.isLogical_promote, Ty.isLogical_promote]
    at hlegal
  have hoperands : op.Operands .int l.promote.ty r.promote.ty := by
    rw [ty_promote, ty_promote]
    rcases hop with rfl | rfl <;>
      exact ⟨rfl, ⟨hlegal.1, Ty.promote_ne_char _⟩, hlegal.2, Ty.promote_ne_char _⟩
  rw [Typing.logical, hnode]
  exact every_binary.mpr ⟨⟨hoperands, rfl⟩, every_promote hl, every_promote hr⟩

/-- A pointer and a scaled count, added or subtracted. -/
theorem every_offset {op : BinaryOp} (hop : op = .add ∨ op = .sub)
    (hl : l.Every (WellFormed t)) (hr : r.Every (WellFormed t))
    (hlp : l.ty.promote.isDataPointer = true) (hrn : r.ty.isNumeric = true) :
    (Expr.binary op l.promote ((r.extend .long).scale l.promote.ty)
      (.value l.promote.ty)).Every (WellFormed t) := by
  have hp : l.promote.ty.isDataPointer = true := by rw [ty_promote]; exact hlp
  have hn : op.Operands l.promote.ty l.promote.ty .long := by
    rcases hop with rfl | rfl
    · exact Or.inr ⟨hp, Or.inl ⟨rfl, rfl⟩⟩
    · exact Or.inr (Or.inl ⟨hp, rfl, rfl⟩)
  exact every_binary.mpr
    ⟨⟨hn, rfl⟩, every_promote hl, every_scale (every_extend hr _) (ty_extend_long hrn) _⟩

theorem every_add (hl : l.Every (WellFormed t)) (hr : r.Every (WellFormed t))
    (h : (Typing.add l r).node.hasError = false) :
    (Typing.add l r).node.Every (WellFormed t) := by
  unfold Typing.add at h ⊢
  dsimp only at h ⊢
  split_ifs at h ⊢ with herror hnum hleft hright
  · simp [hasError, Ty.isError] at h
  · rw [Bool.and_eq_true, Ty.isNumeric_promote, Ty.isNumeric_promote] at hnum
    exact every_numeric (Or.inl rfl) hl hr hnum.1 hnum.2
  · rw [Bool.and_eq_true, Ty.isNumeric_promote] at hleft
    exact every_offset (Or.inl rfl) hl hr hleft.1 hleft.2
  · rw [Bool.and_eq_true, Ty.isNumeric_promote] at hright
    have hp : r.promote.ty.isDataPointer = true := by rw [ty_promote]; exact hright.2
    exact every_binary.mpr
      ⟨⟨Or.inr ⟨hp, Or.inr ⟨rfl, rfl⟩⟩, rfl⟩,
        every_scale (every_extend hl _) (ty_extend_long hright.1) _, every_promote hr⟩
  · simp [hasError, Ty.isError] at h

theorem every_distance (hl : l.Every (WellFormed t)) (hr : r.Every (WellFormed t))
    (hlp : l.ty.promote.isDataPointer = true) (hagree : l.ty.promote.agrees r.ty.promote = true) :
    (Typing.distance l r).Every (WellFormed t) := by
  -- Types that agree with a scalar are that scalar.
  have hsame : r.promote.ty = l.promote.ty := by
    rw [ty_promote, ty_promote]
    obtain ⟨b, d, hp⟩ := Ty.isDataPointer_iff.mp hlp
    rw [hp, Ty.agrees_comm] at hagree
    rw [hp]
    exact Ty.agrees_scalar_iff.mp hagree
  have hp : l.promote.ty.isDataPointer = true := by rw [ty_promote]; exact hlp
  exact every_binary.mpr
    ⟨⟨⟨Or.inr rfl, rfl, rfl⟩, rfl⟩,
      every_binary.mpr
        ⟨⟨Or.inr (Or.inr ⟨rfl, hp, hsame⟩), rfl⟩, every_promote hl, every_promote hr⟩,
      every_number.mpr ⟨Or.inr rfl, rfl⟩⟩

theorem every_subtract (hl : l.Every (WellFormed t)) (hr : r.Every (WellFormed t))
    (h : (Typing.subtract l r).node.hasError = false) :
    (Typing.subtract l r).node.Every (WellFormed t) := by
  unfold Typing.subtract at h ⊢
  dsimp only at h ⊢
  split_ifs at h ⊢ with herror hnum hboth hleft
  · simp [hasError, Ty.isError] at h
  · rw [Bool.and_eq_true, Ty.isNumeric_promote, Ty.isNumeric_promote] at hnum
    exact every_numeric (Or.inr rfl) hl hr hnum.1 hnum.2
  · rw [Bool.and_eq_true] at hboth
    exact every_distance hl hr hboth.1 hboth.2
  · rw [Bool.and_eq_true, Ty.isNumeric_promote] at hleft
    exact every_offset (Or.inr rfl) hl hr hleft.1 hleft.2
  · simp [hasError, Ty.isError] at h

theorem every_binaryRule {op : BinaryOp} (hl : l.Every (WellFormed t))
    (hr : r.Every (WellFormed t)) (h : (Typing.binary op l r).node.hasError = false) :
    (Typing.binary op l r).node.Every (WellFormed t) := by
  cases op with
  | add => exact every_add hl hr h
  | sub => exact every_subtract hl hr h
  | mul => exact every_multiplicative (Or.inl rfl) hl hr h
  | div => exact every_multiplicative (Or.inr (Or.inl rfl)) hl hr h
  | rem => exact every_multiplicative (Or.inr (Or.inr rfl)) hl hr h
  | compare c => exact every_compare hl hr h
  | land => exact every_logical (Or.inl rfl) hl hr h
  | lor => exact every_logical (Or.inr rfl) hl hr h

theorem every_index (hl : l.Every (WellFormed t)) (hr : r.Every (WellFormed t))
    (h : (Typing.index l r).node.hasError = false) :
    (Typing.index l r).node.Every (WellFormed t) := by
  obtain ⟨hlegal, hnode⟩ := judge_legal (by simp [hasError, Ty.isError]) h
  rw [Typing.index, hnode, if_pos hlegal]
  rw [Bool.and_eq_true, Ty.agrees_scalar_iff, ty_promote] at hlegal
  obtain ⟨hlp, hlong⟩ := hlegal
  have hrn : r.ty.isNumeric = true := by
    rw [← isNumeric_ty_extend r .long, hlong]
    rfl
  have hp : l.promote.ty.isDataPointer = true := by rw [ty_promote]; exact hlp
  exact every_unary.mpr ⟨⟨⟨hp, rfl⟩, rfl⟩, every_offset (Or.inl rfl) hl hr hlp hrn⟩

theorem every_logicalNot (he : e.Every (WellFormed t))
    (h : (Typing.logicalNot e).node.hasError = false) :
    (Typing.logicalNot e).node.Every (WellFormed t) := by
  obtain ⟨hlegal, hnode⟩ := judge_legal (by simp [hasError, Ty.isError]) h
  rw [ty_promote, Ty.isLogical_promote] at hlegal
  rw [Typing.logicalNot, hnode]
  refine every_unary.mpr ⟨⟨⟨rfl, ?_, ?_⟩, rfl⟩, every_promote he⟩
  · rw [ty_promote]
    exact hlegal
  · rw [ty_promote]
    exact Ty.promote_ne_char _

theorem every_negate (he : e.Every (WellFormed t))
    (h : (Typing.negate e).node.hasError = false) :
    (Typing.negate e).node.Every (WellFormed t) := by
  obtain ⟨hlegal, hnode⟩ := judge_legal (by simp [hasError, Ty.isError]) h
  rw [Typing.negate, hnode]
  refine every_unary.mpr ⟨⟨⟨?_, rfl⟩, rfl⟩, every_promote he⟩
  rw [ty_promote] at hlegal ⊢
  exact Ty.isWide_promote hlegal

theorem every_deref (he : e.Every (WellFormed t)) (h : (Typing.deref e).node.hasError = false) :
    (Typing.deref e).node.Every (WellFormed t) := by
  obtain ⟨hlegal, hnode⟩ := judge_legal (by simp [hasError, Ty.isError]) h
  rw [Typing.deref, hnode]
  exact every_unary.mpr ⟨⟨⟨hlegal, rfl⟩, rfl⟩, every_promote he⟩

theorem every_address (he : e.Every (WellFormed t))
    (h : (Typing.address e).node.hasError = false) :
    (Typing.address e).node.Every (WellFormed t) := by
  obtain ⟨hlegal, hnode⟩ := judge_legal (by simp [hasError, Ty.isError]) h
  rw [Typing.address, hnode]
  exact every_unary.mpr ⟨⟨Or.inr ⟨hlegal, rfl⟩, rfl⟩, he⟩

theorem every_castTo {target : Ty} (he : e.Every (WellFormed t))
    (h : (Expr.cast e (.value target)).Canonical t) : (e.castTo target).Every (WellFormed t) := by
  unfold castTo
  split
  · exact he
  · exact every_cast.mpr ⟨⟨h, rfl⟩, he⟩

theorem isNumeric_ty_convert {target : Ty} (he : e.ty.isNumeric = true)
    (htarget : target.isNumeric = true) : (e.convert target).ty.isNumeric = true := by
  obtain ⟨b, hb⟩ := Ty.isNumeric_iff.mp he
  have harray : e.ty.isArray = false := by rw [hb]; rfl
  simp only [convert, harray, Bool.false_and, Bool.false_eq_true, if_false]
  split
  · exact htarget
  · exact he

theorem every_castRule {target : Ty} (he : e.Every (WellFormed t))
    (h : (Typing.cast target e).node.hasError = false) :
    (Typing.cast target e).node.Every (WellFormed t) := by
  unfold Typing.cast at h ⊢
  dsimp only at h ⊢
  split_ifs at h ⊢ with herror hnum hpointer
  · exact he
  · rw [Bool.and_eq_true, Ty.isNumeric_promote] at hnum
    exact every_castTo (every_convert he target)
      (Or.inl ⟨isNumeric_ty_convert hnum.2 hnum.1, hnum.1⟩)
  · refine every_castTo (every_promote he) (Or.inr ?_)
    rw [ty_promote]
    exact Typing.size_of_castsPointer hpointer
  · simp [hasError, Ty.isError] at h

end

end Expr

/-! ## Calls -/

namespace Typing

/-- Conversion wraps some of the arguments and leaves the rest. -/
theorem forall_mem_convertArgs {P : Expr → Prop} (hP : ∀ e target, P e → P (e.convert target)) :
    ∀ {args : List Expr} {params : List Ty}, (∀ a ∈ args, P a) →
      ∀ a ∈ (convertArgs args params).1, P a
  | [], _, h => by
      unfold convertArgs
      exact h
  | a :: as, [], h => by
      unfold convertArgs
      exact h
  | a :: as, p :: ps, h => by
      rw [List.forall_mem_cons] at h
      unfold convertArgs
      dsimp only
      split
      · exact List.forall_mem_cons.mpr ⟨hP a p h.1, forall_mem_convertArgs hP h.2⟩
      · exact List.forall_mem_cons.mpr ⟨hP a p h.1, h.2⟩

theorem anyError_convertArgs : ∀ (args : List Expr) (params : List Ty),
    Expr.anyError (convertArgs args params).1 = Expr.anyError args
  | [], _ => by simp [convertArgs]
  | a :: as, [] => by simp [convertArgs]
  | a :: as, p :: ps => by
      unfold convertArgs
      dsimp only
      split
      · simp only [Expr.anyError, Expr.hasError_convert, anyError_convertArgs as ps]
      · simp only [Expr.anyError, Expr.hasError_convert]

/-- When every argument converts, the converted ones have the types of the parameters. -/
theorem forall₂_agrees_convertArgs : ∀ {args : List Expr} {params : List Ty},
    params.length = args.length → (convertArgs args params).2 = true →
      List.Forall₂ (fun a p => a.agrees p = true) ((convertArgs args params).1.map (·.ty)) params
  | [], [], _, _ => by simp [convertArgs]
  | a :: as, p :: ps, hlen, h => by
      unfold convertArgs at h ⊢
      dsimp only at h ⊢
      split at h
      · next hagree =>
          rw [if_pos hagree, List.map_cons]
          exact .cons hagree (forall₂_agrees_convertArgs (Nat.succ.inj hlen) h)
      · cases h

end Typing

namespace Expr

theorem anyError_map_promote : ∀ args : List Expr,
    anyError (args.map (·.promote)) = anyError args
  | [] => rfl
  | a :: as => by simp only [List.map_cons, anyError, hasError_promote, anyError_map_promote as]

theorem hasError_of_call {ty : Ty} {f : SymbolId} {args : List Expr}
    (h : (Typing.call ty f args).node.hasError = false) : ∀ a ∈ args, a.hasError = false := by
  apply anyError_eq_false_iff.mp
  unfold Typing.call at h
  split at h
  · simp [hasError, Ty.isError] at h
  · next b d params =>
      dsimp only at h
      split_ifs at h with hlen hall
      · simp only [hasError, Bool.or_eq_false_iff, Typing.anyError_convertArgs] at h
        exact h.2
      · simp [hasError, Ty.isError] at h
      · simp [hasError, Ty.isError] at h
  · simp only [hasError, Bool.or_eq_false_iff, anyError_map_promote] at h
    exact h.2
  · simp [hasError, Ty.isError] at h
  · simp [hasError, Ty.isError] at h

theorem every_callRule {t : SymbolTable} {f : SymbolId} {args : List Expr}
    (hargs : ∀ a ∈ args, a.Every (WellFormed t))
    (h : (Typing.call (t.symbol f).ty f args).node.hasError = false) :
    (Typing.call (t.symbol f).ty f args).node.Every (WellFormed t) := by
  unfold Typing.call at h ⊢
  split at h
  · simp [hasError, Ty.isError] at h
  · next b d params hty =>
      dsimp only at h ⊢
      split_ifs at h with hlen hall
      · rw [if_pos hlen, if_pos hall]
        refine every_call.mpr ⟨⟨?_, rfl⟩, Typing.forall_mem_convertArgs
          (P := Every (WellFormed t)) (fun _ target he => every_convert he target) hargs⟩
        simp only [Canonical, hty]
        exact ⟨rfl, Typing.forall₂_agrees_convertArgs hlen hall⟩
      · simp [hasError, Ty.isError] at h
      · simp [hasError, Ty.isError] at h
  · next b d hty =>
      refine every_call.mpr ⟨⟨?_, rfl⟩, ?_⟩
      · simp only [Canonical, hty]
        refine ⟨rfl, ?_⟩
        simp only [List.map_map, List.forall_mem_map, Function.comp_apply, ty_promote]
        intro a _
        exact Ty.promote_promote _
      · simp only [List.forall_mem_map]
        intro a ha
        exact every_promote (hargs a ha)
  · simp [hasError, Ty.isError] at h
  · simp [hasError, Ty.isError] at h

/-! ## All checked trees -/

theorem hasError_of_test {e : Expr} (h : (Typing.test e).node.hasError = false) :
    e.hasError = false := by
  rwa [Typing.test, hasError_promote] at h

theorem wellFormed_ofInteger {t : SymbolTable} (l : IntegerLiteral) :
    (ofInteger l).WellFormed t := by
  refine ⟨?_, rfl⟩
  simp only [ofInteger, Canonical]
  split
  · exact Or.inr rfl
  · exact Or.inl rfl

/-- Every node of a tree without errors is well-formed. -/
theorem Built.every_wellFormed {t : SymbolTable} {e : Expr} (he : Built t e)
    (h : e.hasError = false) : e.Every (WellFormed t) := by
  induction he with
  | ident x => exact every_ident.mpr ⟨rfl, rfl⟩
  | number l => exact every_number.mpr (wellFormed_ofInteger l)
  | text s => exact every_text.mpr ⟨rfl, rfl⟩
  | call f _ ih => exact every_callRule (fun a ha => ih a ha (hasError_of_call h a ha)) h
  | index _ _ hl hr =>
      obtain ⟨hle, hre⟩ := hasError_of_index h
      exact every_index (hl hle) (hr hre) h
  | logicalNot _ ih =>
      have he := hasError_of_judge_unary h
      rw [hasError_promote] at he
      exact every_logicalNot (ih he) h
  | negate _ ih =>
      have he := hasError_of_judge_unary h
      rw [hasError_promote] at he
      exact every_negate (ih he) h
  | deref _ ih =>
      have he := hasError_of_judge_unary h
      rw [hasError_promote] at he
      exact every_deref (ih he) h
  | address _ ih => exact every_address (ih (hasError_of_judge_unary h)) h
  | sizeOf _ _ => exact every_number.mpr ⟨Or.inl rfl, rfl⟩
  | cast target _ ih => exact every_castRule (ih (hasError_of_castRule h)) h
  | binary op _ _ hl hr =>
      obtain ⟨hle, hre⟩ := hasError_of_binary h
      exact every_binaryRule (hl hle) (hr hre) h
  | test _ ih => exact every_promote (ih (hasError_of_test h))
  | converted target _ ih =>
      rw [hasError_convert] at h
      exact every_convert (ih h) target

/-- In a tree without errors that checking built, all nodes have operands of the types that their
operator is for. -/
theorem canonical_of_built {t : SymbolTable} {e : Expr} (he : Built t e)
    (h : e.hasError = false) : ∀ n ∈ e.subexprs, n.Canonical t :=
  fun n hn => (he.every_wellFormed h n hn).1

/-- The tree of `a[1]` over an array of numbers: the array is promoted, the index widened and
scaled. -/
theorem canonical_index_array :
    let t : SymbolTable := ⟨[.fresh "a" (.array .int 0 10)], [], []⟩
    let e := (Typing.index (ofSymbol t ⟨0⟩) (ofInteger ⟨1, false⟩)).node
    Built t e ∧ e.hasError = false ∧ ∀ n ∈ e.subexprs, n.Canonical t := by
  intro t e
  have hbuilt : Built t e := .index (.ident ⟨0⟩) (.number ⟨1, false⟩)
  have herror : e.hasError = false := by decide
  exact ⟨hbuilt, herror, canonical_of_built hbuilt herror⟩

end Expr

end LittleC
