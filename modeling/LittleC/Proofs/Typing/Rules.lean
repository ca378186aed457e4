import LittleC.Checker
import LittleC.Proofs.Typing.Canonical
import LittleC.Proofs.Typing.Table

/-! # Checking accepts exactly what the tables have

One lemma for each operation: its verdict on operands without errors is that of its table. A checker
that takes the verdict has the type of the table and an unchanged log, or an error and the one
mistake of the operation. -/

namespace LittleC

namespace Typing

open LittleC.Expr

section
variable {e l r : Expr}

/-- Two operands that promote to numbers meet at the type of the table. -/
theorem ty_extend_of_promote {b c : Base} (hl : l.ty.promote = .scalar b 0)
    (hr : r.ty.promote = .scalar c 0) :
    (l.extend r.ty).ty = .scalar (b.join c) 0 ∧
      (r.extend (l.extend r.ty).ty).ty = .scalar (b.join c) 0 := by
  have hln : l.ty.isNumeric = true := by rw [← Ty.isNumeric_promote, hl]; rfl
  have hrn : r.ty.isNumeric = true := by rw [← Ty.isNumeric_promote, hr]; rfl
  obtain ⟨b', hb'⟩ := Ty.isNumeric_iff.mp hln
  obtain ⟨c', hc'⟩ := Ty.isNumeric_iff.mp hrn
  have hjoin : b'.join c' = b.join c := by
    rw [hb'] at hl
    rw [hc'] at hr
    cases b' <;> cases hl <;> cases c' <;> cases hr <;> rfl
  have hleft : (l.extend r.ty).ty = .scalar (b.join c) 0 := by
    rw [hc', ty_extend_left hb' c', hjoin]
  rw [hleft, ← hjoin]
  exact ⟨rfl, ty_extend_right hc' b'⟩

/-- The operands of an extended pair are errors only if one of the given ones is. -/
theorem isError_ty_extend (e : Expr) (target : Ty) :
    (e.extend target).ty.isError = e.ty.isError := by
  rw [ty_extend]
  split
  · next h =>
      obtain ⟨hnum, htarget⟩ := widensTo_numeric h
      rw [Ty.isError_promote, Ty.isError_of_isNumeric hnum, Ty.isError_of_isNumeric htarget]
  · exact Ty.isError_promote _

theorem multiplicative_decides {op : BinaryOp} (hop : op = .mul ∨ op = .div ∨ op = .rem)
    (hl : l.ty.isError = false) (hr : r.ty.isError = false) :
    (multiplicative op l r).Decides (op.table l.ty.promote r.ty.promote)
      (.invalidBinaryOperands op.symbol) := by
  refine judge_decides (fun _ => rfl) (by simp [isError_ty_extend, hl, hr]) ?_
  rw [isNumeric_ty_extend, isNumeric_ty_extend, ← Ty.isNumeric_promote l.ty,
    ← Ty.isNumeric_promote r.ty]
  obtain ⟨b, hb⟩ | ⟨b, d, hb⟩ | hb := l.ty.promote.kinds
  · obtain ⟨c, hc⟩ | ⟨c, f, hc⟩ | hc := r.ty.promote.kinds
    · rw [(ty_extend_of_promote hb hc).1, hb, hc]
      rcases hop with rfl | rfl | rfl <;> rfl
    · rw [hb, hc]
      rcases hop with rfl | rfl | rfl <;> rfl
    · rw [BinaryOp.table_of_not_isScalar (Or.inr hc), Ty.isNumeric_of_not_isScalar hc]
      simp
  · rw [hb]
    rcases hop with rfl | rfl | rfl <;> rfl
  · rw [BinaryOp.table_of_not_isScalar (Or.inl hb), Ty.isNumeric_of_not_isScalar hb]
    simp

theorem compare_decides (c : Comparison) (hl : l.ty.isError = false)
    (hr : r.ty.isError = false) :
    (compare c l r).Decides ((BinaryOp.compare c).table l.ty.promote r.ty.promote)
      (.invalidBinaryOperands c.symbol) := by
  refine judge_decides (fun _ => rfl) (by simp [isError_ty_extend, hl, hr]) ?_
  rw [BinaryOp.table]
  cases hnum : l.ty.promote.isNumeric && r.ty.promote.isNumeric with
  | true =>
      obtain ⟨hln, hrn⟩ := Bool.and_eq_true_iff.mp hnum
      obtain ⟨b, hb⟩ := Ty.isNumeric_iff.mp hln
      obtain ⟨c', hc⟩ := Ty.isNumeric_iff.mp hrn
      obtain ⟨hleft, hright⟩ := ty_extend_of_promote hb hc
      rw [hright, hleft, (Base.isWide_join b c').compatible_self, hb, hc]
      rfl
  | false =>
      have hnum' := hnum
      rw [Ty.isNumeric_promote, Ty.isNumeric_promote] at hnum
      -- No widening takes place, on either side.
      have hleft : (l.extend r.ty).ty = l.ty.promote := ty_extend_of_not_numeric hnum
      have hright : (r.extend (l.extend r.ty).ty).ty = r.ty.promote := by
        apply ty_extend_of_not_numeric
        rw [hleft, Ty.isNumeric_promote, Bool.and_comm]
        exact hnum
      rw [hright, hleft, Ty.compatible_eq_related (Ty.promote_promote _) (Ty.promote_promote _)
        hnum']

theorem logical_decides {op : BinaryOp} (hop : op = .land ∨ op = .lor)
    (hl : l.ty.isError = false) (hr : r.ty.isError = false) :
    (logical op l r).Decides (op.table l.ty.promote r.ty.promote)
      (.invalidBinaryOperands op.symbol) := by
  refine judge_decides (fun _ => rfl) (by simp [ty_promote, Ty.isError_promote, hl, hr]) ?_
  rw [ty_promote, ty_promote, Ty.isLogical_promote, Ty.isLogical_promote]
  cases hls : l.ty.promote.isScalar with
  | false => rw [BinaryOp.table_of_not_isScalar (Or.inl hls)]; rfl
  | true =>
      cases hrs : r.ty.promote.isScalar with
      | false => rw [BinaryOp.table_of_not_isScalar (Or.inr hrs)]; rfl
      | true =>
          obtain ⟨b, d, hb⟩ := Ty.isScalar_iff.mp hls
          obtain ⟨c, f, hc⟩ := Ty.isScalar_iff.mp hrs
          rw [hb, hc]
          rcases hop with rfl | rfl <;> rfl

theorem add_decides (hl : l.ty.isError = false) (hr : r.ty.isError = false) :
    (add l r).Decides (BinaryOp.add.table l.ty.promote r.ty.promote)
      (.invalidBinaryOperands BinaryOp.add.symbol) := by
  unfold add
  simp only [Ty.isError_promote, hl, hr, Bool.or_self, Bool.false_eq_true, if_false, ty_promote]
  obtain ⟨b, hb⟩ | ⟨b, d, hb⟩ | hb := l.ty.promote.kinds
  · obtain ⟨c, hc⟩ | ⟨c, f, hc⟩ | hc := r.ty.promote.kinds
    · rw [hb, hc]
      exact ⟨(ty_extend_of_promote hb hc).1, rfl⟩
    · rw [hb, hc, Ty.isDataPointer_pointer]
      exact ⟨rfl, rfl⟩
    · rw [BinaryOp.table_of_not_isScalar (Or.inr hc), Ty.isNumeric_of_not_isScalar hc,
        Ty.isDataPointer_of_not_isScalar hc]
      simp only [Bool.and_false, Bool.false_eq_true, if_false]
      exact ⟨rfl, rfl⟩
  · obtain ⟨c, hc⟩ | ⟨c, f, hc⟩ | hc := r.ty.promote.kinds
    · rw [hb, hc, Ty.isDataPointer_pointer]
      exact ⟨rfl, rfl⟩
    · rw [hb, hc]
      simp only [Ty.isNumeric_pointer, Bool.and_false, Bool.false_and, Bool.false_eq_true,
        if_false]
      exact ⟨rfl, rfl⟩
    · rw [BinaryOp.table_of_not_isScalar (Or.inr hc), Ty.isNumeric_of_not_isScalar hc,
        Ty.isDataPointer_of_not_isScalar hc]
      simp only [Bool.and_false, Bool.false_eq_true, if_false]
      exact ⟨rfl, rfl⟩
  · rw [BinaryOp.table_of_not_isScalar (Or.inl hb), Ty.isNumeric_of_not_isScalar hb,
      Ty.isDataPointer_of_not_isScalar hb]
    exact ⟨rfl, rfl⟩

theorem subtract_decides (hl : l.ty.isError = false) (hr : r.ty.isError = false) :
    (subtract l r).Decides (BinaryOp.sub.table l.ty.promote r.ty.promote)
      (.invalidBinaryOperands BinaryOp.sub.symbol) := by
  unfold subtract
  simp only [Ty.isError_promote, hl, hr, Bool.or_self, Bool.false_eq_true, if_false, ty_promote]
  obtain ⟨b, hb⟩ | ⟨b, d, hb⟩ | hb := l.ty.promote.kinds
  · obtain ⟨c, hc⟩ | ⟨c, f, hc⟩ | hc := r.ty.promote.kinds
    · rw [hb, hc]
      exact ⟨(ty_extend_of_promote hb hc).1, rfl⟩
    · rw [hb, hc]
      exact ⟨rfl, rfl⟩
    · rw [BinaryOp.table_of_not_isScalar (Or.inr hc), hb, Ty.isNumeric_of_not_isScalar hc]
      exact ⟨rfl, rfl⟩
  · obtain ⟨c, hc⟩ | ⟨c, f, hc⟩ | hc := r.ty.promote.kinds
    · rw [hb, hc, Ty.isDataPointer_pointer]
      have hne : (Ty.scalar b (d + 1)).agrees (.scalar c 0) = false := by simp [Ty.agrees]
      rw [hne]
      exact ⟨rfl, rfl⟩
    · rw [hb, hc, Ty.isDataPointer_pointer]
      by_cases hsame : b = c ∧ d = f
      · obtain ⟨rfl, rfl⟩ := hsame
        have hentry : BinaryOp.sub.table (.scalar b (d + 1)) (.scalar b (d + 1)) = some .long :=
          if_pos ⟨rfl, rfl⟩
        rw [Ty.agrees_refl, hentry]
        exact ⟨rfl, rfl⟩
      · have hne : (Ty.scalar b (d + 1)).agrees (.scalar c (f + 1)) = false := by
          simpa [Ty.agrees] using hsame
        have hentry : BinaryOp.sub.table (.scalar b (d + 1)) (.scalar c (f + 1)) = none :=
          if_neg hsame
        rw [hne, hentry]
        exact ⟨rfl, rfl⟩
    · have hne : l.ty.promote.agrees r.ty.promote = false := by
        rw [hb, Ty.agrees_comm]
        exact Ty.agrees_of_not_isScalar hc b (d + 1)
      rw [BinaryOp.table_of_not_isScalar (Or.inr hc), Ty.isNumeric_of_not_isScalar hc, hne]
      simp only [Bool.and_false, Bool.false_eq_true, if_false]
      exact ⟨rfl, rfl⟩
  · rw [BinaryOp.table_of_not_isScalar (Or.inl hb), Ty.isNumeric_of_not_isScalar hb,
      Ty.isDataPointer_of_not_isScalar hb]
    exact ⟨rfl, rfl⟩

theorem binary_decides (op : BinaryOp) (hl : l.ty.isError = false) (hr : r.ty.isError = false) :
    (binary op l r).Decides (op.table l.ty.promote r.ty.promote)
      (.invalidBinaryOperands op.symbol) := by
  cases op with
  | add => exact add_decides hl hr
  | sub => exact subtract_decides hl hr
  | mul => exact multiplicative_decides (Or.inl rfl) hl hr
  | div => exact multiplicative_decides (Or.inr (Or.inl rfl)) hl hr
  | rem => exact multiplicative_decides (Or.inr (Or.inr rfl)) hl hr
  | compare c => exact compare_decides c hl hr
  | land => exact logical_decides (Or.inl rfl) hl hr
  | lor => exact logical_decides (Or.inr rfl) hl hr

theorem index_decides (hl : l.ty.isError = false) (hr : r.ty.isError = false) :
    (index l r).Decides (indexTable l.ty.promote r.ty.promote) (.invalidBinaryOperands "[]") := by
  refine judge_decides (fun _ => rfl)
    (by simp [ty_promote, Ty.isError_promote, isError_ty_extend, hl, hr]) ?_
  -- The index is extended before it is tested, so any number passes as a `long`.
  have hlong : (r.extend .long).ty.agrees .long = r.ty.promote.isNumeric := by
    rw [Ty.isNumeric_promote]
    cases hr : r.ty.isNumeric with
    | true => rw [ty_extend_long hr]; rfl
    | false =>
        rw [ty_extend_of_not_numeric (by rw [hr]; rfl)]
        cases h : r.ty.promote.agrees .long with
        | false => rfl
        | true =>
            rw [← Ty.isNumeric_promote, Ty.agrees_scalar_iff.mp h] at hr
            cases hr
  rw [ty_promote, hlong]
  obtain ⟨b, hb⟩ | ⟨b, d, hb⟩ | hb := l.ty.promote.kinds
  · rw [hb]
    rfl
  · obtain ⟨c, hc⟩ | ⟨c, f, hc⟩ | hc := r.ty.promote.kinds
    · rw [hb, hc, Ty.isDataPointer_pointer]
      rfl
    · rw [hb, hc]
      simp [indexTable, Ty.isNumeric_pointer]
    · rw [indexTable_of_not_isScalar (Or.inr hc), Ty.isNumeric_of_not_isScalar hc]
      simp
  · rw [indexTable_of_not_isScalar (Or.inl hb), Ty.isDataPointer_of_not_isScalar hb]
    rfl

theorem logicalNot_decides (he : e.ty.isError = false) :
    (logicalNot e).Decides (notTable e.ty.promote) (.invalidUnaryOperand "!") := by
  refine judge_decides (fun _ => rfl) (by simp [ty_promote, Ty.isError_promote, he]) ?_
  rw [ty_promote, Ty.isLogical_promote]
  cases e.ty.promote <;> rfl

theorem negate_decides (he : e.ty.isError = false) :
    (negate e).Decides (negateTable e.ty.promote) (.invalidUnaryOperand "-") := by
  refine judge_decides (fun _ => rfl) (by simp [ty_promote, Ty.isError_promote, he]) ?_
  rw [ty_promote]
  cases e.ty.promote with
  | scalar b d => cases d <;> rfl
  | _ => rfl

theorem deref_decides (he : e.ty.isError = false) :
    (deref e).Decides (derefTable e.ty.promote) (.invalidUnaryOperand "*") := by
  refine judge_decides (fun _ => rfl) (by simp [ty_promote, Ty.isError_promote, he]) ?_
  rw [ty_promote]
  cases e.ty.promote with
  | scalar b d => cases d <;> simp [derefTable, Ty.isDataPointer, Ty.isScalar, Ty.depth, Ty.deref,
      Ty.base]
  | _ => rfl

theorem address_decides (he : e.ty.isError = false) :
    (address e).Decides (if e.lvalue then some e.ty.pointerTo else none) .lvalueRequired :=
  judge_decides (fun _ => rfl) (by simp [he]) rfl

/-- A cast of a number to a number type gives that type. -/
theorem ty_castTo_of_isScalar {target : Ty} (h : target.isScalar = true) (e : Expr) :
    (e.castTo target).ty = target := by
  obtain ⟨b, d, rfl⟩ := Ty.isScalar_iff.mp h
  exact ty_castTo_scalar e b d

theorem castTable_eq (target source : Ty) :
    castTable target source =
      if (target.isNumeric && source.isNumeric) || castsPointer target source then some target
      else none := by
  obtain ⟨b, rfl⟩ | ⟨b, d, rfl⟩ | hb := target.kinds
  · obtain ⟨c, rfl⟩ | ⟨c, f, rfl⟩ | hc := source.kinds
    · rfl
    · cases b <;> simp [castTable, castsPointer, Ty.isDataPointer, Ty.isNumeric, Ty.isScalar,
        Ty.depth, Ty.agrees]
    · rw [castTable_of_not_isScalar (Or.inr hc), castsPointer,
        Ty.isDataPointer_of_not_isScalar hc, Ty.isNumeric_of_not_isScalar hc]
      simp [Ty.isDataPointer, Ty.isScalar, Ty.depth]
  · obtain ⟨c, rfl⟩ | ⟨c, f, rfl⟩ | hc := source.kinds
    · cases c <;> simp [castTable, castsPointer, Ty.isDataPointer, Ty.isNumeric, Ty.isScalar,
        Ty.depth, Ty.agrees]
    · simp [castTable, castsPointer, Ty.isDataPointer, Ty.isScalar, Ty.depth]
    · rw [castTable_of_not_isScalar (Or.inr hc), castsPointer,
        Ty.isDataPointer_of_not_isScalar hc, Ty.isNumeric_of_not_isScalar hc,
        Ty.agrees_of_not_isScalar hc]
      simp
  · rw [castTable_of_not_isScalar (Or.inl hb), castsPointer, Ty.isDataPointer_of_not_isScalar hb,
      Ty.isNumeric_of_not_isScalar hb, Ty.agrees_of_not_isScalar hb]
    simp

theorem cast_decides (target : Ty) (he : e.ty.isError = false) :
    (cast target e).Decides (castTable target e.ty.promote) .invalidCast := by
  rw [castTable_eq]
  unfold cast
  simp only [Ty.isError_promote, he, Bool.false_eq_true, if_false]
  cases hnum : target.isNumeric && e.ty.promote.isNumeric with
  | true =>
      have hscalar := Ty.isScalar_of_isNumeric (Bool.and_eq_true_iff.mp hnum).1
      exact ⟨ty_castTo_of_isScalar hscalar _, rfl⟩
  | false =>
      cases hpointer : castsPointer target e.ty.promote with
      | true => exact ⟨ty_castTo_of_isScalar (size_of_castsPointer hpointer).2.1 _, rfl⟩
      | false => exact ⟨rfl, rfl⟩

/-! ## Conversions -/

/-- Converted, a number has the type that a number is wanted at, an array where a pointer is wanted
is one, and anything else is as it was. -/
theorem ty_convert (e : Expr) (target : Ty) :
    (e.convert target).ty =
      if e.ty.isNumeric && target.isNumeric then target
      else if e.ty.isArray && target.isPointer then e.ty.promote else e.ty := by
  cases harray : e.ty.isArray with
  | true =>
      have hnum : e.ty.promote.isNumeric = false := by
        rw [Ty.isNumeric_promote, Ty.isNumeric_of_isArray harray]
      simp only [convert, harray, Bool.true_and, Ty.isNumeric_of_isArray harray, Bool.false_and]
      cases target.isPointer
      · simp [Ty.isNumeric_of_isArray harray]
      · simp [hnum, ty_promote]
  | false =>
      simp only [convert, harray, Bool.false_and, Bool.false_eq_true, if_false]
      cases hnum : e.ty.isNumeric && target.isNumeric with
      | false => rw [Bool.and_assoc, hnum]; simp
      | true =>
          rw [Bool.and_assoc, hnum, Bool.and_true]
          cases hagree : e.ty.agrees target with
          | false => rfl
          | true =>
              obtain ⟨b, hb⟩ := Ty.isNumeric_iff.mp (Bool.and_eq_true_iff.mp hnum).2
              rw [hb] at hagree ⊢
              exact Ty.agrees_scalar_iff.mp hagree

/-- A converted value is compatible with what is wanted exactly when the promoted types are
related. -/
theorem compatible_convert (e : Expr) (target : Ty) :
    target.compatible (e.convert target).ty = target.promote.related e.ty.promote := by
  rw [ty_convert]
  cases hnum : e.ty.isNumeric && target.isNumeric with
  | true =>
      obtain ⟨he, htarget⟩ := Bool.and_eq_true_iff.mp hnum
      rw [← Ty.isNumeric_promote] at he htarget
      have hwide := Ty.isWide_promote htarget
      obtain ⟨b, hb⟩ := Ty.isNumeric_iff.mp he
      obtain ⟨c, hc⟩ := Ty.isNumeric_iff.mp htarget
      rw [if_pos rfl, ← Ty.compatible_promote, hwide.compatible_self, hb, hc]
      rfl
  | false =>
      have hpromote :
          (if e.ty.isArray && target.isPointer then e.ty.promote else e.ty).promote =
            e.ty.promote := by
        split
        · exact Ty.promote_promote _
        · rfl
      rw [if_neg Bool.false_ne_true, ← Ty.compatible_promote, hpromote]
      apply Ty.compatible_eq_related (Ty.promote_promote _) (Ty.promote_promote _)
      rw [Ty.isNumeric_promote, Ty.isNumeric_promote, Bool.and_comm]
      exact hnum

theorem isError_ty_convert (e : Expr) (target : Ty) :
    (e.convert target).ty.isError = e.ty.isError := by
  rw [ty_convert]
  split_ifs with hnum
  · rw [Bool.and_eq_true] at hnum
    rw [Ty.isError_of_isNumeric hnum.1, Ty.isError_of_isNumeric hnum.2]
  · exact Ty.isError_promote _
  · rfl

/-- An argument has the type of its parameter after conversion exactly when it passes. -/
theorem agrees_convert (e : Expr) (param : Ty) :
    (e.convert param).ty.agrees param = e.ty.passes param := by
  rw [ty_convert]
  obtain ⟨b, rfl⟩ | ⟨b, d, rfl⟩ | hother := param.kinds
  · rw [show (Ty.scalar b 0).isNumeric = true from rfl, Bool.and_true,
      show (Ty.scalar b 0).isPointer = false from rfl, Bool.and_false, Ty.passes]
    cases hnum : e.ty.isNumeric with
    | true => exact Ty.agrees_refl _
    | false =>
        cases hagree : e.ty.agrees (.scalar b 0) with
        | true => rw [Ty.agrees_scalar_iff.mp hagree] at hnum; cases hnum
        | false => exact hagree
  · rw [Ty.isNumeric_pointer, Bool.and_false, if_neg Bool.false_ne_true, Ty.passes]
    cases he : e.ty with
    | scalar c f => cases c <;> cases f <;> simp [Ty.isArray, Ty.agrees, Ty.promote]
    | array c f n => simp [Ty.isArray, Ty.isPointer, Ty.isError, Ty.depth]
    | _ => rfl
  -- A parameter that is no single value takes an argument of its own type, unless that decays.
  · have hpasses : e.ty.passes param =
        (e.ty.agrees param && !(e.ty.isArray && param.isPointer)) := by
      cases param with
      | scalar b d => cases hother
      | _ => rfl
    rw [Ty.isNumeric_of_not_isScalar hother, Bool.and_false, if_neg Bool.false_ne_true, hpasses]
    cases hpointer : e.ty.isArray && param.isPointer with
    | false => simp
    | true =>
        cases he : e.ty with
        | array c f n =>
            cases param with
            | scalar b d => cases hother
            | _ => simp [Ty.agrees, Ty.promote]
        | _ => rw [he] at hpointer; cases hpointer

/-! ## Calls -/

theorem convertArgs_eq_true : ∀ (args : List Expr) (params : List Ty),
    (convertArgs args params).2 =
      ((args.map (·.ty)).zip params).all fun (a, p) => a.passes p
  | [], _ => by simp [convertArgs]
  | a :: as, [] => by simp [convertArgs]
  | a :: as, p :: ps => by
      unfold convertArgs
      dsimp only
      rw [agrees_convert]
      cases h : a.ty.passes p with
      | true => simp [convertArgs_eq_true as ps, h]
      | false => simp [h]

theorem call_decides (f : SymbolId) (args : List Expr) {callee : Ty}
    (hcallee : callee.isError = false) :
    (call callee f args).Decides (callTable callee (args.map (·.ty))) (callFault callee) := by
  cases callee with
  | scalar b d => exact ⟨rfl, rfl⟩
  | array b d n => exact ⟨rfl, rfl⟩
  | error => cases hcallee
  | funcUnspecified b d => exact ⟨rfl, rfl⟩
  | func b d params =>
      have hentry : callTable (.func b d params) (args.map (·.ty)) =
          if params.length = args.length ∧ (convertArgs args params).2 = true then
            some (.scalar b d)
          else none := by
        rw [convertArgs_eq_true, callTable, List.length_map]
      unfold call
      dsimp only
      by_cases hlen : params.length = args.length
      · rw [if_pos hlen]
        cases hall : (convertArgs args params).2 with
        | true =>
            rw [hentry.trans (if_pos ⟨hlen, hall⟩)]
            exact ⟨rfl, rfl⟩
        | false =>
            rw [hentry.trans (if_neg fun h => Bool.false_ne_true (hall.symm.trans h.2))]
            exact ⟨rfl, rfl⟩
      · rw [if_neg hlen, hentry.trans (if_neg fun h => hlen h.1)]
        exact ⟨rfl, rfl⟩

/-! ## Statements -/

theorem fault_assign (he : e.ty.isError = false) (hr : r.ty.isError = false) :
    (assign e r).fault = assignFault e.ty.promote e.lvalue r.ty.promote := by
  unfold assign assignFault
  simp only [he, isError_ty_convert, hr, compatible_convert, Bool.or_self, Bool.false_eq_true,
    if_false]
  cases e.lvalue <;> cases e.ty.promote.related r.ty.promote <;> rfl

theorem fault_ret (he : e.ty.isError = false) (expected : Ty) :
    (ret expected e).fault = retFault expected.promote e.ty.promote := by
  unfold ret retFault
  simp only [he, isError_ty_convert, Ty.compatible_comm _ expected, compatible_convert,
    Bool.false_or, Ty.isError_promote]

theorem fault_test (he : e.ty.isError = false) :
    (test e).fault = testFault e.ty.promote := by
  unfold test testFault
  simp only [ty_promote, Ty.isError_promote, he, Ty.isLogical_promote, Bool.false_or]

end

end Typing

/-! ## The checker -/

namespace Checker

/-- What an expression rule leaves: the type of a table entry and the checker as it was, or else an
error and the given mistake. -/
def Gives (c : Checker) (left : Expr × Checker) (entry : Option Ty) (fault : CheckError) : Prop :=
  match entry with
  | some ty => left.1.ty = ty ∧ left.2 = c
  | none => left.1.ty = .error ∧ left.2 = c.report fault

theorem gives_accept {v : Verdict Expr} {entry : Option Ty} {fault : CheckError} (c : Checker)
    (h : v.Decides entry fault) : c.Gives (c.accept v) entry fault := by
  cases entry with
  | some ty =>
      obtain ⟨hty, hfault⟩ := h
      exact ⟨hty, congrArg c.reportAny hfault⟩
  | none =>
      obtain ⟨hty, hfault⟩ := h
      exact ⟨hty, congrArg c.reportAny hfault⟩

/-- The checker follows the tables over the operands `l` and `r`, with `P` and `Q` their promoted
types. -/
structure Follows (c : Checker) (l r : Expr) : Prop where
  binary : ∀ op : BinaryOp,
    c.Gives (c.accept (Typing.binary op l r)) (op.table l.ty.promote r.ty.promote)
      (.invalidBinaryOperands op.symbol)
  index :
    c.Gives (c.accept (Typing.index l r)) (Typing.indexTable l.ty.promote r.ty.promote)
      (.invalidBinaryOperands "[]")
  logicalNot :
    c.Gives (c.accept (Typing.logicalNot l)) (Typing.notTable l.ty.promote)
      (.invalidUnaryOperand "!")
  negate :
    c.Gives (c.accept (Typing.negate l)) (Typing.negateTable l.ty.promote)
      (.invalidUnaryOperand "-")
  deref :
    c.Gives (c.accept (Typing.deref l)) (Typing.derefTable l.ty.promote)
      (.invalidUnaryOperand "*")
  address :
    c.Gives (c.accept (Typing.address l)) (if l.lvalue then some l.ty.pointerTo else none)
      .lvalueRequired
  cast : ∀ target : Ty,
    c.Gives (c.accept (Typing.cast target l)) (Typing.castTable target l.ty.promote) .invalidCast
  sizeOf :
    (c.accept (Typing.sizeOf l)).1.ty = .int ∧
      (c.accept (Typing.sizeOf l)).2 = if l.ty.isFunction then c.report .invalidSizeof else c
  assign :
    (c.accept (Typing.assign l r)).2 =
      c.reportAny (Typing.assignFault l.ty.promote l.lvalue r.ty.promote)
  ret : (c.ret l).2 = c.reportAny (Typing.retFault (c.returnType.getD .error).promote l.ty.promote)
  test : (c.accept (Typing.test l)).2 = c.reportAny (Typing.testFault l.ty.promote)
  loop : ∀ body : Stmt,
    (c.accept (Typing.loop l body)).2 = c.reportAny (Typing.testFault l.ty.promote)
  ifThen : ∀ body : Stmt,
    (c.accept (Typing.ifThen l body)).2 = c.reportAny (Typing.testFault l.ty.promote)
  ifElse : ∀ body other : Stmt,
    (c.accept (Typing.ifElse l body other)).2 = c.reportAny (Typing.testFault l.ty.promote)

/-- A call of any symbol of a proper type follows the table of calls. -/
def FollowsCalls (c : Checker) : Prop :=
  ∀ (f : SymbolId) (args : List Expr), (c.symbols.symbol f).ty.isError = false →
    c.Gives (c.call f args) (Typing.callTable (c.symbols.symbol f).ty (args.map (·.ty)))
      (Typing.callFault (c.symbols.symbol f).ty)

/-- In every state the checker accepts exactly what the tables have, over any operands without
errors, and reports the mistake of the operation otherwise. -/
theorem follows_tables (c : Checker) (l r : Expr) (hl : l.ty.isError = false)
    (hr : r.ty.isError = false) : c.Follows l r ∧ c.FollowsCalls := by
  refine ⟨?_, fun f args hf => c.gives_accept (Typing.call_decides f args hf)⟩
  constructor
  case binary => exact fun op => c.gives_accept (Typing.binary_decides op hl hr)
  case index => exact c.gives_accept (Typing.index_decides hl hr)
  case logicalNot => exact c.gives_accept (Typing.logicalNot_decides hl)
  case negate => exact c.gives_accept (Typing.negate_decides hl)
  case deref => exact c.gives_accept (Typing.deref_decides hl)
  case address => exact c.gives_accept (Typing.address_decides hl)
  case cast => exact fun target => c.gives_accept (Typing.cast_decides target hl)
  case sizeOf =>
    refine ⟨rfl, ?_⟩
    simp only [accept, Typing.sizeOf]
    split <;> rfl
  case assign => exact congrArg c.reportAny (Typing.fault_assign hl hr)
  case ret => exact congrArg c.reportAny (Typing.fault_ret hl _)
  case test => exact congrArg c.reportAny (Typing.fault_test hl)
  case loop => exact fun _ => congrArg c.reportAny (Typing.fault_test hl)
  case ifThen => exact fun _ => congrArg c.reportAny (Typing.fault_test hl)
  case ifElse => exact fun _ _ => congrArg c.reportAny (Typing.fault_test hl)

/-- A number and a string literal where `puts` is declared, which takes the one and not the
other. -/
theorem follows_tables_number_text :
    let c := (empty.defineFunction "puts" (.func .int 0 [.scalar .char 1])).2
    let l := Expr.ofInteger ⟨1, false⟩
    let r := Expr.ofText "\"a\""
    let puts := c.symbols.symbol ⟨0⟩
    l.ty.isError = false ∧ r.ty.isError = false ∧ puts.ty.isError = false ∧
      Typing.callTable puts.ty [r.ty] = some .int ∧ Typing.callTable puts.ty [l.ty] = none ∧
      c.Follows l r ∧ c.FollowsCalls :=
  ⟨rfl, rfl, rfl, rfl, rfl, follows_tables _ (.ofInteger ⟨1, false⟩) (.ofText "\"a\"") rfl rfl⟩

end Checker

end LittleC
