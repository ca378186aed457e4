import LittleC.Proofs.Typing.Place
import LittleC.Proofs.Typing.Rules

/-! # Accepted statements

Statements that checking builds without a fault. A stored or returned value has the size of the
place or result that it goes to, and a condition is a single value. -/

namespace LittleC

/-- What the rules give for statements when they find no fault, over expressions without errors, in
a function that returns `result`. -/
inductive Stmt.Accepted (t : SymbolTable) (result : Ty) : Stmt → Prop where
  | expr {e : Expr} (he : e.Built t) (herror : e.hasError = false) : Accepted t result (.expr e)
  | assign {target value : Expr} (htarget : target.Built t) (hvalue : value.Built t)
      (herror : target.hasError = false ∧ value.hasError = false)
      (hfault : (Typing.assign target value).fault = none) :
      Accepted t result (Typing.assign target value).node
  | ret {e : Expr} (he : e.Built t) (herror : e.hasError = false)
      (hfault : (Typing.ret result e).fault = none) : Accepted t result (Typing.ret result e).node
  | loop {c : Expr} {body : Stmt} (hc : c.Built t) (herror : c.hasError = false)
      (hfault : (Typing.loop c body).fault = none) (hbody : Accepted t result body) :
      Accepted t result (Typing.loop c body).node
  | ifThen {c : Expr} {body : Stmt} (hc : c.Built t) (herror : c.hasError = false)
      (hfault : (Typing.ifThen c body).fault = none) (hbody : Accepted t result body) :
      Accepted t result (Typing.ifThen c body).node
  | ifElse {c : Expr} {body other : Stmt} (hc : c.Built t) (herror : c.hasError = false)
      (hfault : (Typing.ifElse c body other).fault = none) (hbody : Accepted t result body)
      (hother : Accepted t result other) : Accepted t result (Typing.ifElse c body other).node
  | block (scope : ScopeId) {body : List Stmt} (hbody : ∀ s ∈ body, Accepted t result s) :
      Accepted t result (.block scope body)

/-- Of the table only the types of its symbols count. -/
theorem Stmt.Accepted.of_types {t u : SymbolTable} (h : ∀ x, (t.symbol x).ty = (u.symbol x).ty)
    {result : Ty} {st : Stmt} (hst : st.Accepted t result) : st.Accepted u result := by
  induction hst with
  | expr he herror => exact .expr (he.of_types h) herror
  | assign htarget hvalue herror hfault =>
      exact .assign (htarget.of_types h) (hvalue.of_types h) herror hfault
  | ret he herror hfault => exact .ret (he.of_types h) herror hfault
  | loop hc herror hfault _ ih => exact .loop (hc.of_types h) herror hfault ih
  | ifThen hc herror hfault _ ih => exact .ifThen (hc.of_types h) herror hfault ih
  | ifElse hc herror hfault _ _ ih ih' => exact .ifElse (hc.of_types h) herror hfault ih ih'
  | block scope _ ih => exact .block scope ih

/-- The expressions of an accepted statement were built, and have no errors. -/
theorem Stmt.Accepted.exprs {t : SymbolTable} {result : Ty} {st : Stmt} (h : st.Accepted t result) :
    ∀ e ∈ st.exprs, e.Built t ∧ e.hasError = false := by
  have hcondition {c : Expr} (hc : c.Built t) (herror : c.hasError = false) :
      c.promote.Built t ∧ c.promote.hasError = false :=
    ⟨hc.test, (Expr.hasError_promote c).trans herror⟩
  induction h with
  | expr he herror => exact List.forall_mem_singleton.mpr ⟨he, herror⟩
  | assign htarget hvalue herror _ =>
      refine List.forall_mem_cons.mpr ⟨⟨htarget, herror.1⟩, List.forall_mem_singleton.mpr ?_⟩
      exact ⟨.converted _ hvalue, (Expr.hasError_convert _ _).trans herror.2⟩
  | ret he herror _ =>
      refine List.forall_mem_singleton.mpr ⟨.converted _ he, ?_⟩
      exact (Expr.hasError_convert _ _).trans herror
  | loop hc herror _ _ ih | ifThen hc herror _ _ ih =>
      exact List.forall_mem_cons.mpr ⟨hcondition hc herror, ih⟩
  | ifElse hc herror _ _ _ ih ih' =>
      exact List.forall_mem_cons.mpr ⟨hcondition hc herror, List.forall_mem_append.mpr ⟨ih, ih'⟩⟩
  | block scope _ ih =>
      intro e he
      obtain ⟨s, hs, he⟩ := Stmt.mem_exprsAll.mp he
      exact ih s hs e he

namespace Typing

section
variable {t : SymbolTable} {e target value : Expr} {ty : Ty}

/-- What promotes to a pointer is one, or an array that decays where a pointer is wanted. -/
theorem isDataPointer_convert {b : Base} {d : Nat} (hty : ty.isDataPointer = true)
    (h : e.ty.promote = .scalar b (d + 1)) : (e.convert ty).ty.isDataPointer = true := by
  obtain ⟨c, f, rfl⟩ := Ty.isDataPointer_iff.mp hty
  have hdecays : e.ty.promote.isDataPointer = true := by rw [h, Ty.isDataPointer_pointer]
  rw [ty_convert, Ty.isNumeric_pointer, Bool.and_false, if_neg Bool.false_ne_true]
  split
  · exact hdecays
  · next harray =>
      cases he : e.ty with
      | array => simp [he, Ty.isArray, Ty.isPointer, Ty.isError, Ty.depth] at harray
      | scalar c' f' =>
          cases f' with
          | zero => rw [he] at h; cases c' <;> cases h
          | succ f' => exact Ty.isDataPointer_pointer c' f'
      | _ => rw [he] at h; cases h

/-- A value that may go to a place of a single value has the size of the place once converted. -/
theorem size_convert (hty : ty.isScalar = true) (h : ty.promote.related e.ty.promote = true) :
    (e.convert ty).ty.isScalar = true ∧ (e.convert ty).ty.size = ty.size := by
  obtain ⟨b, hb⟩ | ⟨b, d, hb⟩ | hb := ty.promote.kinds
  · obtain ⟨c, hc⟩ | ⟨c, f, hc⟩ | hc := e.ty.promote.kinds
    · have hnum : ty.isNumeric = true := by rw [← Ty.isNumeric_promote, hb]; rfl
      have hnum' : e.ty.isNumeric = true := by rw [← Ty.isNumeric_promote, hc]; rfl
      rw [ty_convert, hnum, hnum']
      exact ⟨hty, rfl⟩
    · rw [hb, hc] at h
      cases h
    · rw [Ty.related_of_not_isScalar (Or.inr hc)] at h
      cases h
  · obtain ⟨c, hc⟩ | ⟨c, f, hc⟩ | hc := e.ty.promote.kinds
    · rw [hb, hc] at h
      cases h
    · have hnum : ty.isNumeric = false := by rw [← Ty.isNumeric_promote, hb]; rfl
      have hpointer : ty.isDataPointer = true := by
        rwa [Ty.isScalar_eq, hnum, Bool.false_or] at hty
      have hconverted := isDataPointer_convert hpointer hc
      exact ⟨Ty.isScalar_of_isDataPointer hconverted,
        (Ty.size_of_isDataPointer hconverted).trans (Ty.size_of_isDataPointer hpointer).symm⟩
    · rw [Ty.related_of_not_isScalar (Or.inr hc)] at h
      cases h
  · rw [Ty.related_of_not_isScalar (Or.inl hb)] at h
    cases h

theorem of_fault_assign (htarget : target.Built t)
    (herror : target.hasError = false ∧ value.hasError = false)
    (hfault : (assign target value).fault = none) :
    target.lvalue = true ∧ (value.convert target.ty).ty.isScalar = true ∧
      (value.convert target.ty).ty.size = target.ty.size := by
  have htype := Expr.isError_ty_of_hasError herror.1
  rw [fault_assign htype (Expr.isError_ty_of_hasError herror.2), assignFault] at hfault
  cases hlvalue : target.lvalue with
  | false => rw [hlvalue] at hfault; cases hfault
  | true =>
      rw [hlvalue] at hfault
      cases hrelated : target.ty.promote.related value.ty.promote with
      | false => rw [hrelated] at hfault; cases hfault
      | true => exact ⟨rfl, size_convert (htarget.isScalar_of_lvalue hlvalue htype) hrelated⟩

theorem of_fault_ret (hty : ty.isScalar = true) (herror : e.hasError = false)
    (hfault : (ret ty e).fault = none) :
    (e.convert ty).ty.isScalar = true ∧ (e.convert ty).ty.size = ty.size := by
  rw [fault_ret (Expr.isError_ty_of_hasError herror), retFault, Ty.isError_promote,
    Ty.isError_of_isScalar hty, Bool.false_or] at hfault
  cases hrelated : ty.promote.related e.ty.promote with
  | false => rw [hrelated] at hfault; cases hfault
  | true => exact size_convert hty hrelated

theorem of_fault_test (herror : e.hasError = false) (hfault : (test e).fault = none) :
    e.promote.ty.isScalar = true := by
  rw [fault_test (Expr.isError_ty_of_hasError herror), testFault] at hfault
  rw [Expr.ty_promote]
  cases hscalar : e.ty.promote.isScalar with
  | false => rw [hscalar] at hfault; cases hfault
  | true => rfl

end

end Typing

end LittleC
