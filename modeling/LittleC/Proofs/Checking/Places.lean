import LittleC.Proofs.Checking.Nodes
import LittleC.Proofs.Checking.Run
import LittleC.Proofs.Typing.Accepted

/-! # Places and addresses over a run

All trees that a checker ever gives are marked as places exactly where they are places. So the
address operators and the assignments that it lets pass are over names, string literals and what
pointers point to. -/

namespace LittleC

namespace Typing

section
variable {target value : Expr}

/-- What is stored into was marked as a place, unless something failed to check before. -/
theorem lvalue_of_fault_assign (htarget : target.hasError = false)
    (hvalue : (value.convert target.ty).hasError = false)
    (hfault : (assign target value).fault = none) : target.lvalue = true := by
  have hsound : value.hasError = false := (Expr.hasError_convert value _).symm.trans hvalue
  rw [fault_assign (Expr.isError_ty_of_hasError htarget) (Expr.isError_ty_of_hasError hsound),
    assignFault] at hfault
  cases hlvalue : target.lvalue with
  | true => rfl
  | false =>
      rw [hlvalue] at hfault
      cases hfault

end

end Typing

namespace Workbench

open LittleC.Expr

/-- All nodes of all trees that were given have the shape of checked nodes. -/
structure Shaped (w : Workbench) : Prop where
  exprs : ∀ e ∈ w.exprs, e.Every Expr.Shaped
  stmts : ∀ s ∈ w.stmts, ∀ e ∈ s.exprs, e.Every Expr.Shaped

section
variable {w w' : Workbench} {q : Request} {qs : List Request}

theorem shaped_ofChecker (c : Checker) : (ofChecker c).Shaped := by
  constructor
  · intro e he
    exact absurd he List.not_mem_nil
  · intro s hs
    exact absurd hs List.not_mem_nil

theorem Shaped.serve (h : w.Shaped) (hq : w.Allows q) : (w.serve q).Shaped := by
  cases q with
  | expr v =>
      have hrule : Typing.Rule w.checker.symbols (fun _ => True) w.exprs v := hq
      refine ⟨List.forall_mem_cons.mpr ⟨?_, h.exprs⟩, h.stmts⟩
      exact hrule.every kept_shaped (fun x _ => shaped_ofSymbol _ x) h.exprs
  | stmt v =>
      have hrule : Typing.StmtRule (w.checker.returnType.getD .error) w.exprs w.stmts v := hq
      refine ⟨h.exprs, List.forall_mem_cons.mpr ⟨?_, h.stmts⟩⟩
      exact hrule.every kept_shaped h.exprs h.stmts
  | _ => exact ⟨h.exprs, h.stmts⟩

theorem Run.shaped (h : w.Run qs w') (hw : w.Shaped) : w'.Shaped := by
  induction h with
  | nil => exact hw
  | cons hq _ ih => exact ih (hw.serve hq)

/-- An assignment that passes and has no errors stores into a place. -/
theorem Shaped.target (h : w.Shaped) {target value : Expr}
    (hq : w.Allows (.stmt ⟨.assign target value, none⟩))
    (herror : (Stmt.assign target value).hasError = false) : target.isPlace = true := by
  have hrule : Typing.StmtRule (w.checker.returnType.getD .error) w.exprs w.stmts
      ⟨.assign target value, none⟩ := hq
  rw [Stmt.hasError, Bool.or_eq_false_iff] at herror
  generalize hv : (⟨.assign target value, none⟩ : Verdict Stmt) = v at hrule
  cases hrule with
  | assign htarget hvalue =>
      obtain ⟨hnode, hfault⟩ := Verdict.mk.inj hv
      obtain ⟨rfl, rfl⟩ := Stmt.assign.inj hnode
      have hlvalue := Typing.lvalue_of_fault_assign herror.1 herror.2 hfault.symm
      exact (h.exprs _ htarget).root.fits.1.symm.trans hlvalue
  | _ => cases hv

theorem Run.target (h : w.Run qs w') (hw : w.Shaped) {target value : Expr}
    (hq : .stmt ⟨.assign target value, none⟩ ∈ qs)
    (herror : (Stmt.assign target value).hasError = false) : target.isPlace = true := by
  induction h with
  | nil => exact absurd hq List.not_mem_nil
  | cons hallowed _ ih =>
      rcases List.mem_cons.mp hq with rfl | hq
      · exact hw.target hallowed herror
      · exact ih (hw.serve hallowed) hq

end

/-- After any run of requests, declarations of any types among them, every node that was made is
marked as a place exactly when it is a name of a single value or a dereference. So in a tree without
errors an address is of a name, a string literal or a dereference, and an assignment that was let
pass without errors stores into a name of a single value or a dereference. -/
theorem places_of_run {c : Checker} {qs : List Request} {w : Workbench}
    (h : (ofChecker c).Run qs w) :
    (∀ e ∈ w.exprs ++ Stmt.exprsAll w.stmts, ∀ n ∈ e.subexprs, n.lvalue = n.isPlace) ∧
    (∀ e ∈ w.exprs ++ Stmt.exprsAll w.stmts, e.hasError = false →
      ∀ operand i, .unary .address operand i ∈ e.subexprs → operand.isNamed = true) ∧
    ∀ target value, .stmt ⟨.assign target value, none⟩ ∈ qs →
      (Stmt.assign target value).hasError = false → target.isPlace = true := by
  have hshaped : w.Shaped := h.shaped (shaped_ofChecker c)
  have htrees : ∀ e ∈ w.exprs ++ Stmt.exprsAll w.stmts, e.Every Expr.Shaped := by
    intro e he
    rcases List.mem_append.mp he with he | he
    · exact hshaped.exprs e he
    · obtain ⟨s, hs, he⟩ := Stmt.mem_exprsAll.mp he
      exact hshaped.stmts s hs e he
  refine ⟨?_, ?_, ?_⟩
  · intro e he n hn
    exact (htrees e he n hn).fits.1
  · intro e he herror operand i hn
    have hproper := (hasError_eq_false_iff e).mp herror _ hn
    exact (htrees e he _ hn).address operand i rfl hproper
  · intro target value hq herror
    exact h.target (shaped_ofChecker c) hq herror

/-- A run that takes the address of an element of an array and stores into the element. -/
theorem places_of_run_element :
    let c := Checker.empty.serve (.declareVariable "a" (.array .int 0 4))
    let a := Expr.ofSymbol c.symbols ⟨0⟩
    let one := Expr.ofInteger ⟨1, false⟩
    let element := (Typing.index a one).node
    let address := (Typing.address element).node
    let qs : List Request := [.declareVariable "a" (.array .int 0 4), .expr ⟨a, none⟩,
      .expr ⟨one, none⟩, .expr ⟨element, none⟩, .expr ⟨address, none⟩,
      .stmt ⟨.assign element one, none⟩]
    let w : Workbench := ⟨c, [address, element, one, a], [.assign element one]⟩
    (ofChecker .empty).Run qs w ∧
      address.hasError = false ∧ address.lvalue = address.isPlace ∧ element.isNamed = true ∧
      (Stmt.assign element one).hasError = false ∧ element.isPlace = true := by
  intro c a one element address qs w
  have hrun : (ofChecker .empty).Run qs w := by
    refine .cons trivial (.cons (.ident trivial) (.cons (.number ⟨1, false⟩) ?_))
    refine .cons (Typing.Rule.index (l := a) (r := one) ?_ ?_) ?_
    · exact List.mem_cons_of_mem _ List.mem_cons_self
    · exact List.mem_cons_self
    refine .cons (Typing.Rule.address (e := element) List.mem_cons_self) ?_
    have htarget : element ∈ [address, element, one, a] :=
      List.mem_cons_of_mem _ List.mem_cons_self
    have hvalue : one ∈ [address, element, one, a] :=
      List.mem_cons_of_mem _ (List.mem_cons_of_mem _ List.mem_cons_self)
    exact .cons (Typing.StmtRule.assign htarget hvalue) (.nil _)
  have haddress : address ∈ w.exprs ++ Stmt.exprsAll w.stmts := List.mem_cons_self
  have hsound : address.hasError = false := by decide
  have hstored : (Stmt.assign element one).hasError = false := by decide
  obtain ⟨hlvalue, hoperand, htarget⟩ := places_of_run hrun
  have hplace : element.isPlace = true := htarget element one (by simp [qs]) hstored
  refine ⟨hrun, hsound, hlvalue address haddress address address.self_mem_subexprs, ?_,
    hstored, hplace⟩
  exact hoperand address haddress hsound element _ address.self_mem_subexprs

end Workbench

end LittleC
