import LittleC.Proofs.Encoding.Operators
import LittleC.Proofs.Lowering.Stmt

/-! # Forms of the code of trees

Operands of checked operators are single values of the sizes that their operators are written for.
Arrays and functions are only named: an array to take its address, and any of them where the result
is not used. What is passed in a call is the one thing that the rules leave open. -/

namespace LittleC

/-- A call passes values of sizes in `W`. -/
def Expr.Passes (W : Nat → Prop) : Expr → Prop
  | .call _ args _ => ∀ a ∈ args, W a.ty.size
  | _ => True

/-- Binary operators are over single values. -/
theorem BinaryOp.operands_isScalar {op : BinaryOp} {n l r : Ty} (h : op.Operands n l r) :
    l.isScalar = true ∧ r.isScalar = true := by
  cases op with
  | add | sub | mul | div | rem =>
      have hu := uniform_of_operands h (by simp)
      exact ⟨hu.left, hu.right⟩
  | compare c => exact ⟨h.2.1, h.2.2.1⟩
  | land | lor => exact ⟨h.2.1.1, h.2.2.1⟩

namespace Lowering

section
variable {W : Nat → Prop} {t : SymbolTable} {e : Expr} {n : Nat} {known : List Fact}

/-! ## Places and arguments -/

theorem located_newValue (place : Mem) (n : Nat) (s : State) :
    ∃ p, ((newValue (.mem place) n s).state.values (newValue (.mem place) n s).result).operand =
      .mem p := by
  refine ⟨place, ?_⟩
  rw [newValue_apply, State.values_addValue]
  rfl

/-- Names and string literals are places. -/
theorem namesPlace_lower (h : (∃ x i, e = .ident x i) ∨ ∃ string i, e = .text string i) :
    NamesPlace W (e.lower t) e.ty.size := by
  rcases h with ⟨x, i, rfl⟩ | ⟨string, i, rfl⟩
  · exact ⟨.newMem _ _, located_newValue _ _⟩
  · refine ⟨(Emits.internText string).bind fun label => .newMem _ _, fun s => ?_⟩
    exact located_newValue _ _ _

theorem emits_lowerAll : ∀ es : List Expr,
    (∀ e ∈ es, Emits W [] (e.lower t) fun v => [.wide W v]) →
      Emits W [] (Expr.lowerAll t es) fun vs => vs.map (.wide W)
  | [], _ => .pure nofun
  | e :: es, h => by
      rw [List.forall_mem_cons] at h
      refine h.1.bind fun v => (emits_lowerAll es h.2).lift.bind fun vs => .pure ?_
      rw [List.map_cons, List.forall_mem_cons]
      refine ⟨List.mem_append_right _ List.mem_cons_self, fun k hk => ?_⟩
      exact List.mem_append_left _ hk

/-! ## Statements -/

section
variable {place value : Lowering ValueId} {front : Label → Lowering Unit}
  {body other : Lowering Unit} {a : Nat}

/-- What is stored is named at the size of the place. -/
theorem emits_storeNamed (ha : W a) (hn : W n) (hplace : NamesPlace W place n)
    (hvalue : Emits W [] value fun v => [.sized v a]) :
    Emits W [] (storeNamed n place value) fun _ => [] := by
  refine .note_bind (hplace.emits.bind fun p => hvalue.lift.bind fun v => ?_)
  refine (emits_inRegister (.sized ha) []).bind fun source => ?_
  refine .operand_bind (k := .place p n) (List.mem_cons_of_mem _ List.mem_cons_self)
    fun target m hm hx himm => ?_
  cases hm
  cases hx with
  | imm => cases himm rfl
  | mem p => exact .emit (.store hn source p)
  | reg r => exact .emit (.load hn (.reg source) r)

theorem emits_store {b : Nat} (ha : W a) (hb : W b) (hn : W n)
    (hpointer : Emits W [] place fun v => [.sized v b])
    (hvalue : Emits W [] value fun v => [.sized v a]) :
    Emits W [] (store n place value) fun _ => [] := by
  refine .note_bind (hvalue.bind_both hpointer fun v p => ?_)
  refine (emits_inRegister (.cons (.sized ha)) []).bind fun source => ?_
  refine (emits_inRegister (.sized hb) [source]).bind fun target => ?_
  exact .emit (.store hn source _)

theorem emits_returnTo (label : Label) (ha : W a)
    (hvalue : Emits W [] value fun v => [.sized v a]) :
    Emits W [] (returnTo label value) fun _ => [] := by
  refine hvalue.bind fun v => (emits_load (.sized ha) .rax).bind fun _ => ?_
  exact .emit (.bare rfl)

theorem emits_loop (hfront : ∀ l, Emits W [] (front l) fun _ => [])
    (hbody : Emits W [] body fun _ => []) : Emits W [] (loop front body) fun _ => [] := by
  refine .note_bind (.newLabel_bind fun head => .newLabel_bind fun exit => ?_)
  refine Emits.release.bind fun _ => .mark_bind ((hfront exit).bind fun _ => hbody.bind fun _ => ?_)
  refine Emits.release.bind fun _ => .emit_bind (.bare rfl) ?_
  exact .mark _

theorem emits_ifThen (hfront : ∀ l, Emits W [] (front l) fun _ => [])
    (hbody : Emits W [] body fun _ => []) : Emits W [] (ifThen front body) fun _ => [] := by
  refine .note_bind (.newLabel_bind fun skip => (hfront skip).bind fun _ => hbody.bind fun _ => ?_)
  exact .mark _

theorem emits_ifElse (hfront : ∀ l, Emits W [] (front l) fun _ => [])
    (hbody : Emits W [] body fun _ => []) (hother : Emits W [] other fun _ => []) :
    Emits W [] (ifElse front body other) fun _ => [] := by
  refine .note_bind (.newLabel_bind fun skip => (hfront skip).bind fun _ => hbody.bind fun _ => ?_)
  refine .newLabel_bind fun exit => .emit_bind (.bare rfl) ?_
  exact .mark_bind (hother.bind fun _ => .mark _)

theorem emits_statements {done : Label} : ∀ ss : List Stmt,
    (∀ st ∈ ss, Emits W [] (st.lower t done) fun _ => []) →
      Emits W [] (Stmt.lowerAll t done ss) fun _ => []
  | [], _ => .pure nofun
  | st :: ss, h => by
      rw [List.forall_mem_cons] at h
      exact h.1.bind fun _ => emits_statements ss h.2

end

variable (hW : ∀ n, Width n → W n)
include hW

/-! ## Trees -/

theorem within_size {ty : Ty} (h : ty.isScalar = true) : W ty.size := hW _ (Ty.width_size h)

theorem emits_binary {op : BinaryOp} {ty left right : Ty} (h : op.Operands ty left right)
    {l r : Lowering ValueId} (hl : Emits W [] l fun v => [.sized v left.size])
    (hr : Emits W [] r fun v => [.sized v right.size]) :
    Emits W [] (op.lower ty.size l r) fun v => [.sized v ty.size] := by
  have hn : W ty.size := within_size hW (BinaryOp.isScalar_of_operands h)
  obtain ⟨hls, hrs⟩ := BinaryOp.operands_isScalar h
  have ha : W left.size := within_size hW hls
  have hb : W right.size := within_size hW hrs
  cases op with
  | add | sub | mul =>
      have hsize := (BinaryOp.uniform_of_operands h (by simp)).rightSize
      rw [hsize] at hr
      exact emits_arithmetic _ _ ha hn hl hr
  | div | rem => exact emits_divide _ _ ha hb hn hl hr
  | compare c =>
      have hsize : left.size = right.size := h.2.2.2.2
      rw [← hsize] at hr
      exact emits_compare c ha hn hl hr
  | land | lor => exact emits_logical _ _ ha hb hn hl hr

/-- A tree gives a value of the size of its type. -/
theorem emits_expr : ∀ e : Expr, e.Every (Expr.WellFormed t) → e.Every (Expr.Passes W) →
    W e.ty.size → Emits W [] (e.lower t) fun v => [.sized v e.ty.size]
  | .number v i, _, _, hn => emits_number v hn
  | .text string i, _, _, _ => .sized_of_place (namesPlace_lower (.inr ⟨string, i, rfl⟩)).emits
  | .ident x i, _, _, _ => .sized_of_place (namesPlace_lower (.inl ⟨x, i, rfl⟩)).emits
  | .call f args i, he, hw, hn => by
      obtain ⟨-, hargs⟩ := Expr.every_call.mp he
      obtain ⟨hpasses, hwargs⟩ := Expr.every_call.mp hw
      have heax : W 4 := hW 4 (.inr (.inl rfl))
      exact emits_call _ heax hn (emits_lowerAll args fun a ha =>
        .wide_of_sized (hpasses a ha) (emits_expr a (hargs a ha) (hwargs a ha) (hpasses a ha)))
  | .unary .negate e i, he, hw, hn => by
      obtain ⟨⟨⟨hwide, hty⟩, -⟩, hsub⟩ := Expr.every_unary.mp he
      have ha : W e.ty.size := within_size hW (hty.symm ▸ hwide.isScalar)
      exact emits_negate ha hn (emits_expr e hsub (Expr.every_unary.mp hw).2 ha)
  | .unary .logicalNot e i, he, hw, hn => by
      obtain ⟨⟨⟨-, hoperand, -⟩, -⟩, hsub⟩ := Expr.every_unary.mp he
      have ha : W e.ty.size := within_size hW hoperand
      exact emits_logicalNot ha hn (emits_expr e hsub (Expr.every_unary.mp hw).2 ha)
  | .unary .deref e i, he, hw, hn => by
      obtain ⟨⟨⟨hpointer, -⟩, -⟩, hsub⟩ := Expr.every_unary.mp he
      have ha : W e.ty.size := within_size hW (Ty.isScalar_of_isDataPointer hpointer)
      exact emits_deref ha hn (emits_expr e hsub (Expr.every_unary.mp hw).2 ha)
  | .unary .address e i, he, hw, _ => by
      obtain ⟨⟨haddress, -⟩, hnode⟩ := Expr.every_unary.mp he
      obtain ⟨-, hwnode⟩ := Expr.every_unary.mp hw
      have hsize : (Expr.unary .address e i).ty.size = pointerSize :=
        Ty.size_of_isDataPointer haddress.isDataPointer_address
      have hpointer : W pointerSize := hW 8 (.inr (.inr rfl))
      rw [hsize]
      rcases operand_of_address he with ⟨x, j, rfl⟩ | ⟨string, j, rfl⟩ | ⟨p, j, rfl⟩
      · exact emits_addressOfPlace hpointer (namesPlace_lower (.inl ⟨x, j, rfl⟩))
      · exact emits_addressOfPlace hpointer (namesPlace_lower (.inr ⟨string, j, rfl⟩))
      · obtain ⟨⟨⟨htarget, -⟩, -⟩, hsub⟩ := Expr.every_unary.mp hnode
        have ha : W p.ty.size := within_size hW (Ty.isScalar_of_isDataPointer htarget)
        exact emits_addressOfTarget ha hpointer
          (emits_expr p hsub (Expr.every_unary.mp hwnode).2 ha)
  | .cast e i, he, hw, hn => by
      obtain ⟨⟨hcanonical, -⟩, hsub⟩ := Expr.every_cast.mp he
      obtain ⟨hscalar, -⟩ := hcanonical.isScalar_cast
      have ha : W e.ty.size := within_size hW hscalar
      exact emits_cast ha hn (emits_expr e hsub (Expr.every_cast.mp hw).2 ha)
  | .binary op l r i, he, hw, hn => by
      obtain ⟨⟨hcanonical, -⟩, hl, hr⟩ := Expr.every_binary.mp he
      obtain ⟨-, hwl, hwr⟩ := Expr.every_binary.mp hw
      obtain ⟨hls, hrs⟩ := BinaryOp.operands_isScalar hcanonical
      exact emits_binary hW hcanonical (emits_expr l hl hwl (within_size hW hls))
        (emits_expr r hr hwr (within_size hW hrs))
termination_by e => SizeOf.sizeOf e

theorem emits_discardResult (he : e.Every (Expr.WellFormed t)) (hw : e.Every (Expr.Passes W)) :
    Emits W [] (discardResult (e.lower t)) fun _ => [] := by
  rcases he.root.1.isScalar with hident | htext | hscalar
  · exact (namesPlace_lower (.inl hident)).emits.bind fun v => Emits.unbind v
  · exact (namesPlace_lower (.inr htext)).emits.bind fun v => Emits.unbind v
  · exact (emits_expr hW e he hw (within_size hW hscalar)).bind fun v => Emits.unbind v

theorem emits_branch (he : e.Every (Expr.WellFormed t)) (hw : e.Every (Expr.Passes W))
    (hscalar : e.ty.isScalar = true) (label : Label) (onTrue : Bool) :
    Emits W [] (e.branch t label onTrue) fun _ => [] := by
  have hjump : ∀ c known, Emits W known (emit (.jcc c label)) fun _ => [] := fun c known =>
    .emit (.bare rfl)
  unfold Expr.branch
  split
  · next c l r i =>
      obtain ⟨⟨hcanonical, -⟩, hl, hr⟩ := Expr.every_binary.mp he
      obtain ⟨-, hwl, hwr⟩ := Expr.every_binary.mp hw
      have hoperands : (BinaryOp.compare c).Operands i.ty l.ty r.ty := hcanonical
      obtain ⟨hls, hrs⟩ := BinaryOp.operands_isScalar hoperands
      have hsize : l.ty.size = r.ty.size := hoperands.2.2.2.2
      have hleft := emits_expr hW l hl hwl (within_size hW hls)
      have hright := emits_expr hW r hr hwr (within_size hW hrs)
      rw [← hsize] at hright
      refine (emits_comparison (within_size hW hls) hleft hright).bind fun sides => ?_
      exact (Emits.unbind sides.2).bind fun _ => hjump _ _
  · refine (emits_expr hW e he hw (within_size hW hscalar)).bind fun v => ?_
    exact (emits_compareZero (within_size hW hscalar)).bind fun _ => hjump _ _

/-- The test that a statement begins with. -/
theorem emits_condition {c : Expr} (hc : c.Built t) (herror : c.hasError = false)
    (hfault : (Typing.test c).fault = none) (hw : c.promote.Every (Expr.Passes W)) (label : Label) :
    Emits W [] (c.promote.branch t label false) fun _ => [] := by
  have hformed := hc.test.every_wellFormed ((Expr.hasError_promote c).trans herror)
  exact emits_branch hW hformed hw (Typing.of_fault_test herror hfault) label false

theorem emits_assignment {target value : Expr} {done : Label}
    (htarget : target.Every (Expr.WellFormed t)) (hlvalue : target.lvalue = true)
    (hwtarget : target.Every (Expr.Passes W)) (hn : W target.ty.size) (ha : W value.ty.size)
    (hvalue : Emits W [] (value.lower t) fun v => [.sized v value.ty.size]) :
    Emits W [] ((Stmt.assign target value).lower t done) fun _ => [] := by
  rcases target_of_lvalue htarget.root hlvalue with ⟨x, i, rfl⟩ | ⟨p, i, rfl⟩
  · have hplace := namesPlace_lower (W := W) (t := t) (.inl ⟨x, i, rfl⟩)
    exact (emits_storeNamed ha hn hplace hvalue).bind fun _ => Emits.release
  · obtain ⟨⟨⟨hpointer, -⟩, -⟩, hp⟩ := Expr.every_unary.mp htarget
    have hb : W p.ty.size := within_size hW (Ty.isScalar_of_isDataPointer hpointer)
    have haddress := emits_expr hW p hp (Expr.every_unary.mp hwtarget).2 hb
    exact (emits_store ha hb hn haddress hvalue).bind fun _ => Emits.release

/-- Accepted statements are written in the known forms, as long as their calls are. -/
theorem emits_accepted {result : Ty} (hresult : result.isScalar = true) {st : Stmt}
    (h : st.Accepted t result) (hw : ∀ e ∈ st.exprs, e.Every (Expr.Passes W)) (done : Label) :
    Emits W [] (st.lower t done) fun _ => [] := by
  induction h with
  | expr he herror =>
      have hpasses := hw _ List.mem_cons_self
      exact (emits_discardResult hW (he.every_wellFormed herror) hpasses).bind fun _ =>
        Emits.release
  | @assign target value htarget hvalue herror hfault =>
      obtain ⟨hlvalue, hscalar, hsize⟩ := Typing.of_fault_assign htarget herror hfault
      have ha : W (value.convert target.ty).ty.size := within_size hW hscalar
      have hbuilt : (value.convert target.ty).Built t := .converted target.ty hvalue
      have hformed := hbuilt.every_wellFormed ((Expr.hasError_convert value _).trans herror.2)
      have hpasses := hw (value.convert target.ty) (List.mem_cons_of_mem _ List.mem_cons_self)
      exact emits_assignment hW (htarget.every_wellFormed herror.1) hlvalue
        (hw _ List.mem_cons_self) (hsize ▸ ha) ha (emits_expr hW _ hformed hpasses ha)
  | @ret e he herror hfault =>
      obtain ⟨hscalar, -⟩ := Typing.of_fault_ret hresult herror hfault
      have ha : W (e.convert result).ty.size := within_size hW hscalar
      have hbuilt : (e.convert result).Built t := .converted result he
      have hformed := hbuilt.every_wellFormed ((Expr.hasError_convert e _).trans herror)
      have hvalue := emits_expr hW _ hformed (hw _ List.mem_cons_self) ha
      exact (emits_returnTo done ha hvalue).bind fun _ => Emits.release
  | @loop c body hc herror hfault _ ih =>
      have hfront := emits_condition hW hc herror hfault (hw _ List.mem_cons_self)
      have hbody := ih fun e he => hw e (List.mem_cons_of_mem _ he)
      exact (emits_loop hfront hbody).bind fun _ => Emits.release
  | @ifThen c body hc herror hfault _ ih =>
      have hfront := emits_condition hW hc herror hfault (hw _ List.mem_cons_self)
      have hbody := ih fun e he => hw e (List.mem_cons_of_mem _ he)
      exact (emits_ifThen hfront hbody).bind fun _ => Emits.release
  | @ifElse c body other hc herror hfault _ _ ih ih' =>
      have hfront := emits_condition hW hc herror hfault (hw _ List.mem_cons_self)
      have hbody := ih fun e he => hw e (List.mem_cons_of_mem _ (List.mem_append_left _ he))
      have hother := ih' fun e he => hw e (List.mem_cons_of_mem _ (List.mem_append_right _ he))
      exact (emits_ifElse hfront hbody hother).bind fun _ => Emits.release
  | block scope _ ih =>
      have hbody := emits_statements _ fun st hst =>
        ih st hst fun e he => hw e (Stmt.mem_exprsAll.mpr ⟨st, hst, he⟩)
      exact hbody.bind fun _ => Emits.release

end

end Lowering

end LittleC
