import LittleC.Assembly
import LittleC.Lowering.Laws

/-! # What the switch for notes decides

One relation says of an action that the switch decides which notes it writes and nothing else: with
the switch off the result and the state behind it are the same, and so is the code but for its
notes. Every operator is such an action when its operands are, and so the lowering of every tree
is. -/

namespace LittleC

open Lowering (State)

/-! ## Code without notes -/

def Line.isNote : Line → Bool
  | .note _ => true
  | _ => false

/-- What the switch leaves of a piece of code. -/
def kept (notes : Bool) (code : List Line) : List Line :=
  if notes then code else code.filter (!·.isNote)

theorem kept_append (notes : Bool) (code code' : List Line) :
    kept notes (code ++ code') = kept notes code ++ kept notes code' := by
  unfold kept
  split
  · rfl
  · exact List.filter_append ..

theorem kept_eq_self {code : List Line} (h : ∀ l ∈ code, l.isNote = false) (notes : Bool) :
    kept notes code = code := by
  unfold kept
  split
  · rfl
  · exact List.filter_eq_self.mpr fun l hl => by rw [h l hl, Bool.not_false]

namespace Lowering

/-! ## The switch in the state -/

namespace State

/-- The state with the switch for notes set. -/
def switch (s : State) (notes : Bool) : State := { s with notes := notes }

variable (s : State) (notes : Bool)

theorem unbind_switch (v : ValueId) : (s.switch notes).unbind v = (s.unbind v).switch notes := by
  have hvalues : (s.switch notes).values v = s.values v := rfl
  unfold unbind
  rw [hvalues]
  cases (s.values v).reg? with
  | none => rfl
  | some r => exact (apply_ite (State.switch · notes) (s.pool r = some v) (s.hold r none) s).symm

theorem assign_switch (v : ValueId) (r : Reg) :
    (s.switch notes).assign v r = (s.assign v r).switch notes := by
  unfold assign
  rw [unbind_switch]
  rfl

theorem addValue_switch (value : Value) :
    (s.switch notes).addValue value = (s.addValue value).switch notes := by
  unfold addValue
  cases value.reg? <;> rfl

end State

/-- Of the notes that the action writes when the switch is on, it writes those that the switch lets
through, and all else it does as with the switch on. -/
def Heeds {α : Type} (a : Lowering α) : Prop :=
  ∀ (notes : Bool) (s : State),
    a (s.switch notes) =
      ⟨(a (s.switch true)).result, kept notes (a (s.switch true)).code,
        (a (s.switch true)).state.switch notes⟩

section
variable {α β : Type}

namespace Heeds

theorem of_plain {a : Lowering α} (hcode : ∀ s, ∀ l ∈ (a s).code, l.isNote = false)
    (h : ∀ s notes, a (s.switch notes) = ⟨(a s).result, (a s).code, (a s).state.switch notes⟩) :
    Heeds a := by
  intro notes s
  rw [h s notes, h s true, kept_eq_self (hcode s)]
  rfl

theorem of_silent {a : Lowering α} (hcode : ∀ s, (a s).code = [])
    (h : ∀ s notes, a (s.switch notes) = ⟨(a s).result, (a s).code, (a s).state.switch notes⟩) :
    Heeds a :=
  of_plain (fun s l hl => by
    rw [hcode s] at hl
    cases hl) h

theorem pure (x : α) : Heeds (Pure.pure x) := of_silent (fun _ => rfl) fun _ _ => rfl

theorem bind {a : Lowering α} {f : α → Lowering β} (h : Heeds a) (hf : ∀ x, Heeds (f x)) :
    Heeds (a >>= f) := by
  intro notes s
  have hrest := hf (a (s.switch true)).result notes (a (s.switch true)).state
  -- The state behind the first action has the switch on, as it had before.
  have hswitch : (a (s.switch true)).state.switch true = (a (s.switch true)).state :=
    (congrArg Lowered.state (h true s)).symm
  rw [hswitch] at hrest
  simp only [bind_apply, h notes s, hrest, kept_append]

/-- What is read does not depend on the switch. -/
theorem inspect_bind {f : State → α} {g : α → Lowering β}
    (h : ∀ s notes, f (s.switch notes) = f s) (hg : ∀ x, Heeds (g x)) :
    Heeds (inspect f >>= g) :=
  (of_silent (fun _ => rfl) fun s notes => congrArg (Lowered.mk · [] _) (h s notes)).bind hg

/-- What is changed does not depend on the switch, which stays. -/
theorem update {f : State → State} (h : ∀ s notes, f (s.switch notes) = (f s).switch notes) :
    Heeds (update f) :=
  of_silent (fun _ => rfl) fun s notes => congrArg (Lowered.mk () []) (h s notes)

theorem newLabel : Heeds newLabel := of_silent (fun _ => rfl) fun _ _ => rfl

theorem newValue (l : Location) (size : Nat) : Heeds (newValue l size) :=
  of_silent (fun _ => rfl) fun s notes => congrArg (Lowered.mk _ []) (s.addValue_switch notes _)

theorem internText (text : String) : Heeds (internText text) :=
  of_silent (fun _ => rfl) fun _ _ => rfl

theorem emit (i : Instr) : Heeds (emit i) :=
  of_plain (fun _ _ hl => List.mem_singleton.mp hl ▸ rfl) fun _ _ => rfl

theorem mark (l : Label) : Heeds (mark l) :=
  of_plain (fun _ _ hl => List.mem_singleton.mp hl ▸ rfl) fun _ _ => rfl

/-- The only action that looks at the switch. -/
theorem note (text : String) : Heeds (note text) := by
  rintro (_ | _) s
  · rfl
  · rfl

theorem ite {c : Prop} [Decidable c] {a b : Lowering α} (h : Heeds a) (h' : Heeds b) :
    Heeds (if c then a else b) := by
  split
  · exact h
  · exact h'

/-- An instruction that some calls need. -/
theorem optional {c : Prop} [Decidable c] {i : Instr} {f : Unit → Lowering α}
    (h : Heeds (f ())) : Heeds (if c then Lowering.emit i >>= f else f ()) :=
  ((emit i).bind fun _ => h).ite h

end Heeds

/-! ## Registers -/

theorem heeds_evict (r : Reg) : Heeds (evict r) := by
  refine .inspect_bind (fun _ _ => rfl) fun v => ?_
  cases v with
  | none => exact .pure ()
  | some v =>
      refine .inspect_bind (fun _ _ => rfl) fun size => ?_
      refine .inspect_bind (fun _ _ => rfl) fun offset => ?_
      have hlowest : Heeds (update fun s => { s with lowest := offset }) := .update fun _ _ => rfl
      have hmoved : Heeds (update fun s => (s.setLocation v (.mem (.frame offset))).hold r none) :=
        .update fun _ _ => rfl
      exact hlowest.bind fun _ => (Heeds.emit _).bind fun _ =>
        (Heeds.note "spill").bind fun _ => hmoved

theorem heeds_takeReg (exclude : List Reg) : Heeds (takeReg exclude) := by
  refine .inspect_bind (fun _ _ => rfl) fun r => ?_
  cases r with
  | some r => exact .pure r
  | none => exact .inspect_bind (fun _ _ => rfl) fun r => (heeds_evict r).bind fun _ => .pure r

theorem heeds_load (v : ValueId) (r : Reg) : Heeds (load v r) := by
  refine .inspect_bind (fun _ _ => rfl) fun held => Heeds.ite (.pure ()) ?_
  refine (heeds_evict r).bind fun _ => .inspect_bind (fun _ _ => rfl) fun size => ?_
  exact .inspect_bind (fun _ _ => rfl) fun source => (Heeds.emit _).bind fun _ =>
    .update fun s notes => s.assign_switch notes v r

theorem heeds_fetch (v : ValueId) (exclude : List Reg) : Heeds (fetch v exclude) :=
  (heeds_takeReg exclude).bind fun r => (heeds_load v r).bind fun _ => .pure r

theorem heeds_inRegister (v : ValueId) (exclude : List Reg) : Heeds (inRegister v exclude) := by
  refine .inspect_bind (fun _ _ => rfl) fun value => ?_
  cases value.reg? with
  | some r => exact (heeds_fetch v exclude).ite (.pure r)
  | none => exact heeds_fetch v exclude

theorem heeds_forM_evict : ∀ rs : List Reg, Heeds (rs.forM evict)
  | [] => .pure ()
  | r :: rs => (heeds_evict r).bind fun _ => heeds_forM_evict rs

theorem heeds_unbind (v : ValueId) : Heeds (unbind v) :=
  .update fun s notes => s.unbind_switch notes v

theorem heeds_release : Heeds release := .update fun _ _ => rfl

theorem heeds_rebind (v : ValueId) (r : Reg) (size : Nat) : Heeds (rebind v r size) :=
  (heeds_unbind v).bind fun _ => .newValue _ _

theorem heeds_materialize (c : Comparison) (r : Reg) : Heeds (materialize c r) :=
  (Heeds.emit _).bind fun _ => .emit _

/-! ## Operators -/

theorem heeds_number (value : Int) (size : Nat) : Heeds (number value size) := by
  refine Heeds.ite (.newValue _ _) ?_
  exact (heeds_takeReg []).bind fun _ => (Heeds.emit _).bind fun _ => .newValue _ _

section
variable {left right : Lowering ValueId}

theorem heeds_negate (size : Nat) (h : Heeds left) : Heeds (negate size left) :=
  (Heeds.note "negate").bind fun _ => h.bind fun v => (heeds_inRegister v []).bind fun r =>
    (Heeds.emit _).bind fun _ => heeds_rebind v r size

theorem heeds_logicalNot (size : Nat) (h : Heeds left) : Heeds (logicalNot size left) :=
  (Heeds.note "not").bind fun _ => h.bind fun v => .inspect_bind (fun _ _ => rfl) fun _ =>
    (heeds_inRegister v []).bind fun r => (Heeds.emit _).bind fun _ =>
      (heeds_materialize .eq r).bind fun _ => heeds_rebind v r size

theorem heeds_deref (size : Nat) (h : Heeds left) : Heeds (deref size left) :=
  (Heeds.note "dereference").bind fun _ => h.bind fun v => (heeds_inRegister v []).bind fun r =>
    (Heeds.emit _).bind fun _ => heeds_rebind v r size

theorem heeds_addressOfTarget (h : Heeds left) : Heeds (addressOfTarget left) :=
  (Heeds.note "address").bind fun _ => h.bind fun v => (heeds_inRegister v []).bind fun r =>
    heeds_rebind v r pointerSize

theorem heeds_addressOfPlace (h : Heeds left) : Heeds (addressOfPlace left) :=
  (Heeds.note "address").bind fun _ => h.bind fun _ => .inspect_bind (fun _ _ => rfl) fun _ =>
    (heeds_takeReg []).bind fun _ => (Heeds.emit _).bind fun _ => .newValue _ _

theorem heeds_cast (size : Nat) (h : Heeds left) : Heeds (cast size left) := by
  refine h.bind fun v => .inspect_bind (fun _ _ => rfl) fun source => Heeds.ite (.pure v) ?_
  refine (Heeds.note "cast").bind fun _ => (heeds_inRegister v []).bind fun r => ?_
  apply Heeds.ite
  · exact (Heeds.emit _).bind fun _ => heeds_rebind v r size
  · exact (Heeds.emit _).bind fun _ => heeds_rebind v r size

theorem heeds_arithmetic (op : AluOp) (title : String) (size : Nat) (hl : Heeds left)
    (hr : Heeds right) : Heeds (arithmetic op title size left right) :=
  (Heeds.note title).bind fun _ => hl.bind fun l => hr.bind fun r =>
    (heeds_inRegister l []).bind fun target => .inspect_bind (fun _ _ => rfl) fun _ =>
      (Heeds.emit _).bind fun _ => (heeds_unbind r).bind fun _ => heeds_rebind l target size

theorem heeds_divide (title : String) (result : Reg) (size : Nat) (hl : Heeds left)
    (hr : Heeds right) : Heeds (divide title result size left right) :=
  (Heeds.note title).bind fun _ => hl.bind fun l => hr.bind fun r =>
    (heeds_load l .rax).bind fun _ => (heeds_evict .rdx).bind fun _ =>
      (heeds_load r .rcx).bind fun _ => (Heeds.emit _).bind fun _ => (Heeds.emit _).bind fun _ =>
        (heeds_unbind r).bind fun _ => (heeds_unbind l).bind fun _ => .newValue _ _

theorem heeds_comparison (hl : Heeds left) (hr : Heeds right) : Heeds (comparison left right) :=
  hl.bind fun l => hr.bind fun _ => .inspect_bind (fun _ _ => rfl) fun _ =>
    (heeds_inRegister l []).bind fun _ => .inspect_bind (fun _ _ => rfl) fun _ =>
      (Heeds.emit _).bind fun _ => (heeds_unbind l).bind fun _ => .pure _

theorem heeds_compare (c : Comparison) (size : Nat) (hl : Heeds left) (hr : Heeds right) :
    Heeds (compare c size left right) :=
  (Heeds.note c.symbol).bind fun _ => (heeds_comparison hl hr).bind fun sides =>
    (heeds_materialize c sides.1).bind fun _ => (heeds_unbind sides.2).bind fun _ =>
      .newValue _ _

theorem heeds_compareZero (v : ValueId) : Heeds (compareZero v) :=
  .inspect_bind (fun _ _ => rfl) fun _ => (heeds_inRegister v []).bind fun _ =>
    (Heeds.emit _).bind fun _ => heeds_unbind v

theorem heeds_logical (title : String) (skip : Comparison) (size : Nat) (hl : Heeds left)
    (hr : Heeds right) : Heeds (logical title skip size left right) :=
  (Heeds.note title).bind fun _ => (heeds_forM_evict Reg.all).bind fun _ =>
    Heeds.newLabel.bind fun merge => hl.bind fun l => (heeds_compareZero l).bind fun _ =>
      (Heeds.emit _).bind fun _ => hr.bind fun r => (heeds_compareZero r).bind fun _ =>
        (Heeds.mark merge).bind fun _ => (heeds_takeReg []).bind fun target =>
          (heeds_materialize .ne target).bind fun _ => .newValue _ _

theorem heeds_binary (op : BinaryOp) (size : Nat) (hl : Heeds left) (hr : Heeds right) :
    Heeds (op.lower size left right) := by
  cases op with
  | add | sub | mul => exact heeds_arithmetic _ _ size hl hr
  | div | rem => exact heeds_divide _ _ size hl hr
  | compare c => exact heeds_compare c size hl hr
  | land | lor => exact heeds_logical _ _ size hl hr

/-! ## Calls -/

theorem heeds_passArg (index : Nat) (v : ValueId) : Heeds (passArg index v) := by
  refine .inspect_bind (fun _ _ => rfl) fun value => ?_
  cases Reg.args[index]? with
  | some r => exact .emit _
  | none => exact Heeds.ite (.emit _) ((Heeds.emit _).bind fun _ => .emit _)

theorem heeds_passArgs : ∀ (index : Nat) (vs : List ValueId), Heeds (passArgs index vs)
  | _, [] => .pure ()
  | index, v :: vs => (heeds_passArgs (index + 1) vs).bind fun _ => heeds_passArg index v

theorem heeds_call (callee : Symbol) (size : Nat) {args : Lowering (List ValueId)}
    (h : Heeds args) : Heeds (call callee size args) := by
  refine (Heeds.note "call").bind fun _ => h.bind fun values => ?_
  refine (heeds_forM_evict Reg.all).bind fun _ => Heeds.optional ?_
  refine (heeds_passArgs 0 values).bind fun _ => Heeds.optional ?_
  exact (Heeds.emit _).bind fun _ => Heeds.optional <| .newValue _ _

/-! ## Statements -/

theorem heeds_store (size : Nat) (hl : Heeds left) (hr : Heeds right) :
    Heeds (store size left right) :=
  (Heeds.note "assign").bind fun _ => hr.bind fun v => hl.bind fun p =>
    (heeds_inRegister v []).bind fun source => (heeds_inRegister p [source]).bind fun _ => .emit _

theorem heeds_storeNamed (size : Nat) (hl : Heeds left) (hr : Heeds right) :
    Heeds (storeNamed size left right) :=
  (Heeds.note "assign").bind fun _ => hl.bind fun _ => hr.bind fun v =>
    (heeds_inRegister v []).bind fun _ => .inspect_bind (fun _ _ => rfl) fun _ => .emit _

theorem heeds_discardResult (h : Heeds left) : Heeds (discardResult left) :=
  h.bind heeds_unbind

theorem heeds_returnTo (label : Label) (h : Heeds left) : Heeds (returnTo label left) :=
  h.bind fun v => (heeds_load v .rax).bind fun _ => .emit _

end

section
variable {front : Label → Lowering Unit} {body other : Lowering Unit}

theorem heeds_loop (hfront : ∀ l, Heeds (front l)) (hbody : Heeds body) : Heeds (loop front body) :=
  (Heeds.note "while").bind fun _ => Heeds.newLabel.bind fun head =>
    Heeds.newLabel.bind fun exit => heeds_release.bind fun _ => (Heeds.mark head).bind fun _ =>
      (hfront exit).bind fun _ => hbody.bind fun _ => heeds_release.bind fun _ =>
        (Heeds.emit _).bind fun _ => .mark exit

theorem heeds_ifThen (hfront : ∀ l, Heeds (front l)) (hbody : Heeds body) :
    Heeds (ifThen front body) :=
  (Heeds.note "if").bind fun _ => Heeds.newLabel.bind fun skip => (hfront skip).bind fun _ =>
    hbody.bind fun _ => .mark skip

theorem heeds_ifElse (hfront : ∀ l, Heeds (front l)) (hbody : Heeds body)
    (hother : Heeds other) : Heeds (ifElse front body other) :=
  (Heeds.note "if").bind fun _ => Heeds.newLabel.bind fun skip => (hfront skip).bind fun _ =>
    hbody.bind fun _ => Heeds.newLabel.bind fun exit => (Heeds.emit _).bind fun _ =>
      (Heeds.mark skip).bind fun _ => hother.bind fun _ => .mark exit

end

end

end Lowering

open Lowering (Heeds)

/-! ## Trees -/

section
variable {t : SymbolTable} {done : Label}

namespace Expr

theorem heeds_lowerAll {es : List Expr} (h : ∀ e ∈ es, Heeds (e.lower t)) :
    Heeds (lowerAll t es) := by
  induction es with
  | nil => exact .pure []
  | cons e es ih =>
      rw [List.forall_mem_cons] at h
      exact h.1.bind fun _ => (ih h.2).bind fun _ => .pure _

theorem heeds_lower : ∀ e : Expr, Heeds (e.lower t)
  | number v i => Lowering.heeds_number v i.ty.size
  | text s _ => (Heeds.internText s).bind fun _ => .newValue _ _
  | ident _ _ => .newValue _ _
  | cast e i => Lowering.heeds_cast i.ty.size (heeds_lower e)
  | binary op l r i => Lowering.heeds_binary op i.ty.size (heeds_lower l) (heeds_lower r)
  | call f args i =>
      Lowering.heeds_call (t.symbol f) i.ty.size (heeds_lowerAll fun e _ => heeds_lower e)
  | unary .negate e i => Lowering.heeds_negate i.ty.size (heeds_lower e)
  | unary .logicalNot e i => Lowering.heeds_logicalNot i.ty.size (heeds_lower e)
  | unary .deref e i => Lowering.heeds_deref i.ty.size (heeds_lower e)
  | unary .address (unary .deref p _) _ => Lowering.heeds_addressOfTarget (heeds_lower p)
  | unary .address (unary .negate ..) _ | unary .address (unary .logicalNot ..) _
  | unary .address (unary .address ..) _ | unary .address (number ..) _ | unary .address (text ..) _
  | unary .address (ident ..) _ | unary .address (call ..) _ | unary .address (cast ..) _
  | unary .address (binary ..) _ => Lowering.heeds_addressOfPlace (heeds_lower _)
termination_by e => SizeOf.sizeOf e

theorem heeds_branch (label : Label) (onTrue : Bool) :
    ∀ e : Expr, Heeds (e.branch t label onTrue)
  | binary (.compare _) l r _ =>
      (Lowering.heeds_comparison (heeds_lower l) (heeds_lower r)).bind fun sides =>
        (Lowering.heeds_unbind sides.2).bind fun _ => .emit _
  | binary .add .. | binary .sub .. | binary .mul .. | binary .div .. | binary .rem ..
  | binary .land .. | binary .lor .. | number .. | text .. | ident .. | call .. |
    unary .. | cast .. =>
      (heeds_lower _).bind fun v => (Lowering.heeds_compareZero v).bind fun _ => .emit _

end Expr

namespace Stmt

theorem heeds_assign (value : Expr) :
    ∀ target : Expr, Heeds ((assign target value).lower t done)
  | .unary .deref p _ =>
      (Lowering.heeds_store _ p.heeds_lower value.heeds_lower).bind fun _ => Lowering.heeds_release
  | .number .. | .text .. | .ident .. | .call .. | .cast .. | .binary .. | .unary .negate _ _
  | .unary .logicalNot _ _ | .unary .address _ _ =>
      (Lowering.heeds_storeNamed _ (Expr.heeds_lower _) value.heeds_lower).bind fun _ =>
        Lowering.heeds_release

theorem heeds_lowerAll {ss : List Stmt} (h : ∀ s ∈ ss, Heeds (s.lower t done)) :
    Heeds (lowerAll t done ss) := by
  induction ss with
  | nil => exact .pure ()
  | cons s ss ih =>
      rw [List.forall_mem_cons] at h
      exact h.1.bind fun _ => ih h.2

theorem heeds_lower : ∀ s : Stmt, Heeds (s.lower t done)
  | expr e => (Lowering.heeds_discardResult e.heeds_lower).bind fun _ => Lowering.heeds_release
  | assign target value => heeds_assign value target
  | ret e => (Lowering.heeds_returnTo done e.heeds_lower).bind fun _ => Lowering.heeds_release
  | loop c body =>
      (Lowering.heeds_loop (fun l => c.heeds_branch l false) (heeds_lower body)).bind fun _ =>
        Lowering.heeds_release
  | ifThen c body =>
      (Lowering.heeds_ifThen (fun l => c.heeds_branch l false) (heeds_lower body)).bind fun _ =>
        Lowering.heeds_release
  | ifElse c body other =>
      (Lowering.heeds_ifElse (fun l => c.heeds_branch l false) (heeds_lower body)
        (heeds_lower other)).bind fun _ => Lowering.heeds_release
  | block _ _ =>
      (heeds_lowerAll fun s _ => heeds_lower s).bind fun _ => Lowering.heeds_release
termination_by s => SizeOf.sizeOf s

end Stmt

namespace Function

theorem heeds_lowerBody (l : Layout) (f : Function) (done : Label) : Heeds (f.lowerBody t l done) :=
  (Heeds.update fun _ _ => rfl).bind fun _ => Stmt.heeds_lowerAll fun s _ => s.heeds_lower

/-- The switch has nothing to do with the state behind a function. -/
theorem state_lower_switch (f : Function) (l : Layout) (s : State) (notes : Bool) :
    (f.lower t l (s.switch notes)).2 = (f.lower t l (s.switch true)).2.switch notes :=
  congrArg Lowered.state (heeds_lowerBody l f ⟨s.nextLabel⟩ notes (Lowering.newLabel s).state)

end Function

end

end LittleC
