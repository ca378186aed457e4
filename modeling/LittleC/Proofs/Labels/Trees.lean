import LittleC.Proofs.Labels.Operators
import LittleC.Proofs.Tree.Subexpr

/-! # Labels of trees

The code of an expression defines every label that it takes, unless a text stands under it, and
jumps to those only. The code of a statement may also jump to the end of its function. -/

namespace LittleC

open Lowering (Joins)

/-- What is known of the names that a node refers to: a symbol that has no place in a frame, and a
function that is called. -/
def Expr.Refers (t : SymbolTable) (P : Naming) : Expr → Prop
  | .ident x _ => (t.symbol x).offset = none → P.stored (t.symbol x).name
  | .call f _ _ => P.called (t.symbol f).name
  | _ => True

section
variable {P : Naming} {out : List Label} {known : List Operand}

theorem BinaryOp.joins_lower (op : BinaryOp) (size : Nat) {left right : Lowering ValueId}
    (hl : Joins P [] [] [] left) (hr : Joins P [] [] [] right) :
    Joins P [] out known (op.lower size left right) := by
  cases op with
  | add => exact Lowering.joins_arithmetic .add (by decide) size hl hr
  | sub => exact Lowering.joins_arithmetic .sub (by decide) size hl hr
  | mul => exact Lowering.joins_arithmetic .imul (by decide) size hl hr
  | div => exact Lowering.joins_divide (by decide) .rax size hl hr
  | rem => exact Lowering.joins_divide (by decide) .rdx size hl hr
  | compare c => exact Lowering.joins_compare c size hl hr
  | land => exact Lowering.joins_logical (by decide) .eq size hl hr
  | lor => exact Lowering.joins_logical (by decide) .ne size hl hr

namespace Expr

theorem refers_of_forall {t : SymbolTable}
    (h : ∀ x, P.stored (t.symbol x).name ∧ P.called (t.symbol x).name) (n : Expr) :
    n.Refers t P := by
  cases n with
  | ident x i => exact fun _ => (h x).1
  | call f args i => exact (h f).2
  | _ => trivial

theorem joins_lowerAll {t : SymbolTable} : ∀ es : List Expr,
    (∀ e ∈ es, Joins P [] [] [] (e.lower t)) → Joins P [] [] [] (lowerAll t es)
  | [], _ => .pure []
  | e :: es, h => (h e List.mem_cons_self).bind fun _ =>
      (joins_lowerAll es fun e' he => h e' (List.mem_cons_of_mem _ he)).bind fun _ => .pure _

theorem joins_lower {t : SymbolTable} : ∀ e : Expr, e.Every (Refers t P) →
    Joins P [] [] [] (e.lower t)
  | number v _, _ => Lowering.joins_number v _
  | text s _, _ => .internText_bind fun _ => .newValue fun _ hknown => hknown _ List.mem_cons_self
  | ident x _, he => .newValue fun _ _ => by
      unfold Symbol.home
      split
      · trivial
      · next hoffset => exact he.root hoffset
  | call f args _, he =>
      have ⟨hcallee, hargs⟩ := every_call.mp he
      Lowering.joins_call hcallee _ (joins_lowerAll args fun a ha => joins_lower a (hargs a ha))
  | unary .negate e _, he => Lowering.joins_negate _ (joins_lower e (every_unary.mp he).2)
  | unary .logicalNot e _, he => Lowering.joins_logicalNot _ (joins_lower e (every_unary.mp he).2)
  | unary .deref e _, he => Lowering.joins_deref _ (joins_lower e (every_unary.mp he).2)
  | unary .address (unary .deref p _) _, he =>
      Lowering.joins_addressOfTarget (joins_lower p (every_unary.mp (every_unary.mp he).2).2)
  | unary .address (number ..) _, he | unary .address (text ..) _, he
  | unary .address (ident ..) _, he | unary .address (call ..) _, he
  | unary .address (cast ..) _, he | unary .address (binary ..) _, he
  | unary .address (unary .negate ..) _, he | unary .address (unary .logicalNot ..) _, he
  | unary .address (unary .address ..) _, he =>
      Lowering.joins_addressOfPlace (joins_lower _ (every_unary.mp he).2)
  | cast e _, he => Lowering.joins_cast _ (joins_lower e (every_cast.mp he).2)
  | binary op l r _, he =>
      have ⟨_, hl, hr⟩ := every_binary.mp he
      op.joins_lower _ (joins_lower l hl) (joins_lower r hr)
termination_by e => SizeOf.sizeOf e

theorem joins_branch {t : SymbolTable} (e : Expr) (he : e.Every (Refers t P)) {label : Label}
    (hlabel : label ∈ out) (onTrue : Bool) : Joins P [] out known (e.branch t label onTrue) := by
  have hjump : ∀ c, Joins P [] out known (Lowering.emit (.jcc c label)) := fun c => by
    refine .emit (fun l hl => ?_) fun _ _ => ?_
    · exact Option.some.inj hl ▸ hlabel
    · trivial
  unfold branch
  split
  · obtain ⟨-, hl, hr⟩ := every_binary.mp he
    exact (Lowering.joins_comparison (joins_lower _ hl) (joins_lower _ hr)).bind fun sides =>
      (Lowering.joins_unbind sides.2).bind fun _ => hjump _
  · exact (joins_lower e he).lift.bind fun v => (Lowering.joins_compareZero v).bind fun _ => hjump _

end Expr

namespace Lowering

variable {left right : Lowering ValueId}

/-! ## Statements -/

theorem joins_release : Joins P [] out known release :=
  .update (fun _ => rfl) (fun _ => rfl) fun _ w _ hs => hs w

theorem joins_store (size : Nat) (hl : Joins P [] [] [] left) (hr : Joins P [] [] [] right) :
    Joins P [] out known (store size left right) :=
  (Joins.note (by decide)).bind fun _ => hr.lift.bind fun v => hl.lift.bind fun p =>
    (joins_inRegister v []).bind fun source => (joins_inRegister p [source]).bind fun _ =>
      .emit nofun fun _ _ => ⟨trivial, trivial⟩

theorem joins_storeNamed (size : Nat) (hl : Joins P [] [] [] left) (hr : Joins P [] [] [] right) :
    Joins P [] out known (storeNamed size left right) :=
  (Joins.note (by decide)).bind fun _ => hl.lift.bind fun p => hr.lift.bind fun v =>
    (joins_inRegister v []).bind fun _ => .operand_bind fun target =>
      .emit nofun fun _ hknown => ⟨trivial, hknown target List.mem_cons_self⟩

theorem joins_discardResult (h : Joins P [] [] [] left) :
    Joins P [] out known (discardResult left) :=
  h.lift.bind fun v => joins_unbind v

theorem joins_returnTo {label : Label} (hlabel : label ∈ out) (h : Joins P [] [] [] left) :
    Joins P [] out known (returnTo label left) :=
  h.lift.bind fun v => (joins_load v .rax).bind fun _ =>
    .emit (fun _ hl => Option.some.inj hl ▸ hlabel) fun _ _ => trivial

section
variable {front : Label → Lowering Unit} {body other : Lowering Unit}

/-- What stands in front jumps to the label that it is given, and a body out of its surroundings. -/
theorem joins_loop (hfront : ∀ l out, l ∈ out → Joins P [] out [] (front l))
    (hbody : ∀ out', (∀ l ∈ out, l ∈ out') → Joins P [] out' [] body) :
    Joins P [] out [] (loop front body) :=
  (Joins.note (by decide)).bind fun _ => .newLabel_bind fun head => .newLabel_bind fun exit =>
    joins_release.bind fun _ => .mark_bind (List.Perm.swap ..) <|
      (hfront exit _ List.mem_cons_self).bind fun _ =>
        (hbody _ fun _ hl => List.mem_cons_of_mem _ (List.mem_cons_of_mem _ hl)).bind fun _ =>
          joins_release.bind fun _ => Joins.bind (.emit (fun l hl => by
            cases Option.some.inj hl
            exact List.mem_cons_of_mem _ List.mem_cons_self) fun _ _ => trivial) fun _ => .mark exit

theorem joins_ifThen (hfront : ∀ l out, l ∈ out → Joins P [] out [] (front l))
    (hbody : ∀ out', (∀ l ∈ out, l ∈ out') → Joins P [] out' [] body) :
    Joins P [] out [] (ifThen front body) :=
  (Joins.note (by decide)).bind fun _ => .newLabel_bind fun skip =>
    (hfront skip _ List.mem_cons_self).bind fun _ =>
      (hbody _ fun _ => List.mem_cons_of_mem _).bind fun _ => .mark skip

theorem joins_ifElse (hfront : ∀ l out, l ∈ out → Joins P [] out [] (front l))
    (hbody : ∀ out', (∀ l ∈ out, l ∈ out') → Joins P [] out' [] body)
    (hother : ∀ out', (∀ l ∈ out, l ∈ out') → Joins P [] out' [] other) :
    Joins P [] out [] (ifElse front body other) :=
  (Joins.note (by decide)).bind fun _ => .newLabel_bind fun skip =>
    (hfront skip _ List.mem_cons_self).bind fun _ =>
      (hbody _ fun _ => List.mem_cons_of_mem _).bind fun _ => .newLabel_bind fun exit =>
        Joins.bind (.emit (fun l hl => by
          cases Option.some.inj hl
          exact List.mem_cons_self) fun _ _ => trivial) fun _ =>
          .mark_bind (List.Perm.swap ..) <| (hother _ fun _ hl =>
            List.mem_cons_of_mem _ (List.mem_cons_of_mem _ hl)).bind fun _ => .mark exit

end

end Lowering

namespace Stmt

variable {t : SymbolTable} {done : Label}

theorem joins_assign {value : Expr} (hvalue : value.Every (Expr.Refers t P)) : ∀ target : Expr,
    target.Every (Expr.Refers t P) → Joins P [] out [] ((assign target value).lower t done)
  | .unary .deref p _, htarget =>
      have hp := p.joins_lower (Expr.every_unary.mp htarget).2
      (Lowering.joins_store _ hp (value.joins_lower hvalue)).bind fun _ => Lowering.joins_release
  | .number .., htarget | .text .., htarget | .ident .., htarget | .call .., htarget
  | .cast .., htarget | .binary .., htarget | .unary .negate _ _, htarget
  | .unary .logicalNot _ _, htarget | .unary .address _ _, htarget =>
      (Lowering.joins_storeNamed _ (Expr.joins_lower _ htarget) (value.joins_lower hvalue)).bind
        fun _ => Lowering.joins_release

mutual
theorem joins_lower : ∀ (st : Stmt) {out : List Label},
    (∀ e ∈ st.exprs, e.Every (Expr.Refers t P)) → done ∈ out → Joins P [] out [] (st.lower t done)
  | expr e, _, he, _ =>
      (Lowering.joins_discardResult (e.joins_lower (he e List.mem_cons_self))).bind fun _ =>
        Lowering.joins_release
  | assign target value, _, he, _ =>
      joins_assign (he value (List.mem_cons_of_mem _ List.mem_cons_self)) target
        (he target List.mem_cons_self)
  | ret e, _, he, hdone =>
      (Lowering.joins_returnTo hdone (e.joins_lower (he e List.mem_cons_self))).bind fun _ =>
        Lowering.joins_release
  | loop c body, _, he, hdone =>
      have ⟨hc, hbody⟩ := List.forall_mem_cons.mp he
      (Lowering.joins_loop (fun _ _ hl => c.joins_branch hc hl false) fun _ hout =>
        joins_lower body hbody (hout _ hdone)).bind fun _ => Lowering.joins_release
  | ifThen c body, _, he, hdone =>
      have ⟨hc, hbody⟩ := List.forall_mem_cons.mp he
      (Lowering.joins_ifThen (fun _ _ hl => c.joins_branch hc hl false) fun _ hout =>
        joins_lower body hbody (hout _ hdone)).bind fun _ => Lowering.joins_release
  | ifElse c body other, _, he, hdone =>
      have ⟨hc, hrest⟩ := List.forall_mem_cons.mp he
      have ⟨hbody, hother⟩ := List.forall_mem_append.mp hrest
      (Lowering.joins_ifElse (fun _ _ hl => c.joins_branch hc hl false)
        (fun _ hout => joins_lower body hbody (hout _ hdone)) fun _ hout =>
          joins_lower other hother (hout _ hdone)).bind fun _ => Lowering.joins_release
  | block _ body, _, he, hdone =>
      (joins_lowerAll body he hdone).bind fun _ => Lowering.joins_release

theorem joins_lowerAll : ∀ (ss : List Stmt) {out : List Label},
    (∀ e ∈ exprsAll ss, e.Every (Expr.Refers t P)) → done ∈ out →
      Joins P [] out [] (lowerAll t done ss)
  | [], _, _, _ => .pure ()
  | st :: ss, _, he, hdone =>
      have ⟨hst, hss⟩ := List.forall_mem_append.mp he
      (joins_lower st hst hdone).bind fun _ => joins_lowerAll ss hss hdone
end

end Stmt

end

end LittleC
