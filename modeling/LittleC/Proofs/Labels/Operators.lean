import LittleC.Proofs.Labels.Linked
import LittleC.Proofs.Lowering.Evolution

/-! # Labels of single operators

Each operator keeps labels linked when its operands do. Only the logical operators take a label, and
they define it themselves. -/

namespace LittleC.Lowering

open State

section
variable {P : Naming} {out : List Label} {known : List Operand}

/-! ## Registers -/

theorem joins_unbind (v : ValueId) : Joins P [] out known (unbind v) :=
  .update (fun s => by rw [unbind_eq]) (fun s => by rw [unbind_eq]) fun s w labels hs => by
    rw [values_unbind]
    exact hs w

theorem linked_setLocation {s : State} {v w : ValueId} {l : Location} {labels : List Label}
    (hl : l.Linked labels P) (hs : ∀ w, (s.values w).location.Linked labels P) :
    ((s.setLocation v l).values w).location.Linked labels P := by
  unfold State.setLocation
  dsimp only
  split
  · exact hl
  · exact hs w

theorem joins_evict (r : Reg) : Joins P [] out known (evict r) := by
  refine .inspect_bind fun v => ?_
  cases v with
  | none => exact .pure ()
  | some v =>
      have hlowest : ∀ offset, Joins P [] out known (update fun s => { s with lowest := offset }) :=
        fun offset => .update (fun _ => rfl) (fun _ => rfl) fun _ w _ hs => hs w
      have hmoved : ∀ offset, Joins P [] out known
          (update fun s => (s.setLocation v (.mem (.frame offset))).hold r none) :=
        fun offset => .update (fun _ => rfl) (fun _ => rfl) fun s w labels hs =>
          linked_setLocation trivial hs
      exact .inspect_bind fun size => .inspect_bind fun offset => (hlowest offset).bind fun _ =>
        .emit_bind rfl (fun _ _ => ⟨trivial, trivial⟩) <|
          (Joins.note (by decide)).bind fun _ => hmoved offset

theorem joins_takeReg (exclude : List Reg) : Joins P [] out known (takeReg exclude) := by
  refine .inspect_bind fun r => ?_
  cases r with
  | some r => exact .pure r
  | none => exact .inspect_bind fun r => (joins_evict r).bind fun _ => .pure r

theorem joins_load (v : ValueId) (r : Reg) : Joins P [] out known (load v r) := by
  refine .inspect_bind fun held => ?_
  split
  · exact .pure ()
  · have hassign : ∀ known, Joins P [] out known (update (·.assign v r)) := fun _ =>
      .update (fun s => by rw [assign_eq]) (fun s => by rw [assign_eq]) fun s w labels hs =>
        linked_setLocation trivial fun w => by
          rw [values_hold, values_unbind]
          exact hs w
    exact (joins_evict r).bind fun _ => .inspect_bind fun size => .operand_bind fun source =>
      .emit_bind rfl (fun _ hknown => ⟨hknown source List.mem_cons_self, trivial⟩) <|
        hassign _

theorem joins_fetch (v : ValueId) (exclude : List Reg) : Joins P [] out known (fetch v exclude) :=
  (joins_takeReg exclude).bind fun r => (joins_load v r).bind fun _ => .pure r

theorem joins_inRegister (v : ValueId) (exclude : List Reg) :
    Joins P [] out known (inRegister v exclude) := by
  refine .valueOf_bind fun value => ?_
  split
  · split
    · exact joins_fetch v exclude
    · exact .pure _
  · exact joins_fetch v exclude

theorem joins_forM_evict : ∀ rs : List Reg, Joins P [] out known (rs.forM evict)
  | [] => .pure ()
  | r :: rs => (joins_evict r).bind fun _ => joins_forM_evict rs

theorem joins_rebind (v : ValueId) (r : Reg) (size : Nat) :
    Joins P [] out known (rebind v r size) :=
  (joins_unbind v).bind fun _ => .newValue fun _ _ => trivial

/-! ## Operators -/

theorem joins_number (value : Int) (size : Nat) : Joins P [] out known (number value size) := by
  unfold number
  split
  · exact .newValue fun _ _ => trivial
  · exact (joins_takeReg []).bind fun r => .emit_bind rfl (fun _ _ => ⟨trivial, trivial⟩) <|
      .newValue fun _ _ => trivial

theorem joins_materialize (c : Comparison) (r : Reg) : Joins P [] out known (materialize c r) :=
  .emit_bind rfl (fun _ _ => trivial) <| .emit nofun fun _ _ => trivial

section
variable {operand left right : Lowering ValueId}

theorem joins_negate (size : Nat) (h : Joins P [] [] [] operand) :
    Joins P [] out known (negate size operand) :=
  (Joins.note (by decide)).bind fun _ => h.lift.bind fun v => (joins_inRegister v []).bind fun r =>
    .emit_bind rfl (fun _ _ => trivial) <| joins_rebind v r size

theorem joins_logicalNot (size : Nat) (h : Joins P [] [] [] operand) :
    Joins P [] out known (logicalNot size operand) :=
  (Joins.note (by decide)).bind fun _ => h.lift.bind fun v => .inspect_bind fun _ =>
    (joins_inRegister v []).bind fun r => .emit_bind rfl (fun _ _ => trivial) <|
      (joins_materialize _ r).bind fun _ => joins_rebind v r size

theorem joins_deref (size : Nat) (h : Joins P [] [] [] operand) :
    Joins P [] out known (deref size operand) :=
  (Joins.note (by decide)).bind fun _ => h.lift.bind fun v => (joins_inRegister v []).bind fun r =>
    .emit_bind rfl (fun _ _ => ⟨trivial, trivial⟩) <| joins_rebind v r size

theorem joins_addressOfTarget (h : Joins P [] [] [] operand) :
    Joins P [] out known (addressOfTarget operand) :=
  (Joins.note (by decide)).bind fun _ => h.lift.bind fun v => (joins_inRegister v []).bind fun r =>
    joins_rebind v r _

theorem joins_addressOfPlace (h : Joins P [] [] [] operand) :
    Joins P [] out known (addressOfPlace operand) :=
  (Joins.note (by decide)).bind fun _ => h.lift.bind fun _ => .operand_bind fun source =>
    (joins_takeReg []).bind fun _ =>
      .emit_bind rfl (fun _ hknown => hknown source List.mem_cons_self) <|
        .newValue fun _ _ => trivial

theorem joins_cast (size : Nat) (h : Joins P [] [] [] operand) :
    Joins P [] out known (cast size operand) := by
  refine h.lift.bind fun v => .inspect_bind fun source => ?_
  split
  · exact .pure v
  · refine (Joins.note (by decide)).bind fun _ => (joins_inRegister v []).bind fun r => ?_
    split
    · exact .emit_bind rfl (fun _ _ => trivial) <| joins_rebind v r size
    · exact .emit_bind rfl (fun _ _ => ⟨trivial, trivial⟩) <| joins_rebind v r size

theorem joins_arithmetic (op : AluOp) {title : String} (htitle : '\n' ∉ title.toList) (size : Nat)
    (hl : Joins P [] [] [] left) (hr : Joins P [] [] [] right) :
    Joins P [] out known (arithmetic op title size left right) :=
  (Joins.note htitle).bind fun _ => hl.lift.bind fun l => hr.lift.bind fun r =>
    (joins_inRegister l []).bind fun target => .operand_bind fun source =>
      .emit_bind rfl (fun _ hknown => hknown source List.mem_cons_self) <|
        (joins_unbind r).bind fun _ => joins_rebind l target size

theorem joins_divide {title : String} (htitle : '\n' ∉ title.toList) (result : Reg) (size : Nat)
    (hl : Joins P [] [] [] left) (hr : Joins P [] [] [] right) :
    Joins P [] out known (divide title result size left right) :=
  (Joins.note htitle).bind fun _ => hl.lift.bind fun l => hr.lift.bind fun r =>
    (joins_load l .rax).bind fun _ => (joins_evict .rdx).bind fun _ =>
      (joins_load r .rcx).bind fun _ => .emit_bind rfl (fun _ _ => trivial) <|
        .emit_bind rfl (fun _ _ => trivial) <| (joins_unbind r).bind fun _ =>
          (joins_unbind l).bind fun _ => .newValue fun _ _ => trivial

theorem joins_comparison (hl : Joins P [] [] [] left) (hr : Joins P [] [] [] right) :
    Joins P [] out known (comparison left right) :=
  hl.lift.bind fun l => hr.lift.bind fun _ => .inspect_bind fun _ =>
    (joins_inRegister l []).bind fun _ => .operand_bind fun source =>
      .emit_bind rfl (fun _ hknown => hknown source List.mem_cons_self) <|
        (joins_unbind l).bind fun _ => .pure _

theorem Comparison.not_mem_symbol (c : Comparison) : '\n' ∉ c.symbol.toList := by
  cases c <;> decide

theorem joins_compare (c : Comparison) (size : Nat) (hl : Joins P [] [] [] left)
    (hr : Joins P [] [] [] right) : Joins P [] out known (compare c size left right) :=
  (Joins.note (Comparison.not_mem_symbol c)).bind fun _ =>
    (joins_comparison hl hr).bind fun sides => (joins_materialize c sides.1).bind fun _ =>
      (joins_unbind sides.2).bind fun _ => .newValue fun _ _ => trivial

theorem joins_compareZero (v : ValueId) : Joins P [] out known (compareZero v) :=
  .inspect_bind fun _ => (joins_inRegister v []).bind fun _ =>
    .emit_bind rfl (fun _ _ => trivial) <| joins_unbind v

/-- Both ways meet at the label that was taken before they part. -/
theorem joins_logical {title : String} (htitle : '\n' ∉ title.toList)
    (skip : Comparison) (size : Nat) (hl : Joins P [] [] [] left) (hr : Joins P [] [] [] right) :
    Joins P [] out known (logical title skip size left right) :=
  (Joins.note htitle).bind fun _ => (joins_forM_evict Reg.all).bind fun _ =>
    .newLabel_bind fun _ => hl.lift.bind fun l => (joins_compareZero l).bind fun _ =>
      .jump_bind List.mem_cons_self <| hr.lift.bind fun r =>
        (joins_compareZero r).bind fun _ => .mark_bind (.refl _)
          ((joins_takeReg []).bind fun target => (joins_materialize .ne target).bind fun _ =>
            .newValue fun _ _ => trivial)

end

/-! ## Calls -/

theorem joins_passArg (index : Nat) (v : ValueId) : Joins P [] out known (passArg index v) := by
  refine .valueOf_bind fun value => ?_
  split
  · exact .emit nofun fun _ hknown => ⟨hknown _ List.mem_cons_self, trivial⟩
  · split
    · exact .emit nofun fun _ hknown => hknown _ List.mem_cons_self
    · exact .emit_bind rfl (fun _ hknown => ⟨hknown _ List.mem_cons_self, trivial⟩) <|
        .emit nofun fun _ _ => trivial

theorem joins_passArgs : ∀ (index : Nat) (vs : List ValueId),
    Joins P [] out known (passArgs index vs)
  | _, [] => .pure ()
  | index, v :: vs => (joins_passArgs (index + 1) vs).bind fun _ => joins_passArg index v

/-- An instruction that some calls need. -/
theorem joins_optional {α : Type} {c : Prop} [Decidable c] {i : Instr} {f : Unit → Lowering α}
    (htarget : (Line.instr i).target? = none) (hi : ∀ labels, i.Linked labels P)
    (hf : Joins P [] out known (f ())) :
    Joins P [] out known (if c then emit i >>= f else f ()) := by
  split
  · exact .emit_bind htarget (fun labels _ => hi labels) hf
  · exact hf

theorem joins_call {callee : Symbol} (hname : P.called callee.name) (size : Nat)
    {args : Lowering (List ValueId)} (h : Joins P [] [] [] args) :
    Joins P [] out known (call callee size args) :=
  (Joins.note (by decide)).bind fun _ => h.lift.bind fun values =>
    (joins_forM_evict Reg.all).bind fun _ => joins_optional rfl (fun _ => trivial) <|
      (joins_passArgs 0 values).bind fun _ => joins_optional rfl (fun _ => ⟨trivial, trivial⟩) <|
        .emit_bind rfl (fun _ _ => hname) <| joins_optional rfl (fun _ => trivial) <|
          .newValue fun _ _ => trivial

end

end LittleC.Lowering
