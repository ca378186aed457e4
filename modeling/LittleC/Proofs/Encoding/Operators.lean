import LittleC.Lowering.Operator
import LittleC.Proofs.Encoding.Code

/-! # Forms of the code of single operators

Each operator writes code of the known forms over operands of known sizes. Both operands of
arithmetic and of comparisons have one size, so a register is named at the width of the access. -/

namespace LittleC.Lowering

open State

section
variable {W : Nat → Prop} {known : List Fact} {k : Fact} {v : ValueId} {r : Reg} {n : Nat}

/-! ## Registers -/

theorem emits_evict (r : Reg) : Emits W known (evict r) fun _ => [] := by
  apply Emits.pool_bind
  · exact .skip _
  · intro v
    have hlowest : ∀ (offset : Int) (known : List Fact),
        Emits W known (update fun s => { s with lowest := offset }) fun _ => [] := fun _ _ =>
      .update_rest (fun _ => rfl) (fun _ => rfl) fun _ _ _ hr => hr
    have hmoved : ∀ (offset : Int) (known : List Fact),
        Emits W known (update fun s => (s.setLocation v (.mem (.frame offset))).hold r none)
          fun _ => [] := by
      intro offset known
      refine .update (fun _ => rfl) (fun s u => ?_) (fun s u => ?_) fun s q u hq => .inl ?_
      · rw [values_hold]
        by_cases hu : u = v
        · rw [hu, values_setLocation_self]
        · rw [values_setLocation_of_ne s hu]
      · rw [values_hold]
        by_cases hu : u = v
        · rw [hu, values_setLocation_self]
          exact .inr ⟨rfl, nofun⟩
        · rw [values_setLocation_of_ne s hu]
          exact .inl rfl
      · rw [pool_hold] at hq
        split at hq
        · cases hq
        · exact hq
    refine .sizeOf_bind (k := .wide W v) List.mem_cons_self fun n hn =>
      .inspect_bind fun offset => ?_
    refine (hlowest offset _).bind fun _ => .emit_bind (.store hn r _) ?_
    exact .note_bind (hmoved offset _)

theorem emits_takeReg (exclude : List Reg) : Emits W known (takeReg exclude) fun _ => [] := by
  refine .inspect_bind fun free => ?_
  cases free with
  | some r => exact .skip _
  | none =>
      refine .inspect_bind fun r => (emits_evict r).bind fun _ => ?_
      exact .skip _

theorem emits_assign (hv : Loadable W known v) (r : Reg) :
    Emits W known (update (·.assign v r)) fun _ => [] := by
  refine .update (fun s => ?_) (fun s u => ?_) (fun s u => ?_) fun s q u hq => ?_
  · rw [assign_eq]
  · by_cases hu : u = v
    · rw [hu, values_assign_self]
    · rw [values_assign_of_ne hu]
  · by_cases hu : u = v
    · rw [hu, values_assign_self]
      exact .inr ⟨rfl, fun _ => hv⟩
    · rw [values_assign_of_ne hu]
      exact .inl rfl
  · rcases pool_of_assign hq with ⟨-, rfl⟩ | hold
    · exact .inr hv
    · exact .inl (held_of_unbind hold)

theorem emits_load (hv : Loadable W known v) (r : Reg) :
    Emits W known (load v r) fun _ => [] := by
  refine .inspect_bind fun held => ?_
  split
  · exact .skip _
  · obtain ⟨fact, hfact, rfl, hsize⟩ := hv
    refine (emits_evict r).bind fun _ => .sizeOf_bind hfact fun n hn => ?_
    refine .operand_bind (k := .sized fact.value n) List.mem_cons_self fun x m hm hx _ => ?_
    cases hm
    exact .emit_bind (.load (hsize n hn) hx r) (emits_assign (.sized (hsize n hn)) r)

theorem emits_fetch (hv : Loadable W known v) (exclude : List Reg) :
    Emits W known (fetch v exclude) fun _ => [] :=
  (emits_takeReg exclude).bind fun r => (emits_load hv r).bind fun _ => .skip _

theorem emits_inRegister (hv : Loadable W known v) (exclude : List Reg) :
    Emits W known (inRegister v exclude) fun _ => [] := by
  refine .inspect_bind fun value => ?_
  split
  · split
    · exact emits_fetch hv exclude
    · exact .skip _
  · exact emits_fetch hv exclude

theorem emits_forM_evict : ∀ rs : List Reg, Emits W known (rs.forM evict) fun _ => []
  | [] => .skip _
  | r :: rs => (emits_evict r).bind fun _ => emits_forM_evict rs

theorem emits_rebind (v : ValueId) (r : Reg) (hn : W n) :
    Emits W known (rebind v r n) fun v => [.sized v n] :=
  (Emits.unbind v).bind fun _ => .newReg _ hn

/-! ## One operand -/

theorem emits_number (value : Int) (hn : W n) :
    Emits W known (number value n) fun v => [.sized v n] := by
  unfold number
  split
  · next hfits => exact .newImm hfits
  · refine (emits_takeReg []).bind fun r => .emit_bind (.constant value r) ?_
    exact .newReg r hn

theorem emits_materialize (c : Comparison) (r : Reg) :
    Emits W known (materialize c r) fun _ => [] :=
  .emit_bind (.set c r) (.emit (.movzb r))

section
variable {operand left right : Lowering ValueId} {a b : Nat}

/-- The operand is brought into a register. -/
theorem Emits.bind_register {α : Type} {gives : α → List Fact} {f : ValueId → Reg → Lowering α}
    (ha : W a) (h : Emits W [] operand fun v => [.sized v a])
    (hf : ∀ v r, Emits W (.sized v a :: known) (f v r) gives) :
    Emits W known (operand >>= fun v => inRegister v [] >>= f v) gives :=
  h.lift.bind fun v => (emits_inRegister (.sized ha) []).bind fun r => hf v r

theorem emits_negate (ha : W a) (hn : W n) (h : Emits W [] operand fun v => [.sized v a]) :
    Emits W known (negate n operand) fun v => [.sized v n] :=
  .note_bind (h.bind_register ha fun v r => .emit_bind (.neg hn r) (emits_rebind v r hn))

theorem emits_logicalNot (ha : W a) (hn : W n) (h : Emits W [] operand fun v => [.sized v a]) :
    Emits W known (logicalNot n operand) fun v => [.sized v n] := by
  refine .note_bind (h.lift.bind fun v => ?_)
  refine .sizeOf_bind (k := .sized v a) List.mem_cons_self fun width hwidth => ?_
  cases hwidth
  refine (emits_inRegister (.sized ha) []).bind fun r => .emit_bind (.cmp ha (.imm rfl) r) ?_
  exact (emits_materialize .eq r).bind fun _ => emits_rebind v r hn

theorem emits_deref (ha : W a) (hn : W n) (h : Emits W [] operand fun v => [.sized v a]) :
    Emits W known (deref n operand) fun v => [.sized v n] :=
  .note_bind (h.bind_register ha fun v r =>
    .emit_bind (.load hn (.mem _) r) (emits_rebind v r hn))

theorem emits_addressOfTarget (ha : W a) (hpointer : W pointerSize)
    (h : Emits W [] operand fun v => [.sized v a]) :
    Emits W known (addressOfTarget operand) fun v => [.sized v pointerSize] :=
  .note_bind (h.bind_register ha fun v r => emits_rebind v r hpointer)

theorem emits_cast (ha : W a) (hn : W n) (h : Emits W [] operand fun v => [.sized v a]) :
    Emits W known (cast n operand) fun v => [.sized v n] := by
  refine h.lift.bind fun v => ?_
  refine .sizeOf_bind (k := .sized v a) List.mem_cons_self fun source hsource => ?_
  cases hsource
  split
  · next heq =>
      cases heq
      exact .pure fun k hk => List.mem_cons.mpr (.inl (List.mem_singleton.mp hk))
  · refine .note_bind ((emits_inRegister (.sized ha) []).bind fun r => ?_)
    split
    · exact .emit_bind (.movs ha hn r) (emits_rebind v r hn)
    · exact .emit_bind (.load hn (.reg r) r) (emits_rebind v r hn)

/-! ## Places -/

/-- The action gives a value of `n` bytes in memory. -/
structure NamesPlace (W : Nat → Prop) (place : Lowering ValueId) (n : Nat) : Prop where
  emits : Emits W [] place fun v => [.place v n]
  located : ∀ s, ∃ p, ((place s).state.values (place s).result).operand = .mem p

/-- A place that is looked at right after it was made is still in memory. -/
theorem NamesPlace.operand_bind {α : Type} {gives : α → List Fact}
    {f : ValueId → Operand → Lowering α}
    (h : NamesPlace W operand n) (hf : ∀ v p, Emits W (.place v n :: known) (f v (.mem p)) gives) :
    Emits W known (operand >>= fun v => Lowering.operand v >>= f v) gives := by
  intro s hs hknown
  obtain ⟨p, hp⟩ := h.located s
  have hplace := h.emits s hs nofun
  have hrest := hf (operand s).result p (operand s).state hplace.coded
    (List.forall_mem_cons.mpr
      ⟨hplace.given _ List.mem_cons_self, fun k hk => hplace.kept k (hknown k hk)⟩)
  rw [← hp] at hrest
  refine ⟨?_, hrest.coded, ?_, hrest.given⟩
  · exact List.forall_mem_append.mpr ⟨hplace.lines, hrest.lines⟩
  · intro k hk
    exact hrest.kept k (hplace.kept k hk)

/-- The address of a place is a pointer, whatever is there. -/
theorem emits_addressOfPlace (hpointer : W pointerSize) (h : NamesPlace W operand a) :
    Emits W known (addressOfPlace operand) fun v => [.sized v pointerSize] := by
  refine .note_bind (h.operand_bind fun v p => ?_)
  exact (emits_takeReg []).bind fun r => .emit_bind (.lea p r) (.newReg r hpointer)

/-! ## Two operands -/

/-- Both operands are known when the rest is run. -/
theorem Emits.bind_both {α : Type} {gives : α → List Fact} {f : ValueId → ValueId → Lowering α}
    (hl : Emits W [] left fun v => [.sized v a]) (hr : Emits W [] right fun v => [.sized v b])
    (hf : ∀ l r, Emits W [.sized r b, .sized l a] (f l r) gives) :
    Emits W known (left >>= fun l => right >>= fun r => f l r) gives := by
  refine hl.lift.bind fun l => hr.lift.bind fun r => (hf l r).weaken ?_ fun _ _ hk => hk
  rw [List.forall_mem_cons, List.forall_mem_singleton]
  exact ⟨List.mem_cons_self, List.mem_cons_of_mem _ List.mem_cons_self⟩

/-- The right operand is read at the size of the result. -/
theorem emits_arithmetic (op : AluOp) (title : String) (ha : W a) (hn : W n)
    (hl : Emits W [] left fun v => [.sized v a]) (hr : Emits W [] right fun v => [.sized v n]) :
    Emits W known (arithmetic op title n left right) fun v => [.sized v n] := by
  refine .note_bind (hl.bind_both hr fun l r => ?_)
  refine (emits_inRegister (.cons (.sized ha)) []).bind fun target => ?_
  refine .operand_bind (k := .sized r n) List.mem_cons_self fun source m hm hx _ => ?_
  cases hm
  refine .emit_bind (.alu op hn hx target) ((Emits.unbind r).bind fun _ => ?_)
  exact emits_rebind l target hn

theorem emits_divide (title : String) (result : Reg) (ha : W a) (hb : W b) (hn : W n)
    (hl : Emits W [] left fun v => [.sized v a]) (hr : Emits W [] right fun v => [.sized v b]) :
    Emits W known (divide title result n left right) fun v => [.sized v n] := by
  refine .note_bind (hl.bind_both hr fun l r => ?_)
  refine (emits_load (.cons (.sized ha)) .rax).bind fun _ => (emits_evict .rdx).bind fun _ => ?_
  refine (emits_load (.sized hb) .rcx).bind fun _ => .emit_bind (.bare rfl) ?_
  refine .emit_bind (.idiv hn .rcx) ((Emits.unbind r).bind fun _ => ?_)
  exact (Emits.unbind l).bind fun _ => .newReg _ hn

/-- The right operand is read at the size of the left one. -/
theorem emits_comparison (ha : W a) (hl : Emits W [] left fun v => [.sized v a])
    (hr : Emits W [] right fun v => [.sized v a]) :
    Emits W known (comparison left right) fun _ => [] := by
  refine hl.bind_both hr fun l r => ?_
  refine .sizeOf_bind (k := .sized l a) (List.mem_cons_of_mem _ List.mem_cons_self)
    fun width hwidth => ?_
  cases hwidth
  refine (emits_inRegister (.sized ha) []).bind fun target => ?_
  refine .operand_bind (k := .sized r a) (List.mem_cons_of_mem _ List.mem_cons_self)
    fun source m hm hx _ => ?_
  cases hm
  exact .emit_bind (.cmp ha hx target) ((Emits.unbind l).bind fun _ => .skip _)

theorem emits_compare (c : Comparison) (ha : W a) (hn : W n)
    (hl : Emits W [] left fun v => [.sized v a]) (hr : Emits W [] right fun v => [.sized v a]) :
    Emits W known (compare c n left right) fun v => [.sized v n] := by
  refine .note_bind ((emits_comparison ha hl hr).bind fun sides => ?_)
  refine (emits_materialize c sides.1).bind fun _ => (Emits.unbind sides.2).bind fun _ => ?_
  exact .newReg _ hn

theorem emits_compareZero (ha : W a) :
    Emits W (.sized v a :: known) (compareZero v) fun _ => [] := by
  refine .sizeOf_bind (k := .sized v a) List.mem_cons_self fun width hwidth => ?_
  cases hwidth
  refine (emits_inRegister (.sized ha) []).bind fun r => .emit_bind (.cmp ha (.imm rfl) r) ?_
  exact Emits.unbind v

theorem emits_logical (title : String) (skip : Comparison) (ha : W a) (hb : W b) (hn : W n)
    (hl : Emits W [] left fun v => [.sized v a]) (hr : Emits W [] right fun v => [.sized v b]) :
    Emits W known (logical title skip n left right) fun v => [.sized v n] := by
  refine .note_bind ((emits_forM_evict Reg.all).bind fun _ => .newLabel_bind fun merge => ?_)
  refine hl.lift.bind fun l => (emits_compareZero ha).bind fun _ => .emit_bind (.bare rfl) ?_
  refine hr.lift.bind fun r => (emits_compareZero hb).bind fun _ => .mark_bind ?_
  refine (emits_takeReg []).bind fun target => (emits_materialize .ne target).bind fun _ => ?_
  exact .newReg _ hn

end

/-! ## Calls -/

/-- A constant or a whole word can be pushed. -/
theorem suits_push {x : Value} (hx : x.operand.Suits x.size)
    (h : (x.isImm || x.size == wordSize) = true) : x.operand.Suits 8 := by
  rcases Bool.or_eq_true_iff.mp h with himm | hword
  · cases hlocation : x.location with
    | imm value =>
        have hoperand : x.operand = .imm value := by rw [Value.operand, hlocation]
        rw [hoperand]
        exact .imm (hx.immediate hoperand)
    | mem | reg => rw [Value.isImm, hlocation] at himm; cases himm
  · rwa [beq_iff_eq.mp hword] at hx

theorem emits_passArg (index : Nat) (hv : Loadable W known v) :
    Emits W known (passArg index v) fun _ => [] := by
  obtain ⟨fact, hfact, rfl, hsize⟩ := hv
  refine .valueOf_bind hfact fun x hn hx => ?_
  split
  · next r _ => exact .emit (.load (hsize _ hn) hx r)
  · split
    · next hpush => exact .emit (.push (suits_push hx hpush))
    · exact .emit_bind (.load (hsize _ hn) hx .rax) (.emit (.push (.reg .rax)))

theorem emits_passArgs : ∀ (index : Nat) {vs : List ValueId}, (∀ v ∈ vs, Loadable W known v) →
    Emits W known (passArgs index vs) fun _ => []
  | _, [], _ => .skip _
  | index, v :: vs, h => by
      rw [List.forall_mem_cons] at h
      exact (emits_passArgs (index + 1) h.2).bind fun _ => emits_passArg index h.1

/-- An instruction that some calls need. -/
theorem emits_optional {α : Type} {gives : α → List Fact} {c : Prop} [Decidable c] {i : Instr}
    {f : Unit → Lowering α} (hi : i.Form W) (hf : Emits W known (f ()) gives) :
    Emits W known (if c then emit i >>= f else f ()) gives := by
  split
  · exact .emit_bind hi hf
  · exact hf

theorem emits_call (callee : Symbol) (heax : W 4) (hn : W n) {args : Lowering (List ValueId)}
    (h : Emits W [] args fun vs => vs.map (.wide W)) :
    Emits W known (call callee n args) fun v => [.sized v n] := by
  refine .note_bind (h.lift.bind fun vs => (emits_forM_evict Reg.all).bind fun _ => ?_)
  refine emits_optional (.reserve (Int.natCast_nonneg _)) ?_
  have hargs : ∀ v ∈ vs, Loadable W (vs.map (.wide W) ++ known) v := fun v hv =>
    ⟨.wide W v, List.mem_append_left _ (List.mem_map_of_mem hv), rfl, fun _ h => h⟩
  refine (emits_passArgs 0 hargs).bind fun _ => ?_
  refine emits_optional (.load heax (.imm rfl) .rax) (.emit_bind (.bare rfl) ?_)
  exact emits_optional (.discard (Int.natCast_nonneg _)) (.newReg _ hn)

end

end LittleC.Lowering
