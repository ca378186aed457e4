import LittleC.Lowering.Laws
import LittleC.Lowering.Stmt
import LittleC.Proofs.Machine.Stack

/-! # Written code is disciplined

Every action writes disciplined code, whatever the state. Only a call pushes, and it counts what it
pushes the way it counts what it takes back. -/

namespace LittleC.Lowering

open State

/-- With `h` bytes pushed the action writes disciplined code. -/
def Balances {α : Type} (h : Int) (a : Lowering α) : Prop := ∀ s, Disciplined h (a s).code

/-- The action hands over arguments and pushes `n` bytes. -/
def Pushes {α : Type} (n : Nat) (a : Lowering α) : Prop :=
  ∀ s, (∀ l ∈ (a s).code, l.handsOver = true) ∧ rise (a s).code = -n

section
variable {α β : Type} {h : Int} {n k : Nat}

namespace Balances

theorem pure (x : α) : Balances 0 (pure x) := fun _ => .nil

theorem bind {a : Lowering α} {f : α → Lowering β} (ha : Balances h a)
    (hf : ∀ x, Balances 0 (f x)) : Balances h (a >>= f) :=
  fun s => (ha s).append (hf _ _)

theorem inspect (f : State → α) : Balances 0 (inspect f) := fun _ => .nil

theorem update (f : State → State) : Balances 0 (update f) := fun _ => .nil

theorem newLabel : Balances 0 newLabel := fun _ => .nil

theorem newValue (l : Location) (size : Nat) : Balances 0 (newValue l size) := fun _ => .nil

theorem write {l : Line} (hl : l.isPlain = true) : Balances 0 (write l) := fun _ => .plain hl .nil

theorem emit {i : Instr} (hi : (Line.instr i).isPlain = true) : Balances 0 (emit i) := write hi

theorem mark (l : Label) : Balances 0 (mark l) := write rfl

theorem note (text : String) : Balances 0 (note text) := by
  refine (inspect _).bind fun on => ?_
  split
  · exact write rfl
  · exact pure _

theorem handOver_bind {a : Lowering α} {f : α → Lowering β} (ha : Pushes n a)
    (hf : ∀ x, Balances (h + n) (f x)) : Balances h (a >>= f) := by
  intro s
  obtain ⟨hpass, hrise⟩ := ha s
  refine Disciplined.handOver_append hpass ?_
  rw [hrise, Int.sub_neg]
  exact hf _ _

end Balances

namespace Pushes

theorem pure (x : α) : Pushes 0 (pure x) := fun _ => ⟨fun _ h => absurd h List.not_mem_nil, rfl⟩

theorem bind {a : Lowering α} {f : α → Lowering β} (ha : Pushes n a)
    (hf : ∀ x, Pushes k (f x)) : Pushes (n + k) (a >>= f) := by
  intro s
  obtain ⟨hcode, hrise⟩ := ha s
  obtain ⟨hcode', hrise'⟩ := hf (a s).result (a s).state
  refine ⟨fun l hl => (List.mem_append.mp hl).elim (hcode l) (hcode' l), ?_⟩
  rw [bind_apply, rise_append, hrise, hrise']
  omega

theorem inspect_bind {f : State → α} {g : α → Lowering β} (hg : ∀ x, Pushes n (g x)) :
    Pushes n (inspect f >>= g) := fun _ => hg _ _

theorem emit {i : Instr} (hi : (Line.instr i).handsOver = true)
    (hrise : (Line.instr i).rise = -n) : Pushes n (emit i) := by
  intro s
  refine ⟨fun l hl => ?_, by simp [emit_apply, hrise]⟩
  cases List.mem_singleton.mp hl
  exact hi

end Pushes

end

/-! ## Registers -/

theorem balances_evict (r : Reg) : Balances 0 (evict r) := by
  refine (Balances.inspect _).bind fun v => ?_
  cases v with
  | none => exact .pure ()
  | some v =>
      refine (Balances.inspect _).bind fun size => (Balances.inspect _).bind fun offset => ?_
      exact (Balances.update _).bind fun _ => (Balances.emit rfl).bind fun _ =>
        (Balances.note _).bind fun _ => .update _

theorem balances_takeReg (exclude : List Reg) : Balances 0 (takeReg exclude) := by
  refine (Balances.inspect _).bind fun r => ?_
  cases r with
  | some r => exact .pure r
  | none => exact (Balances.inspect _).bind fun r => (balances_evict r).bind fun _ => .pure r

theorem balances_load (v : ValueId) (r : Reg) : Balances 0 (load v r) := by
  refine (Balances.inspect _).bind fun held => ?_
  split
  · exact .pure ()
  · exact (balances_evict r).bind fun _ => (Balances.inspect _).bind fun size =>
      (Balances.inspect _).bind fun source => (Balances.emit rfl).bind fun _ => .update _

theorem balances_fetch (v : ValueId) (exclude : List Reg) : Balances 0 (fetch v exclude) :=
  (balances_takeReg exclude).bind fun r => (balances_load v r).bind fun _ => .pure r

theorem balances_inRegister (v : ValueId) (exclude : List Reg) :
    Balances 0 (inRegister v exclude) := by
  refine (Balances.inspect _).bind fun value => ?_
  split
  · split
    · exact balances_fetch v exclude
    · exact .pure _
  · exact balances_fetch v exclude

theorem balances_forM_evict : ∀ rs : List Reg, Balances 0 (rs.forM evict)
  | [] => .pure ()
  | r :: rs => (balances_evict r).bind fun _ => balances_forM_evict rs

theorem balances_rebind (v : ValueId) (r : Reg) (size : Nat) : Balances 0 (rebind v r size) :=
  (Balances.update _).bind fun _ => .newValue _ _

/-! ## Operators -/

theorem balances_number (value : Int) (size : Nat) : Balances 0 (number value size) := by
  unfold number
  split
  · exact .newValue _ _
  · exact (balances_takeReg []).bind fun r => (Balances.emit rfl).bind fun _ => .newValue _ _

theorem balances_materialize (c : Comparison) (r : Reg) : Balances 0 (materialize c r) :=
  (Balances.emit rfl).bind fun _ => .emit rfl

section
variable {operand left right : Lowering ValueId}

theorem balances_negate (size : Nat) (h : Balances 0 operand) : Balances 0 (negate size operand) :=
  (Balances.note _).bind fun _ => h.bind fun v => (balances_inRegister v []).bind fun r =>
    (Balances.emit rfl).bind fun _ => balances_rebind v r size

theorem balances_logicalNot (size : Nat) (h : Balances 0 operand) :
    Balances 0 (logicalNot size operand) :=
  (Balances.note _).bind fun _ => h.bind fun v => (Balances.inspect _).bind fun _ =>
    (balances_inRegister v []).bind fun r => (Balances.emit rfl).bind fun _ =>
      (balances_materialize _ r).bind fun _ => balances_rebind v r size

theorem balances_deref (size : Nat) (h : Balances 0 operand) : Balances 0 (deref size operand) :=
  (Balances.note _).bind fun _ => h.bind fun v => (balances_inRegister v []).bind fun r =>
    (Balances.emit rfl).bind fun _ => balances_rebind v r size

theorem balances_addressOfTarget (h : Balances 0 operand) :
    Balances 0 (addressOfTarget operand) :=
  (Balances.note _).bind fun _ => h.bind fun v => (balances_inRegister v []).bind fun r =>
    balances_rebind v r _

theorem balances_addressOfPlace (h : Balances 0 operand) : Balances 0 (addressOfPlace operand) :=
  (Balances.note _).bind fun _ => h.bind fun _ => (Balances.inspect _).bind fun _ =>
    (balances_takeReg []).bind fun _ => (Balances.emit rfl).bind fun _ => .newValue _ _

theorem balances_cast (size : Nat) (h : Balances 0 operand) : Balances 0 (cast size operand) := by
  refine h.bind fun v => (Balances.inspect _).bind fun source => ?_
  split
  · exact .pure v
  · refine (Balances.note _).bind fun _ => (balances_inRegister v []).bind fun r => ?_
    split
    · exact (Balances.emit rfl).bind fun _ => balances_rebind v r size
    · exact (Balances.emit rfl).bind fun _ => balances_rebind v r size

theorem balances_arithmetic (op : AluOp) (title : String) (size : Nat) (hl : Balances 0 left)
    (hr : Balances 0 right) : Balances 0 (arithmetic op title size left right) :=
  (Balances.note _).bind fun _ => hl.bind fun l => hr.bind fun _ =>
    (balances_inRegister l []).bind fun target => (Balances.inspect _).bind fun _ =>
      (Balances.emit rfl).bind fun _ => (Balances.update _).bind fun _ =>
        balances_rebind l target size

theorem balances_divide (title : String) (result : Reg) (size : Nat) (hl : Balances 0 left)
    (hr : Balances 0 right) : Balances 0 (divide title result size left right) :=
  (Balances.note _).bind fun _ => hl.bind fun l => hr.bind fun r =>
    (balances_load l .rax).bind fun _ => (balances_evict .rdx).bind fun _ =>
      (balances_load r .rcx).bind fun _ => (Balances.emit rfl).bind fun _ =>
        (Balances.emit rfl).bind fun _ => (Balances.update _).bind fun _ =>
          (Balances.update _).bind fun _ => .newValue _ _

theorem balances_comparison (hl : Balances 0 left) (hr : Balances 0 right) :
    Balances 0 (comparison left right) :=
  hl.bind fun l => hr.bind fun _ => (Balances.inspect _).bind fun _ =>
    (balances_inRegister l []).bind fun _ => (Balances.inspect _).bind fun _ =>
      (Balances.emit rfl).bind fun _ => (Balances.update _).bind fun _ => .pure _

theorem balances_compare (c : Comparison) (size : Nat) (hl : Balances 0 left)
    (hr : Balances 0 right) : Balances 0 (compare c size left right) :=
  (Balances.note _).bind fun _ => (balances_comparison hl hr).bind fun sides =>
    (balances_materialize c sides.1).bind fun _ => (Balances.update _).bind fun _ =>
      .newValue _ _

theorem balances_compareZero (v : ValueId) : Balances 0 (compareZero v) :=
  (Balances.inspect _).bind fun _ => (balances_inRegister v []).bind fun _ =>
    (Balances.emit rfl).bind fun _ => .update _

theorem balances_logical (title : String) (skip : Comparison) (size : Nat) (hl : Balances 0 left)
    (hr : Balances 0 right) : Balances 0 (logical title skip size left right) :=
  (Balances.note _).bind fun _ => (balances_forM_evict Reg.all).bind fun _ =>
    Balances.newLabel.bind fun merge => hl.bind fun l => (balances_compareZero l).bind fun _ =>
      (Balances.emit rfl).bind fun _ => hr.bind fun r => (balances_compareZero r).bind fun _ =>
        (Balances.mark merge).bind fun _ => (balances_takeReg []).bind fun target =>
          (balances_materialize .ne target).bind fun _ => .newValue _ _

end

/-! ## Calls -/

/-- An argument is pushed as one word unless it has a register. -/
theorem pushes_passArg (index : Nat) (v : ValueId) :
    Pushes (if registerArgs ≤ index then wordSize else 0) (passArg index v) := by
  refine Pushes.inspect_bind fun value => ?_
  cases hr : Reg.args[index]? with
  | some r =>
      have hindex : index < registerArgs := (List.getElem?_eq_some_iff.mp hr).1
      rw [if_neg (by omega)]
      exact .emit rfl rfl
  | none =>
      have hindex : registerArgs ≤ index := List.getElem?_eq_none_iff.mp hr
      rw [if_pos hindex]
      dsimp only
      split
      · exact .emit rfl rfl
      · have hmove : Pushes 0 (emit (.mov value.size value.operand (.reg .rax value.size))) :=
          .emit rfl rfl
        have hpush : Pushes wordSize (emit (.push (.reg .rax wordSize))) := .emit rfl rfl
        simpa using hmove.bind fun _ => hpush

/-- Of the arguments from `index` on, those without a register are pushed. -/
theorem pushes_passArgs : ∀ (index : Nat) (vs : List ValueId),
    Pushes (wordSize * (index + vs.length - max index registerArgs)) (passArgs index vs)
  | index, [] => by
      have hnone : index + 0 - max index registerArgs = 0 := by omega
      rw [List.length_nil, hnone]
      exact .pure ()
  | index, v :: vs => by
      have hcount : wordSize * (index + (v :: vs).length - max index registerArgs) =
          wordSize * (index + 1 + vs.length - max (index + 1) registerArgs) +
            if registerArgs ≤ index then wordSize else 0 := by
        rw [List.length_cons]
        by_cases hindex : registerArgs ≤ index
        · rw [if_pos hindex, wordSize]
          omega
        · rw [if_neg hindex, wordSize]
          omega
      rw [hcount]
      exact (pushes_passArgs (index + 1) vs).bind fun _ => pushes_passArg index v

/-- Padding makes the pushed words an even number. -/
theorem dvd_callPadding (n : Nat) : (16 : Int) ∣ (callPadding n + wordSize * n : Nat) := by
  simp only [callPadding, wordSize]
  split <;> omega

/-- Padding is reserved if there is any. -/
theorem balances_reserve {α : Type} {h : Int} {n : Nat} {f : Unit → Lowering α}
    (hf : Balances (h + n) (f ())) :
    Balances h (if 0 < n then emit (.reserve n) >>= f else f ()) := by
  split
  · have hreserve : Pushes n (emit (.reserve n)) := .emit rfl rfl
    exact Balances.handOver_bind hreserve fun _ => hf
  · obtain rfl : n = 0 := by omega
    simpa using hf

/-- What was pushed is popped if there is any. -/
theorem balances_call_discard {α : Type} {n : Nat} {f : Unit → Lowering α} (name : String)
    (hn : (16 : Int) ∣ n) (hf : ∀ u, Balances 0 (f u)) :
    Balances n (emit (.call name) >>= fun _ =>
      if 0 < n then emit (.discard n) >>= f else f ()) := by
  intro s
  by_cases hpos : 0 < n
  · rw [if_pos hpos]
    exact .callPushed hn (hf () s)
  · obtain rfl : n = 0 := by omega
    exact .call (hf () s)

theorem balances_call (callee : Symbol) (size : Nat) {args : Lowering (List ValueId)}
    (h : Balances 0 args) : Balances 0 (call callee size args) := by
  refine (Balances.note _).bind fun _ => h.bind fun values =>
    (balances_forM_evict Reg.all).bind fun _ => balances_reserve ?_
  have hargs := pushes_passArgs 0 values
  rw [Nat.zero_add, Nat.zero_max] at hargs
  have hresult : ∀ _ : Unit, Balances 0 (newValue (.reg .rax) size) := fun _ => .newValue _ _
  have hcall := balances_call_discard callee.name
    (dvd_callPadding (values.length - registerArgs)) hresult
  refine Balances.handOver_bind hargs fun _ => ?_
  rw [Int.zero_add, ← Int.natCast_add]
  dsimp only
  split
  · have hvector : Pushes 0 (emit (.mov 4 (.imm 0) (.reg .rax 4))) := .emit rfl rfl
    exact Balances.handOver_bind hvector fun _ => by simpa using hcall
  · exact hcall

end LittleC.Lowering

namespace LittleC

open Lowering (Balances)

/-! ## Trees -/

theorem BinaryOp.balances_lower (op : BinaryOp) (size : Nat) {left right : Lowering ValueId}
    (hl : Balances 0 left) (hr : Balances 0 right) : Balances 0 (op.lower size left right) := by
  cases op with
  | add => exact Lowering.balances_arithmetic .add _ size hl hr
  | sub => exact Lowering.balances_arithmetic .sub _ size hl hr
  | mul => exact Lowering.balances_arithmetic .imul _ size hl hr
  | div => exact Lowering.balances_divide _ .rax size hl hr
  | rem => exact Lowering.balances_divide _ .rdx size hl hr
  | compare c => exact Lowering.balances_compare c size hl hr
  | land => exact Lowering.balances_logical _ .eq size hl hr
  | lor => exact Lowering.balances_logical _ .ne size hl hr

namespace Expr

variable (t : SymbolTable)

theorem balances_lowerAll : ∀ es : List Expr, (∀ e ∈ es, Balances 0 (e.lower t)) →
    Balances 0 (lowerAll t es)
  | [], _ => .pure []
  | e :: es, h => (h e List.mem_cons_self).bind fun _ =>
      (balances_lowerAll es fun e' he => h e' (List.mem_cons_of_mem _ he)).bind fun _ => .pure _

theorem balances_lower : ∀ e : Expr, Balances 0 (e.lower t)
  | number v _ => Lowering.balances_number v _
  | text s _ =>
      have hlabel : Balances 0 (Lowering.internText s) :=
        Balances.newLabel.bind fun _ => (Balances.update _).bind fun _ => .pure _
      hlabel.bind fun _ => .newValue _ _
  | ident _ _ => .newValue _ _
  | call _ args _ =>
      Lowering.balances_call _ _ (balances_lowerAll t args fun e _ => balances_lower e)
  | unary .negate e _ => Lowering.balances_negate _ (balances_lower e)
  | unary .logicalNot e _ => Lowering.balances_logicalNot _ (balances_lower e)
  | unary .deref e _ => Lowering.balances_deref _ (balances_lower e)
  | unary .address (unary .deref p _) _ => Lowering.balances_addressOfTarget (balances_lower p)
  | unary .address (number ..) _ | unary .address (text ..) _ | unary .address (ident ..) _
  | unary .address (call ..) _ | unary .address (cast ..) _ | unary .address (binary ..) _
  | unary .address (unary .negate ..) _ | unary .address (unary .logicalNot ..) _
  | unary .address (unary .address ..) _ => Lowering.balances_addressOfPlace (balances_lower _)
  | cast e _ => Lowering.balances_cast _ (balances_lower e)
  | binary op l r _ => op.balances_lower _ (balances_lower l) (balances_lower r)
termination_by e => SizeOf.sizeOf e

theorem balances_branch (e : Expr) (label : Label) (onTrue : Bool) :
    Balances 0 (e.branch t label onTrue) := by
  unfold branch
  split
  · rename_i c l r _
    exact (Lowering.balances_comparison (balances_lower t l) (balances_lower t r)).bind fun _ =>
      (Balances.update _).bind fun _ => .emit rfl
  · exact (balances_lower t e).bind fun v => (Lowering.balances_compareZero v).bind fun _ =>
      .emit rfl

end Expr

namespace Stmt

variable (t : SymbolTable) (done : Label)

/-! ### Statements -/

/-- What stands before the body of a loop. -/
def loopFront (c : Expr) : Lowering Unit := do
  Lowering.note "while"
  let head ← Lowering.newLabel
  let exit ← Lowering.newLabel
  Lowering.release
  Lowering.mark head
  c.branch t exit false

/-- What stands before the first body of a conditional. -/
def ifFront (c : Expr) : Lowering Unit := do
  Lowering.note "if"
  let skip ← Lowering.newLabel
  c.branch t skip false

/-- What stands before the other body of a conditional. -/
def elseFront (c : Expr) (body : Stmt) : Lowering Unit := do
  Lowering.note "if"
  let skip ← Lowering.newLabel
  c.branch t skip false
  body.lower t done
  let exit ← Lowering.newLabel
  Lowering.emit (.jmp exit)
  Lowering.mark skip

section
variable {t : SymbolTable} {done : Label}

theorem code_loop (c : Expr) (body : Stmt) (s : Lowering.State) :
    ((loop c body).lower t done s).code =
      (loopFront t c s).code ++ (body.lower t done (loopFront t c s).state).code ++
        [.instr (.jmp ⟨s.nextLabel⟩), .label ⟨s.nextLabel + 1⟩] := by
  simp [lower, loopFront, Lowering.loop, Lowering.bind_apply, Lowering.newLabel_apply,
    Lowering.note_apply, Lowering.mark_apply, Lowering.emit_apply, Lowering.release,
    Lowering.update_apply]

theorem code_ifThen (c : Expr) (body : Stmt) (s : Lowering.State) :
    ((ifThen c body).lower t done s).code =
      (ifFront t c s).code ++ (body.lower t done (ifFront t c s).state).code ++
        [.label ⟨s.nextLabel⟩] := by
  simp [lower, ifFront, Lowering.ifThen, Lowering.bind_apply, Lowering.newLabel_apply,
    Lowering.note_apply, Lowering.mark_apply, Lowering.release, Lowering.update_apply]

theorem code_elseFront (c : Expr) (body : Stmt) (s : Lowering.State) :
    (elseFront t done c body s).code =
      (ifFront t c s).code ++ (body.lower t done (ifFront t c s).state).code ++
        [.instr (.jmp ⟨(body.lower t done (ifFront t c s).state).state.nextLabel⟩),
          .label ⟨s.nextLabel⟩] := by
  simp [ifFront, elseFront, Lowering.bind_apply, Lowering.newLabel_apply, Lowering.note_apply,
    Lowering.mark_apply, Lowering.emit_apply]

/-- The other body stands behind the code of the conditional without it. -/
theorem code_ifElse (c : Expr) (body other : Stmt) (s : Lowering.State) :
    ((ifElse c body other).lower t done s).code =
      (elseFront t done c body s).code ++
        (other.lower t done (elseFront t done c body s).state).code ++
          [.label ⟨(body.lower t done (ifFront t c s).state).state.nextLabel⟩] := by
  simp [lower, ifFront, elseFront, Lowering.ifElse, Lowering.bind_apply, Lowering.newLabel_apply,
    Lowering.note_apply, Lowering.mark_apply, Lowering.emit_apply, Lowering.release,
    Lowering.update_apply]

end

theorem balances_loopFront (c : Expr) : Balances 0 (loopFront t c) :=
  (Balances.note _).bind fun _ => Balances.newLabel.bind fun _ => Balances.newLabel.bind fun exit =>
    (Balances.update _).bind fun _ => (Balances.mark _).bind fun _ => c.balances_branch t exit false

theorem balances_ifFront (c : Expr) : Balances 0 (ifFront t c) :=
  (Balances.note _).bind fun _ => Balances.newLabel.bind fun skip => c.balances_branch t skip false

theorem balances_elseFront (c : Expr) {body : Stmt} (hbody : Balances 0 (body.lower t done)) :
    Balances 0 (elseFront t done c body) :=
  (Balances.note _).bind fun _ => Balances.newLabel.bind fun skip =>
    (c.balances_branch t skip false).bind fun _ => hbody.bind fun _ =>
      Balances.newLabel.bind fun _ => (Balances.emit rfl).bind fun _ => .mark skip

theorem balances_store (size : Nat) {pointer value : Lowering ValueId} (hp : Balances 0 pointer)
    (hv : Balances 0 value) : Balances 0 (Lowering.store size pointer value) :=
  (Balances.note _).bind fun _ => hv.bind fun v => hp.bind fun p =>
    (Lowering.balances_inRegister v []).bind fun source =>
      (Lowering.balances_inRegister p [source]).bind fun _ => .emit rfl

theorem balances_storeNamed (size : Nat) {place value : Lowering ValueId} (hp : Balances 0 place)
    (hv : Balances 0 value) : Balances 0 (Lowering.storeNamed size place value) :=
  (Balances.note _).bind fun _ => hp.bind fun _ => hv.bind fun v =>
    (Lowering.balances_inRegister v []).bind fun _ => (Balances.inspect _).bind fun _ => .emit rfl

theorem balances_assign (value : Expr) : ∀ place : Expr,
    Balances 0 ((assign place value).lower t done)
  | .unary .deref p _ =>
      (balances_store _ (p.balances_lower t) (value.balances_lower t)).bind fun _ => .update _
  | .number .. | .text .. | .ident .. | .call .. | .cast .. | .binary .. | .unary .negate _ _
  | .unary .logicalNot _ _ | .unary .address _ _ =>
      (balances_storeNamed _ (Expr.balances_lower t _) (value.balances_lower t)).bind fun _ =>
        .update _

theorem balances_lowerAll : ∀ xs : List Stmt, (∀ x ∈ xs, Balances 0 (x.lower t done)) →
    Balances 0 (lowerAll t done xs)
  | [], _ => .pure ()
  | x :: xs, h => (h x List.mem_cons_self).bind fun _ =>
      balances_lowerAll xs fun x' hx => h x' (List.mem_cons_of_mem _ hx)

theorem balances_lower : ∀ x : Stmt, Balances 0 (x.lower t done)
  | expr e =>
      have hresult : Balances 0 (Lowering.discardResult (e.lower t)) :=
        (e.balances_lower t).bind fun _ => .update _
      hresult.bind fun _ => .update _
  | assign place value => balances_assign t done value place
  | ret e =>
      have hresult : Balances 0 (Lowering.returnTo done (e.lower t)) :=
        (e.balances_lower t).bind fun v => (Lowering.balances_load v .rax).bind fun _ => .emit rfl
      hresult.bind fun _ => .update _
  | loop c body => fun s => by
      rw [code_loop]
      exact ((balances_loopFront t c s).append (balances_lower body _)).append
        (.plain rfl (.plain rfl .nil))
  | ifThen c body => fun s => by
      rw [code_ifThen]
      exact ((balances_ifFront t c s).append (balances_lower body _)).append (.plain rfl .nil)
  | ifElse c body other => fun s => by
      rw [code_ifElse]
      exact ((balances_elseFront t done c (balances_lower body) s).append
        (balances_lower other _)).append (.plain rfl .nil)
  | block _ body =>
      (balances_lowerAll t done body fun x _ => balances_lower x).bind fun _ => .update _
termination_by x => SizeOf.sizeOf x

end Stmt

end LittleC
