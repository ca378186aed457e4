import LittleC.Proofs.Calls.Setting

/-! # Handing arguments over

Arguments go to their registers or on the stack, from the last to the first. All registers have been
saved before, so an argument that is still to be handed over is a constant or in memory, above
everything that is pushed. -/

namespace LittleC

open Lowering (State)

/-- The word of argument `i` when a function is called: a register, or a word from the top of the
stack on. -/
def Machine.argument (m : Machine) (i : Nat) : Word :=
  match Reg.args[i]? with
  | some r => m.regs r
  | none => m.memory.load (m.stack + .ofInt 64 (wordSize * (i - registerArgs : Nat))) 8

/-- Every argument is at its place, at its size. -/
def Machine.Passes (m : Machine) (args : List Argument) : Prop :=
  ∀ i a, args[i]? = some a → signed a.size (m.argument i) = a.value

namespace Setting

variable (S : Setting)

/-- The word of argument `j` of `n`, when the first word is pushed right below `top`. -/
def word (m : Machine) (top : Int) (n j : Nat) : Word :=
  match Reg.args[j]? with
  | some r => m.regs r
  | none => m.memory.load (S.base + .ofInt 64 (top - wordSize * (n - j : Nat))) 8

/-- Where the stack ends when the arguments from `index` on of `n` are handed over. -/
def stackBelow (top : Int) (n index : Nat) : Int :=
  top - wordSize * (n - max registerArgs index : Nat)

/-- From `m` on, the arguments from `index` on of `n` have been handed over. -/
structure Handed (top : Int) (n index : Nat) (args : List Argument) (m m' : Machine) : Prop where
  base : m'.base = m.base
  stack : m'.stack = S.base + .ofInt 64 (stackBelow top n index)
  memory : ∀ b, ¬Zone S.base S.floor top b → m'.memory b = m.memory b
  words : ∀ i a, args[i]? = some a → signed a.size (S.word m' top n (index + i)) = a.value

/-- In state `s` the machine holds the argument as a value that no register holds. -/
structure Waits (s : State) (m : Machine) (v : ValueId) (a : Argument) : Prop where
  holds : S.Holds s m v a.size a.value
  width : Width a.size

section
variable {S} {s : State} {m m' : Machine} {v : ValueId} {a : Argument} {args : List Argument}
  {top : Int} {n index : Nat}

/-- What is pushed leaves the arguments that wait. -/
theorem Waits.after (h : S.Waits s m v a) (hpool : ∀ r, s.pool r = none)
    (htop : top ≤ s.lowest) (hm : ∀ b, ¬Zone S.base S.floor top b → m'.memory b = m.memory b) :
    S.Waits s m' v a := by
  refine ⟨h.holds.transfer h.width.le (State.Unmoved.refl s v) (Int.le_refl _) (fun r hr => ?_)
    fun b hb => hm b fun hz => hb (hz.mono (Int.le_refl _) htop), h.width⟩
  rw [hpool r] at hr
  cases hr

/-- An argument that is a constant or a whole word can be pushed as it is. -/
theorem Waits.whole (hv : S.Waits s m v a) (hbase : m.base = S.base)
    (hwhole : ((s.values v).isImm || (s.values v).size == wordSize) = true) :
    (s.values v).operand.isSource 8 = true ∧
      signed a.size (m.read S.world 8 (s.values v).operand) = a.value := by
  obtain ⟨hsize, hcontent⟩ := hv.holds
  cases hloc : (s.values v).location with
  | imm c =>
      rw [hloc] at hcontent
      obtain ⟨hfits, hwrap, heq⟩ := hcontent
      have hoperand : (s.values v).operand = .imm c := by rw [Value.operand, hloc]
      rw [hoperand]
      refine ⟨?_, ((signed_ofInt hv.width.le c).trans hwrap).trans heq⟩
      simp [Operand.isSource, Operand.fits, hfits, wrap_of_fitsInt (Or.inr rfl) hfits]
  | _ =>
      have hword : (s.values v).size = 8 := by simpa [Value.isImm, hloc, wordSize] using hwhole
      have hread := hv.holds.read hv.width.le hbase
      have hsource := hv.holds.isSource
      rw [hsize] at hword
      rw [hword] at hread hsource ⊢
      exact ⟨hsource, hread⟩

end

end Setting

namespace Lowering

open State Setting

/-! ## Actions that write instructions only -/

/-- The action writes instructions and leaves the state. -/
def Writes (a : Lowering Unit) : Prop :=
  ∀ s : State, ∃ is : List Instr, a s = ⟨(), is.map .instr, s⟩

namespace Writes

variable {a : Lowering Unit} {s : State}

theorem emit (i : Instr) : Writes (emit i) := fun _ => ⟨[i], rfl⟩

theorem pure : Writes (pure ()) := fun _ => ⟨[], rfl⟩

theorem bind {f : Unit → Lowering Unit} (ha : Writes a) (hf : Writes (f ())) :
    Writes (a >>= f) := by
  intro s
  obtain ⟨is, his⟩ := ha s
  obtain ⟨js, hjs⟩ := hf s
  exact ⟨is ++ js, by rw [bind_apply, his, hjs, List.map_append]⟩

theorem inspect_bind {α : Type} {g : State → α} {f : α → Lowering Unit} (h : ∀ x, Writes (f x)) :
    Writes (inspect g >>= f) := fun s => h (g s) s

theorem state (ha : Writes a) (s : State) : (a s).state = s := by
  obtain ⟨is, his⟩ := ha s
  rw [his]

theorem labels (ha : Writes a) (lo hi : Nat) (s : State) : LabelsIn lo hi (a s).code := by
  obtain ⟨is, his⟩ := ha s
  intro l hl
  rw [his] at hl
  obtain ⟨_, -, hline⟩ := List.mem_map.mp hl
  cases hline

theorem reaches_bind {α : Type} {f : Unit → Lowering α} {w : World} {bound : Nat}
    {m m' m'' : Machine} {e : Exit} (ha : Writes a) (h : w.Reaches bound (a s).code m .next m')
    (hf : w.Reaches bound (f () s).code m' e m'') :
    w.Reaches bound ((a >>= f) s).code m e m'' := by
  have hstate := ha.state s
  rw [← hstate] at hf
  exact h.append (ha.labels 0 bound s) (Nat.le_refl _) hf

end Writes

/-! ## One argument -/

section
variable {S : Setting} {s : State} {m m' : Machine} {v : ValueId} {a : Argument}
  {args : List Argument} {top : Int} {n index bound : Nat}

/-- Pushes an argument. -/
def pushArg (value : Value) : Lowering Unit :=
  if value.isImm || value.size == wordSize then emit (.push value.operand)
  else do
    emit (.mov value.size value.operand (.reg .rax value.size))
    emit (.push (.reg .rax wordSize))

theorem valueOf_apply (v : ValueId) (s : State) : valueOf v s = ⟨s.values v, [], s⟩ := rfl

theorem passArg_of_some {r : Reg} (hr : Reg.args[index]? = some r) (v : ValueId) (s : State) :
    passArg index v s =
      emit (.mov (s.values v).size (s.values v).operand (.reg r (s.values v).size)) s := by
  unfold passArg
  simp only [bind_apply, valueOf_apply, hr]
  rfl

theorem passArg_of_none (hr : Reg.args[index]? = none) (v : ValueId) (s : State) :
    passArg index v s = pushArg (s.values v) s := by
  unfold passArg
  simp only [bind_apply, valueOf_apply, hr]
  rfl

theorem writes_passArg (index : Nat) (v : ValueId) : Writes (passArg index v) := by
  refine .inspect_bind fun value => ?_
  split
  · exact .emit _
  · split
    · exact .emit _
    · exact (Writes.emit _).bind (.emit _)

theorem writes_passArgs : ∀ (index : Nat) (vs : List ValueId), Writes (passArgs index vs)
  | _, [] => .pure
  | index, v :: vs => (writes_passArgs (index + 1) vs).bind (writes_passArg index v)

/-- An argument goes into its register. -/
theorem reaches_passArg_reg {r : Reg} (hr : Reg.args[index]? = some r) (hv : S.Waits s m v a)
    (hbase : m.base = S.base) (bound : Nat) :
    ∃ w, signed a.size w = a.value ∧
      S.world.Reaches bound (passArg index v s).code m .next (m.set r a.size w) := by
  rw [passArg_of_some hr, hv.holds.1]
  exact ⟨_, hv.holds.read hv.width.le hbase,
    World.reaches_instr (Instr.encodable_load hv.width hv.holds.isSource r) rfl bound⟩

/-- An argument goes on the stack. -/
theorem reaches_passArg_push (hr : Reg.args[index]? = none) (hv : S.Waits s m v a)
    (hbase : m.base = S.base) (bound : Nat) :
    ∃ w regs, signed a.size w = a.value ∧ (∀ q, q ≠ .rax → regs q = m.regs q) ∧
      S.world.Reaches bound (passArg index v s).code m .next { m.push w with regs := regs } := by
  rw [passArg_of_none hr, pushArg]
  split
  · next hwhole =>
      obtain ⟨hsource, hread⟩ := hv.whole hbase hwhole
      exact ⟨_, m.regs, hread, fun _ _ => rfl,
        World.reaches_instr (i := .push (s.values v).operand) hsource rfl bound⟩
  · next =>
      -- The low bytes of `%rax` are the argument, and all of it is pushed.
      rw [hv.holds.1]
      have hload := World.reaches_instr (w := S.world) (m := m)
        (Instr.encodable_load hv.width hv.holds.isSource .rax) rfl bound
      refine ⟨_, _, ?_, fun q hq => Machine.regs_set_of_ne m hq a.size _,
        hload.append (labelsIn_instr 0 bound _) (Nat.le_refl _) (World.reaches_instr rfl rfl bound)⟩
      rw [Machine.read, Machine.write_reg, Machine.regs_set_self, signed_merge hv.width.le]
      exact hv.holds.read hv.width.le hbase

/-! ## All arguments -/

theorem stackBelow_of_le (h : registerArgs ≤ index) :
    stackBelow top n index = top - wordSize * (n - index : Nat) := by
  rw [stackBelow, max_eq_right h]

/-- Each further argument takes one word. -/
theorem stackBelow_succ (h : registerArgs ≤ index) (hn : index < n) :
    stackBelow top n (index + 1) - wordSize = stackBelow top n index := by
  rw [stackBelow_of_le h, stackBelow_of_le (Nat.le_succ_of_le h)]
  simp only [wordSize]
  omega

theorem stack_push {o : Int} (w : Word) (h : m.stack = S.base + .ofInt 64 o) :
    (m.push w).stack = S.base + .ofInt 64 (o - wordSize) := by
  show m.stack - 8 = _
  rw [h, BitVec.sub_eq_add_neg, BitVec.add_assoc, Int.sub_eq_add_neg, BitVec.ofInt_add]
  rfl

/-- A push writes one word. -/
theorem memory_push {o : Int} (w : Word) (h : (m.push w).stack = S.base + .ofInt 64 o) {b : Word}
    (hb : ¬Zone S.base o (o + wordSize) b) : (m.push w).memory b = m.memory b := by
  refine Memory.store_of_not_covers w fun hcovers => hb ?_
  have hplace : m.stack - 8 = S.base + .ofInt 64 o := h
  rw [hplace] at hcovers
  exact zone_of_covers hcovers

/-- One more argument goes into its register. -/
theorem reaches_handed_reg {r : Reg} (hr : Reg.args[index]? = some r) (hv : S.Waits s m' v a)
    (hbase : m'.base = S.base) (h : S.Handed top n (index + 1) args m m') :
    ∃ m'', S.world.Reaches bound (passArg index v s).code m' .next m'' ∧
      S.Handed top n index (a :: args) m m'' := by
  obtain ⟨w, hw, hrun⟩ := reaches_passArg_reg hr hv hbase bound
  have hindex : index < registerArgs := (List.getElem?_eq_some_iff.mp hr).1
  refine ⟨_, hrun, h.base, h.stack.trans ?_, h.memory, ?_⟩
  · rw [stackBelow, stackBelow, show max registerArgs (index + 1) = max registerArgs index by omega]
  · rintro (_ | i) b hb
    · cases hb
      rw [word, Nat.add_zero, hr]
      dsimp only
      rw [Machine.regs_set_self, signed_merge hv.width.le, hw]
    · have hother := h.words i b hb
      rw [show index + (i + 1) = index + 1 + i by omega]
      unfold word at hother ⊢
      cases hq : Reg.args[index + 1 + i]? with
      | none =>
          rw [hq] at hother
          exact hother
      | some q =>
          -- No register is that of two arguments.
          have hne : q ≠ r := by
            rintro rfl
            have hlt := (List.getElem?_eq_some_iff.mp hq).1
            have := (List.getElem?_inj hlt (by decide)).mp (hq.trans hr.symm)
            omega
          rw [hq] at hother
          dsimp only at hother ⊢
          rw [Machine.regs_set_of_ne m' hne]
          exact hother

/-- One more argument is pushed. -/
theorem reaches_handed_push (hr : Reg.args[index]? = none) (hv : S.Waits s m' v a)
    (hbase : m'.base = S.base) (h : S.Handed top n (index + 1) args m m')
    (hn : n = index + 1 + args.length) (hfloor : S.floor ≤ stackBelow top n index)
    (hroom : top - S.floor ≤ 2 ^ 64) :
    ∃ m'', S.world.Reaches bound (passArg index v s).code m' .next m'' ∧
      S.Handed top n index (a :: args) m m'' := by
  obtain ⟨w, regs, hw, hregs, hrun⟩ := reaches_passArg_push hr hv hbase bound
  have hindex : registerArgs ≤ index := List.getElem?_eq_none_iff.mp hr
  have hplace : stackBelow top n index = top - wordSize * (n - index : Nat) :=
    stackBelow_of_le hindex
  have hstack : (m'.push w).stack = S.base + .ofInt 64 (stackBelow top n index) := by
    rw [stack_push w h.stack, stackBelow_succ hindex (by omega)]
  refine ⟨_, hrun, h.base, hstack, fun b hb => ?_, ?_⟩
  · rw [← h.memory b hb]
    refine memory_push w hstack fun hz => hb (hz.mono hfloor ?_)
    rw [hplace]
    simp only [wordSize]
    omega
  · rintro (_ | i) b hb
    · cases hb
      rw [word, Nat.add_zero, hr]
      dsimp only
      rw [← hplace, ← hstack]
      exact (congrArg (signed a.size) (Memory.load_store _ _ _)).trans hw
    · have hother := h.words i b hb
      have hi : i < args.length := Nat.lt_of_succ_lt_succ (List.getElem?_eq_some_iff.mp hb).1
      rw [show index + (i + 1) = index + 1 + i by omega]
      have hnone : Reg.args[index + 1 + i]? = none :=
        List.getElem?_eq_none (Nat.le_trans hindex (by omega))
      rw [word, hnone] at hother ⊢
      dsimp only at hother ⊢
      rw [← hother, Memory.load_congr (Nat.le_refl 8) fun c hc => ?_]
      -- Words that were pushed before lie above this one.
      refine memory_push w hstack fun hz => hz.not_above ?_ ?_ (zone_of_covers hc)
      · rw [hplace]
        simp only [wordSize]
        omega
      · rw [hplace] at hfloor ⊢
        simp only [wordSize] at hfloor ⊢
        omega

/-- All arguments are handed over, from the last to the first. -/
theorem reaches_passArgs (hpool : ∀ r, s.pool r = none) (htop : top ≤ s.lowest)
    (hroom : s.lowest - S.floor ≤ 2 ^ 64) (hbase : m.base = S.base)
    (hstack : m.stack = S.base + .ofInt 64 top) (bound : Nat) :
    ∀ {vs : List ValueId} {args : List Argument} (index : Nat), n = index + args.length →
      S.floor ≤ stackBelow top n index → List.Forall₂ (S.Waits s m) vs args →
        ∃ m', S.world.Reaches bound (passArgs index vs s).code m .next m' ∧
          S.Handed top n index args m m'
  | [], [], index, hn, _, _ => by
      refine ⟨m, World.reaches_nil _ _ m, rfl, ?_, fun _ _ => rfl, nofun⟩
      rw [hstack, stackBelow, show n - max registerArgs index = 0 by simp at hn; omega]
      simp
  | v :: vs, a :: args, index, hn, hfloor, .cons hv hvs => by
      have hlen : n = index + 1 + args.length := by
        rw [hn, List.length_cons]
        omega
      have hmono : stackBelow top n index ≤ stackBelow top n (index + 1) := by
        simp only [stackBelow, wordSize]
        omega
      obtain ⟨m', hrun, hhanded⟩ := reaches_passArgs hpool htop hroom hbase hstack bound (index + 1)
        hlen (Int.le_trans hfloor hmono) hvs
      have hwaits := hv.after hpool htop hhanded.memory
      have hbase' := hhanded.base.trans hbase
      obtain ⟨m'', hrun', hhanded'⟩ : ∃ m'',
          S.world.Reaches bound (passArg index v s).code m' .next m'' ∧
            S.Handed top n index (a :: args) m m'' := by
        cases hr : Reg.args[index]? with
        | some r => exact reaches_handed_reg hr hwaits hbase' hhanded
        | none => exact reaches_handed_push hr hwaits hbase' hhanded hlen hfloor (by omega)
      exact ⟨m'', (writes_passArgs (index + 1) vs).reaches_bind hrun hrun', hhanded'⟩

end

end Lowering

end LittleC
