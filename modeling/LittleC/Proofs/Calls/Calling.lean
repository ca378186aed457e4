import LittleC.Proofs.Calls.Operators
import LittleC.Proofs.Calls.Passing
import Mathlib.Data.List.Forall2

/-! # Calls

A call hands its arguments over, runs the function and takes what was pushed off the stack. What the
caller relies on is a contract: the function gets its arguments and leaves the frame as it was. -/

namespace LittleC

open Lowering (State Before)

/-- The bytes that are pushed for `n` arguments. -/
def pushedBytes (n : Nat) : Nat :=
  Lowering.callPadding (n - registerArgs) + wordSize * (n - registerArgs)

namespace Lowering

/-! ## The parts of a call -/

def emitIf (p : Prop) [Decidable p] (i : Instr) : Lowering Unit := if p then emit i else pure ()

/-- Hands over all that a called function gets. -/
def hand (callee : Symbol) (vs : List ValueId) : Lowering Unit :=
  emitIf (0 < callPadding (vs.length - registerArgs))
      (.reserve (callPadding (vs.length - registerArgs))) >>= fun _ =>
    passArgs 0 vs >>= fun _ => emitIf (callee.ty.params?.isNone) (.mov 4 (.imm 0) (.reg .rax 4))

/-- All arguments are computed, and no register is needed any more. -/
def gather (args : Lowering (List ValueId)) : Lowering (List ValueId) :=
  note "call" >>= fun _ => args >>= fun vs => spillAll >>= fun _ => pure vs

/-- All of a call up to the instruction. -/
def callFront (callee : Symbol) (args : Lowering (List ValueId)) : Lowering Unit :=
  gather args >>= hand callee

/-- The arguments are handed over, the function runs, and what was pushed is taken off again. -/
def acrossCall (callee : Symbol) (vs : List ValueId) : Lowering Unit :=
  hand callee vs >>= fun _ => emit (.call callee.name) >>= fun _ =>
    emitIf (0 < pushedBytes vs.length) (.discard (pushedBytes vs.length))

/-- The result of a call is in `%rax`. -/
theorem call_eq (callee : Symbol) (size : Nat) (args : Lowering (List ValueId)) :
    call callee size args =
      gather args >>= fun vs => acrossCall callee vs >>= fun _ => newValue (.reg .rax) size := by
  have hif : ∀ (p : Prop) [Decidable p] (i : Instr) {α : Type} (f : Unit → Lowering α),
      emitIf p i >>= f = if p then emit i >>= f else f () := by
    intro p _ i α f
    unfold emitIf
    split
    · rfl
    · rw [pure_bind]
  unfold call gather acrossCall hand pushedBytes
  simp only [bind_assoc, pure_bind]
  simp only [hif]

/-- All calls that the arguments make come before the call itself. -/
theorem code_call (callee : Symbol) (size : Nat) (args : Lowering (List ValueId)) (s : State) :
    ∃ back, (call callee size args s).code =
        (callFront callee args s).code ++ .instr (.call callee.name) :: back ∧
      ∀ name, Line.instr (.call name) ∉ back := by
  have hacross : ∀ vs s, ∃ back, (acrossCall callee vs s).code =
        (hand callee vs s).code ++ .instr (.call callee.name) :: back ∧
      ∀ name, Line.instr (.call name) ∉ back := by
    refine fun vs s => ⟨_, rfl, fun name => ?_⟩
    unfold emitIf
    split
    · exact fun h => nomatch List.mem_singleton.mp h
    · exact List.not_mem_nil
  rw [call_eq]
  obtain ⟨back, hback, hcalls⟩ := hacross (gather args s).result (gather args s).state
  refine ⟨back, ?_, hcalls⟩
  simp only [callFront, bind_apply, hback, List.append_assoc, List.cons_append]
  exact congrArg (_ ++ ·) (congrArg (_ ++ ·) (congrArg (_ :: ·) (List.append_nil back)))

theorem writes_emitIf (p : Prop) [Decidable p] (i : Instr) : Writes (emitIf p i) := by
  unfold emitIf
  split
  · exact .emit i
  · exact .pure

theorem writes_hand (callee : Symbol) (vs : List ValueId) : Writes (hand callee vs) :=
  (writes_emitIf _ _).bind ((writes_passArgs 0 vs).bind (writes_emitIf _ _))

theorem writes_acrossCall (callee : Symbol) (vs : List ValueId) : Writes (acrossCall callee vs) :=
  (writes_hand callee vs).bind ((Writes.emit _).bind (writes_emitIf _ _))

theorem reaches_emitIf {p : Prop} [Decidable p] {i : Instr} {w : World} {m m' : Machine}
    (hi : p → i.encodable = true ∧ m.exec w i = some m') (hskip : ¬p → m' = m) (bound : Nat)
    (s : State) : w.Reaches bound (emitIf p i s).code m .next m' := by
  unfold emitIf
  split
  · next hp => exact World.reaches_instr (hi hp).1 (hi hp).2 bound
  · next hp =>
      rw [hskip hp]
      exact World.reaches_nil w bound m

end Lowering

namespace Setting

variable (S : Setting)

/-- What a function finds when it is called with the arguments `args` while the memory of the
program is `M`. -/
structure Calling (M : Memory) (callee : Symbol) (args : List Argument) (m : Machine) : Prop where
  base : m.base = S.base
  stack : m.stack = S.base + .ofInt 64 (-S.frame - pushedBytes args.length)
  memory : ∀ b, S.env.owned b = true → m.memory b = M b
  passes : m.Passes args
  vectors : callee.ty.params? = none → signed 4 (m.regs .rax) = 0

/-- How a function leaves the machine on which it was called: with the result `x` of `n` bytes and
the program's memory `M'`. It may clobber all registers. -/
structure Left (M' : Memory) (n : Nat) (x : Int) (m m' : Machine) : Prop where
  base : m'.base = m.base
  stack : m'.stack = m.stack
  memory : ∀ b, S.env.owned b = true → m'.memory b = M' b
  frame : ∀ b, S.env.owned b = false → Zone S.base (-S.frame) 0 b → m'.memory b = m.memory b
  result : signed n (m'.regs .rax) = x

/-- Called with its arguments where they belong, every function does what it is said to do. -/
def Conforms (t : SymbolTable) : Prop :=
  ∀ f args M x M' m, S.callees.result f args M = some (x, M') → S.Calling M (t.symbol f) args m →
    ∃ m', S.world.calls (t.symbol f).name m = some m' ∧
      S.Left M' (t.symbol f).ty.result.size x m m'

end Setting

namespace Lowering

open State Setting

section
variable {S : Setting} {s : State} {m : Machine} {M M' : Memory} {callee : Symbol}
  {vs : List ValueId} {args : List Argument}

/-- All arguments are where the called function looks for them. -/
theorem passes_of_handed {top : Int} {m' : Machine} (h : S.Handed top args.length 0 args m m') :
    m'.Passes args := by
  intro i a ha
  have hword := h.words i a ha
  have hi : i < args.length := (List.getElem?_eq_some_iff.mp ha).1
  rw [Nat.zero_add] at hword
  unfold word at hword
  unfold Machine.argument
  cases hr : Reg.args[i]? with
  | some r =>
      rw [hr] at hword
      exact hword
  | none =>
      have hle : registerArgs ≤ i := List.getElem?_eq_none_iff.mp hr
      rw [hr] at hword
      dsimp only at hword ⊢
      rw [h.stack, BitVec.add_assoc, ← BitVec.ofInt_add, ← hword]
      congr 3
      simp only [stackBelow, wordSize]
      congr 1
      omega

/-- The stack is lowered so that it is aligned when all words are pushed. -/
theorem reaches_padding (hm : S.Stands M s m) (n bound : Nat) :
    ∃ m', S.world.Reaches bound (emitIf (0 < n) (.reserve n) s).code m .next m' ∧
      m'.base = S.base ∧ m'.stack = S.base + .ofInt 64 (-S.frame - n) ∧ m'.memory = m.memory := by
  by_cases hn : 0 < n
  · refine ⟨{ m with stack := m.stack - .ofInt 64 n, flags := none },
      reaches_emitIf (fun _ => ⟨rfl, rfl⟩) (absurd hn) bound s, hm.base, ?_, rfl⟩
    show m.stack - .ofInt 64 n = _
    rw [hm.stack, BitVec.sub_eq_add_neg, BitVec.add_assoc, Int.sub_eq_add_neg, BitVec.ofInt_add,
      BitVec.ofInt_neg, BitVec.ofInt_neg]
  · refine ⟨m, reaches_emitIf (absurd · hn) (fun _ => rfl) bound s, hm.base, ?_, rfl⟩
    rw [hm.stack, Nat.eq_zero_of_not_pos hn]
    simp

/-- The stack is raised over what was pushed. -/
theorem reaches_discard {n : Nat} (h : m.stack = S.base + .ofInt 64 (-S.frame - n)) (s : State)
    (bound : Nat) :
    ∃ m', S.world.Reaches bound (emitIf (0 < n) (.discard n) s).code m .next m' ∧
      m'.base = m.base ∧ m'.stack = S.base + .ofInt 64 (-S.frame) ∧ m'.memory = m.memory ∧
      m'.regs = m.regs := by
  by_cases hn : 0 < n
  · refine ⟨{ m with stack := m.stack + .ofInt 64 n, flags := none },
      reaches_emitIf (fun _ => ⟨rfl, rfl⟩) (absurd hn) bound s, rfl, ?_, rfl, rfl⟩
    show m.stack + .ofInt 64 n = _
    rw [h, BitVec.add_assoc, ← BitVec.ofInt_add, Int.sub_add_cancel]
  · refine ⟨m, reaches_emitIf (absurd · hn) (fun _ => rfl) bound s, rfl, ?_, rfl, rfl⟩
    rw [h, Nat.eq_zero_of_not_pos hn]
    simp

/-- A function without listed parameters is told that no vector registers are in use. -/
theorem reaches_vectors (w : World) (h : m.Passes args) (p : Bool) (s : State) (bound : Nat) :
    ∃ m', w.Reaches bound (emitIf p (.mov 4 (.imm 0) (.reg .rax 4)) s).code m .next m' ∧
      m'.base = m.base ∧ m'.stack = m.stack ∧ m'.memory = m.memory ∧ m'.Passes args ∧
      (p = true → signed 4 (m'.regs .rax) = 0) := by
  by_cases hp : p = true
  · refine ⟨m.set .rax 4 (.ofInt 64 0), reaches_emitIf (fun _ => ⟨rfl, rfl⟩) (absurd hp) bound s,
      rfl, rfl, rfl, ?_, ?_⟩
    · intro i a ha
      rw [← h i a ha]
      unfold Machine.argument
      cases hr : Reg.args[i]? with
      | none => rfl
      | some r =>
          have hne : r ≠ .rax := fun heq => absurd (heq ▸ List.mem_of_getElem? hr) (by decide)
          exact congrArg (signed a.size) (Machine.regs_set_of_ne m hne 4 _)
    · intro _
      rw [Machine.regs_set_self, signed_merge (by decide), signed_ofInt (by decide)]
      rfl
  · exact ⟨m, reaches_emitIf (absurd · hp) (fun _ => rfl) bound s, rfl, rfl, rfl, h, (absurd · hp)⟩

/-- Everything that a called function needs is handed over. -/
theorem reaches_hand (callee : Symbol) (hpool : ∀ r, s.pool r = none) (hm : S.Stands M s m)
    (hc : S.Contains s) (hroom : S.floor ≤ -S.frame - pushedBytes args.length)
    (hvs : List.Forall₂ (S.Waits s m) vs args) (bound : Nat) :
    ∃ m', S.world.Reaches bound (hand callee vs s).code m .next m' ∧ S.Calling M callee args m' ∧
      ∀ b, ¬Zone S.base S.floor (-S.frame) b → m'.memory b = m.memory b := by
  have hlength : vs.length = args.length := hvs.length_eq
  have hframe := hc.frame
  have hspace := hm.room
  obtain ⟨padding, hpadding⟩ : ∃ n, callPadding (args.length - registerArgs) = n := ⟨_, rfl⟩
  have hplace : -S.frame - pushedBytes args.length =
      stackBelow (-S.frame - padding) args.length 0 := by
    simp only [stackBelow, pushedBytes, hpadding]
    push_cast
    simp only [Nat.max_zero]
    omega
  unfold hand
  rw [hlength, hpadding]
  obtain ⟨m₁, hrun₁, hbase₁, hstack₁, hmemory₁⟩ := reaches_padding hm padding bound
  have hwaits : List.Forall₂ (S.Waits s m₁) vs args := hvs.imp fun _ _ hv =>
    hv.after hpool (Int.le_refl _) fun b _ => congrFun hmemory₁ b
  obtain ⟨m₂, hrun₂, hhanded⟩ := reaches_passArgs hpool
    (by omega) hspace hbase₁ hstack₁ bound 0 (Nat.zero_add _).symm (hplace ▸ hroom) hwaits
  obtain ⟨m₃, hrun₃, hbase₃, hstack₃, hmemory₃, hpasses, hvectors⟩ := reaches_vectors S.world
    (passes_of_handed hhanded) callee.ty.params?.isNone s bound
  have hmemory : ∀ b, ¬Zone S.base S.floor (-S.frame) b → m₃.memory b = m.memory b := by
    intro b hb
    rw [hmemory₃, hhanded.memory b fun hz => hb (hz.mono (Int.le_refl _) (by omega)), hmemory₁]
  refine ⟨m₃, (writes_emitIf _ _).reaches_bind hrun₁
    ((writes_passArgs 0 vs).reaches_bind hrun₂ hrun₃),
    ⟨?_, ?_, fun b hb => ?_, hpasses, fun hnone => hvectors (by rw [hnone]; rfl)⟩, hmemory⟩
  · rw [hbase₃, hhanded.base, hbase₁]
  · rw [hstack₃, hhanded.stack, hplace]
  · rw [hmemory b fun hz => hm.apart b hb (hz.mono (Int.le_refl _) hframe), hm.memory b hb]

/-- What lasts is still held when the function has returned. -/
theorem survives_left {m₁ m' : Machine} {n : Nat} {x : Int} {f : SymbolId}
    (hpool : ∀ r, s.pool r = none) (hm : S.Stands M s m) (hc : S.Contains s)
    (hhand : ∀ b, ¬Zone S.base S.floor (-S.frame) b → m₁.memory b = m.memory b)
    (hleft : S.Left M' n x m₁ m') (hcall : S.callees.call f args M = some (x, M'))
    {v : ValueId} {k : Nat} {y : Int} (hk : k ≤ 8) (hv : S.Lasts s m v k y) :
    S.Lasts s m' v k y := by
  refine ⟨?_, hv.firm⟩
  obtain ⟨⟨hsize, hcontent⟩, hfirm⟩ := hv
  refine ⟨hsize, ?_⟩
  cases hloc : (s.values v).location with
  | imm c =>
      rw [hloc] at hcontent
      exact hcontent
  | reg r =>
      rw [hloc] at hcontent
      exact nomatch (hpool r).symm.trans hcontent.1
  | mem p =>
      rw [hloc] at hcontent hfirm
      obtain ⟨a, ha, hapart, hy⟩ := hcontent
      refine ⟨a, ha, hapart, ?_⟩
      rcases hfirm a ha with ⟨hspared, howns⟩ | hframe
      · -- The program owns a variable, and the function has not written this one.
        have hspares := (Callees.call_eq_some hcall).2 (a, k) hspared
        rw [Env.load_congr hk hleft.memory howns, hspares, ← hy, Env.load_congr hk hm.memory howns]
      · -- A temporary is in the frame, above everything that was pushed.
        rw [Memory.load_congr hk fun b hb => ?_]
        · exact hy
        · obtain ⟨howned, hzone⟩ := hframe b hb
          rw [hleft.frame b howned hzone,
            hhand b fun hz => hapart b hb (hz.mono (Int.le_refl _) hc.frame)]

/-- Arguments that wait are handed over, and the function does what it is said to do with them. -/
theorem reaches_acrossCall {t : SymbolTable} {f : SymbolId} {x : Int} (hconforms : S.Conforms t)
    (hpool : ∀ r, s.pool r = none) (hm : S.Stands M s m) (hc : S.Contains s)
    (hroom : S.floor ≤ -S.frame - pushedBytes args.length)
    (hvs : List.Forall₂ (S.Waits s m) vs args) (hcall : S.callees.call f args M = some (x, M'))
    (bound : Nat) :
    ∃ m', S.world.Reaches bound (acrossCall (t.symbol f) vs s).code m .next m' ∧ S.Stands M' s m' ∧
      S.Survives All s m s m' ∧ signed (t.symbol f).ty.result.size (m'.regs .rax) = x := by
  obtain ⟨m₁, hrun₁, hcalling, hhand⟩ :=
    reaches_hand (t.symbol f) hpool hm hc hroom hvs bound
  obtain ⟨m₂, hcalls, hleft⟩ := hconforms f args M x M' m₁ (Callees.call_eq_some hcall).1 hcalling
  obtain ⟨m₃, hrun₃, hbase, hstack, hmemory, hregs⟩ :=
    reaches_discard (hleft.stack.trans hcalling.stack) s bound
  have hrun₂ : S.world.Reaches bound (emit (.call (t.symbol f).name) s).code m₁ .next m₂ :=
    World.reaches_instr (i := .call (t.symbol f).name) rfl hcalls bound
  rw [← hvs.length_eq] at hrun₃
  have hbase₃ : m₃.base = S.base := by rw [hbase, hleft.base, hcalling.base]
  refine ⟨m₃, (writes_hand _ vs).reaches_bind hrun₁ ((Writes.emit _).reaches_bind hrun₂ hrun₃),
    ⟨⟨hbase₃, fun b hb => ?_, hm.apart, hm.room⟩, hstack, hm.below⟩,
    ⟨hbase₃.trans hm.base.symm, hstack.trans hm.stack.symm, fun v k y _ hk hv => ?_⟩, ?_⟩
  · rw [hmemory, hleft.memory b hb]
  · have hlasts := survives_left hpool hm hc hhand hleft hcall hk hv
    exact ⟨hlasts.holds.transfer hk (Unmoved.refl s v) (Int.le_refl _)
      (fun r _ => congrFun hregs r) fun b _ => congrFun hmemory b, hlasts.firm⟩
  · rw [hregs]
    exact hleft.result

theorem drives_acrossCall {t : SymbolTable} {f : SymbolId} {b n : Nat} (args : List Argument)
    (x : Int) (M' : Memory) (hs : s.Sound) (hconforms : S.Conforms t) (hpool : ∀ r, s.pool r = none)
    (hroom : S.floor ≤ -S.frame - pushedBytes n) :
    Drives S b (acrossCall (t.symbol f) vs) s (fun _ s' => s' = s)
      (fun M m => (args.length = n ∧ S.callees.call f args M = some (x, M')) ∧
        List.Forall₂ (S.Waits s m) vs args)
      fun _ _ M m => M = M' ∧ signed (t.symbol f).ty.result.size (m.regs .rax) = x := by
  have hwrites := writes_acrossCall (t.symbol f) vs
  have hstate := hwrites.state s
  refine ⟨hstate.symm ▸ .refl hs _, hwrites.labels _ _ s, hstate, fun M m hm hc hP => ?_⟩
  obtain ⟨⟨rfl, hcall⟩, hvs⟩ := hP
  rw [hstate] at hc ⊢
  obtain ⟨m', hrun, hm', hsurvives, hx⟩ :=
    reaches_acrossCall hconforms hpool hm hc hroom hvs hcall s.nextLabel
  exact ⟨M', m', hrun, hm', hsurvives.mono fun _ _ => trivial, rfl, hx⟩

/-! ## Arguments that are computed -/

/-- In state `s` the machine holds the argument as a value that lasts. -/
structure Keeps (S : Setting) (s : State) (m : Machine) (v : ValueId) (a : Argument) : Prop where
  known : Before s.nextValue v
  width : Width a.size
  lasts : S.Lasts s m v a.size a.value

/-- After `k` string literals the action, with `c` of its own, computes the numbers that `f` gives,
and all of them last. -/
def Gathers (S : Setting) (a : Lowering (List ValueId)) (k c : Nat)
    (f : StateT Memory Option (List Argument)) : Prop :=
  ∀ s : State, s.Sound → s.texts.length = k → ∀ (args : List Argument) (M' : Memory),
    Drives S s.nextValue a s (fun _ s' => Reached s s' c) (fun M _ => f M = some (args, M'))
      fun vs s' M m => M = M' ∧ List.Forall₂ (Keeps S s' m) vs args

section
variable {k c n w : Nat} {f : StateT Memory Option (List Argument)} {a : Lowering (List ValueId)}

theorem gathers_nil : Gathers S (pure []) k 0 (pure []) := fun s hs _ args M' =>
  Drives.pure hs (.refl hs) fun M m h => by
    cases h
    exact ⟨rfl, .nil⟩

/-- A number that is computed first lasts while the others are. -/
theorem gathers_cons {e : Lowering ValueId} {g : StateT Memory Option Int} {d : Nat}
    (he : Computes S e k w c g) (hw : ∀ M x M', g M = some (x, M') → Width w)
    (ha : Gathers S a (k + c) d f) :
    Gathers S (e >>= fun v => a >>= fun vs => pure (v :: vs)) k (c + d)
      (g >>= fun x => f >>= fun args => pure (⟨w, x⟩ :: args)) := by
  intro s hs hk args M'
  refine (Drives.exists_pre (P := fun (i : Int × Memory × List Argument) M _ =>
    args = ⟨w, i.1⟩ :: i.2.2 ∧ g M = some (i.1, i.2.1) ∧ f i.2.1 = some (i.2.2, M'))
      fun ⟨x, M₁, rest⟩ => ?_).weaken (Nat.le_refl _) (fun _ _ h => h) ?_ fun _ _ _ _ _ h => h
  · refine (he.drives hs hk (Nat.le_refl _) x M₁ fun M m h => h.2.1).bind fun v s₁ hv => ?_
    refine (((ha s₁ hv.sound (by rw [hv.count, hk]) rest M').weaken (Nat.le_refl _)
      (fun _ _ h => h) ?_ fun _ _ _ _ _ h => h).keeping hv.value).bind fun vs s₂ hvs => ?_
    · rintro M m ⟨⟨rfl, -⟩, M₀, m₀, ⟨-, -, hrest⟩, -⟩
      exact hrest
    refine Drives.pure hvs.sound (hv.toReached.trans hvs) ?_
    rintro M m ⟨⟨rfl, hrest⟩, M₂, m₂, ⟨⟨-, hx⟩, M₀, m₀, ⟨rfl, hg, -⟩, -⟩, hsurvives⟩
    have hwidth := hw M₀ x M₁ hg
    refine ⟨rfl, .cons ⟨Nat.lt_of_lt_of_le hv.ready.known hvs.value, hwidth, ?_⟩ hrest⟩
    exact hsurvives.lasts v w x hv.ready.known hwidth.le hx
  · intro M _ hstart
    obtain ⟨x, M₁, hx, hstart⟩ := bind_eq_some hstart
    obtain ⟨rest, M₂, hrest, hstart⟩ := bind_eq_some hstart
    cases hstart
    exact ⟨(x, M₁, rest), rfl, hx, hrest⟩

/-- Arguments that last wait when all registers are saved. -/
theorem drives_gather (hs : s.Sound) (hk : s.texts.length = k) (ha : Gathers S a k c f)
    (args : List Argument) (M' : Memory) :
    Drives S s.nextValue (gather a) s
      (fun _ s' => Reached s s' c ∧ ∀ r, s'.pool r = none) (fun M _ => f M = some (args, M'))
      fun vs s' M m => M = M' ∧ List.Forall₂ (S.Waits s' m) vs args := by
  refine Drives.note_bind _ ((ha s hs hk args M').bind fun vs s₁ h₁ => ?_)
  refine (((Does.drives fun M => does_spillAll h₁.sound _ _).keeping h₁.value).bind fun _ s₂ h₂ =>
    Drives.pure h₂.1.sound ⟨h₁.shifts h₂.1 fun _ _ => trivial, h₂.2⟩ ?_)
  rintro M m ⟨⟨_, ⟨rfl, -⟩, -⟩, M₀, m₀, ⟨-, hargs⟩, hsurvives⟩
  exact ⟨rfl, hargs.imp fun v a hv =>
    ⟨(hsurvives.lasts v _ _ hv.known hv.width.le hv.lasts).holds, hv.width⟩⟩

/-- A call computes what the function does with its arguments. -/
theorem computes_call {t : SymbolTable} {fn : SymbolId} (hconforms : S.Conforms t)
    (ha : Gathers S a k c f) (hlength : ∀ M args M', f M = some (args, M') → args.length = n)
    (hroom : S.floor ≤ -S.frame - pushedBytes n) (hw : Width (t.symbol fn).ty.result.size) :
    Computes S (call (t.symbol fn) (t.symbol fn).ty.result.size a) k
      (t.symbol fn).ty.result.size c (f >>= S.callees.call fn) := by
  intro s hs hk x M'
  rw [call_eq]
  refine (Drives.exists_pre (P := fun (i : List Argument × Memory) M _ =>
    (i.1.length = n ∧ S.callees.call fn i.1 i.2 = some (x, M')) ∧ f M = some (i.1, i.2))
      fun ⟨args, M₁⟩ => ?_).weaken (Nat.le_refl _) (fun _ _ h => h) ?_ fun _ _ _ _ _ h => h
  · refine (drives_gather hs hk ha args M₁).given.bind fun vs s₂ h₂ => ?_
    obtain ⟨hreached, hpool⟩ := h₂
    refine ((drives_acrossCall args x M' hreached.sound hconforms hpool hroom).weaken
      (Nat.le_refl _) (fun _ _ h => h) ?_ fun _ _ _ _ _ h => h).bind fun _ s₃ h₃ => ?_
    · rintro M m ⟨⟨hlen, hcall⟩, rfl, hvs⟩
      exact ⟨⟨hlen, hcall⟩, hvs⟩
    subst h₃
    obtain ⟨size, hsize⟩ : ∃ size, (t.symbol fn).ty.result.size = size := ⟨_, rfl⟩
    rw [hsize] at hw ⊢
    have hresult : Drives S s.nextValue (newValue (.reg .rax) size) s₃
        (fun v s₄ => Yields s s₄ v size c ∧ S.Firm size (s₄.values v).location)
        (fun M m => M = M' ∧ signed size (m.regs .rax) = x)
        fun v s₄ M m => M = M' ∧ ∃ y, some x = some y ∧ S.Holds s₄ m v size y := by
      refine Drives.also (Does.drives fun M => ?_) ((endsInReg_newValue .rax size).firm s₃ size)
      exact (does_result hreached (hpool .rax) hw fun m hm => ⟨x, rfl, hm⟩).given
    refine hresult.weaken (Nat.le_refl _) (fun _ _ h => h.1) (fun _ _ h => h) ?_
    rintro v s₄ M m ⟨-, hfirm⟩ ⟨hM, y, hy, hholds⟩
    cases hy
    exact ⟨hM, hholds, hfirm⟩
  · intro M _ hstart
    obtain ⟨args, M₁, hargs, hcall⟩ := bind_eq_some hstart
    exact ⟨(args, M₁), ⟨hlength M args M₁ hargs, hcall⟩, hargs⟩

end

end

end Lowering

end LittleC
