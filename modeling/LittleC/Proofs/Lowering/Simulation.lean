import LittleC.Proofs.Lowering.Evolution
import LittleC.Proofs.Machine.Run
import LittleC.Proofs.Semantics.Eval

/-! # States of lowering and machines

What it means that a machine holds the values that lowering says it holds, that it agrees with the
memory of the program, and that a run leaves values and memory alone. -/

namespace LittleC

/-- Where a place is that no register points to, from the frame base and what surrounds a
routine. -/
def World.fixed? (w : World) (base : Word) : Mem → Option Word
  | .frame offset => some (base + .ofInt 64 offset)
  | .global name => some (w.globals name)
  | .literal label => some (w.literals label)
  | .indirect _ => none

theorem World.address_of_fixed {w : World} {m : Machine} {p : Mem} {a : Word}
    (h : w.fixed? m.base p = some a) : m.address w p = a := by
  cases p with
  | indirect r => cases h
  | _ => exact Option.some.inj h

/-! ## Notes -/

namespace Lowering.State

variable (s : State) (text : String)

theorem labelsIn_noted (lo hi : Nat) : LabelsIn lo hi (s.noted text) := by
  unfold noted
  split
  · exact labelsIn_note lo hi text
  · exact labelsIn_nil lo hi

/-- The machine passes over a note. -/
theorem reaches_noted (w : World) (n : Nat) (m : Machine) :
    w.Reaches n (s.noted text) m .next m := by
  unfold noted
  split
  · exact World.reaches_note w n text m
  · exact World.reaches_nil w n m

end Lowering.State

/-! ## Scenes -/

/-- The setting of a run: the frame base, and the lowest offset that temporaries may take. -/
structure Scene where
  world : World
  env : Env
  base : Word
  floor : Int

namespace Scene

open Lowering (State)

variable (S : Scene)

/-- In state `s` the machine holds `x` as the value `v` of `n` bytes. -/
def Holds (s : State) (m : Machine) (v : ValueId) (n : Nat) (x : Int) : Prop :=
  (s.values v).size = n ∧
    match (s.values v).location with
    | .imm c => Ty.fitsInt c = true ∧ wrap n c = c ∧ c = x
    | .reg r => s.pool r = some v ∧ signed n (m.regs r) = x
    | .mem p => ∃ a, S.world.fixed? S.base p = some a ∧ Apart S.base S.floor s.lowest a n ∧
        signed n (m.memory.load a n) = x

/-- The machine stands in the frame, and its memory is `M` where the program owns it, which is not
where temporaries will be. -/
structure Agrees (M : Memory) (s : State) (m : Machine) : Prop where
  base : m.base = S.base
  memory : ∀ b, S.env.owned b = true → m.memory b = M b
  apart : ∀ b, S.env.owned b = true → ¬Zone S.base S.floor s.lowest b
  room : s.lowest - S.floor ≤ 2 ^ 64

/-- In state `s` no temporary is too low, and the string literals are where the program has them. -/
structure Fits (s : State) : Prop where
  lowest : S.floor ≤ s.lowest
  texts : ∀ k l string, s.texts[k]? = some (l, string) → S.world.literals l = S.env.text k

/-- Between two machines only temporaries are written, and the values in `K` stay. -/
structure Stays (K : ValueId → Prop) (s : State) (m : Machine) (s' : State) (m' : Machine) :
    Prop where
  base : m'.base = m.base
  stack : m'.stack = m.stack
  memory : ∀ b, ¬Zone S.base s'.lowest s.lowest b → m'.memory b = m.memory b
  holds : ∀ v n x, K v → n ≤ 8 → S.Holds s m v n x → S.Holds s' m' v n x

section
variable {S} {s s' s'' : State} {m m' m'' : Machine} {v : ValueId} {n : Nat} {x : Int}
  {K L : ValueId → Prop} {M : Memory}

theorem Fits.before (h : S.Fits s') (hs : State.Evolves K s s') : S.Fits s := by
  refine ⟨Int.le_trans h.lowest hs.lowest, ?_⟩
  intro k l string hk
  obtain ⟨rest, hrest⟩ := hs.texts
  apply h.texts k l string
  rw [← hrest]
  exact List.getElem?_append_left (List.getElem?_eq_some_iff.mp hk).1 ▸ hk

theorem Stays.mono (h : S.Stays K s m s' m') (hL : ∀ v, L v → K v) : S.Stays L s m s' m' :=
  { h with holds := fun v n x hv => h.holds v n x (hL v hv) }

theorem Stays.refl (s : State) (m : Machine) (K : ValueId → Prop) : S.Stays K s m s m :=
  ⟨rfl, rfl, fun _ _ => rfl, fun _ _ _ _ _ h => h⟩

theorem Stays.trans (h : S.Stays K s m s' m') (h' : S.Stays K s' m' s'' m'')
    (hlow : s'.lowest ≤ s.lowest) (hlow' : s''.lowest ≤ s'.lowest) :
    S.Stays K s m s'' m'' := by
  refine ⟨h'.base.trans h.base, h'.stack.trans h.stack, ?_, ?_⟩
  · intro b hb
    rw [h'.memory b fun hz => hb (hz.mono (Int.le_refl _) hlow),
      h.memory b fun hz => hb (hz.mono hlow' (Int.le_refl _))]
  · exact fun v n x hv hn hx => h'.holds v n x hv hn (h.holds v n x hv hn hx)

theorem Agrees.after (h : S.Agrees M s m) (hs : State.Evolves L s s')
    (hm : S.Stays K s m s' m') (hfloor : S.floor ≤ s'.lowest) : S.Agrees M s' m' := by
  have hlow := hs.lowest
  have hroom := h.room
  refine ⟨hm.base.trans h.base, ?_, ?_, by omega⟩
  · intro b hb
    rw [hm.memory b fun hz => h.apart b hb (hz.mono hfloor (Int.le_refl _)), h.memory b hb]
  · exact fun b hb hz => h.apart b hb (hz.mono (Int.le_refl _) hs.lowest)

/-- A value that is where it was is held still, if its register or its memory is as it was. -/
theorem Holds.transfer (h : S.Holds s m v n x) (hn : n ≤ 8) (hv : State.Unmoved s s' v)
    (hlow : s'.lowest ≤ s.lowest) (hregs : ∀ r, s.pool r = some v → m'.regs r = m.regs r)
    (hmemory : ∀ b, ¬Zone S.base S.floor s.lowest b → m'.memory b = m.memory b) :
    S.Holds s' m' v n x := by
  obtain ⟨hsize, hcontent⟩ := h
  unfold Holds
  rw [hv.1]
  refine ⟨hsize, ?_⟩
  cases hloc : (s.values v).location with
  | imm c =>
      rw [hloc] at hcontent
      exact hcontent
  | reg r =>
      rw [hloc] at hcontent
      obtain ⟨hpool, hx⟩ := hcontent
      refine ⟨(hv.2 r).mpr hpool, ?_⟩
      rw [hregs r hpool]
      exact hx
  | mem p =>
      rw [hloc] at hcontent
      obtain ⟨a, ha, hapart, hx⟩ := hcontent
      refine ⟨a, ha, hapart.mono (Int.le_refl _) hlow, ?_⟩
      rw [Memory.load_congr hn fun b hb => hmemory b (hapart b hb)]
      exact hx

/-- A change of registers leaves the values that none of them holds. -/
theorem stays_of_regs (hbase : m'.base = m.base) (hstack : m'.stack = m.stack)
    (hmemory : m'.memory = m.memory)
    (hregs : ∀ r v, K v → s.pool r = some v → m'.regs r = m.regs r) : S.Stays K s m s m' := by
  refine ⟨hbase, hstack, fun b _ => by rw [hmemory], ?_⟩
  intro v n x hv hn hx
  exact hx.transfer hn (State.Unmoved.refl s v) (Int.le_refl _) (fun r => hregs r v hv)
    fun b _ => by rw [hmemory]

/-- Writing a register leaves the values that it does not hold, whatever becomes of the flags. -/
theorem stays_set {r : Reg} {w : Word} {f : Option Flags}
    (hr : ∀ u, K u → s.pool r ≠ some u) : S.Stays K s m s { m.set r n w with flags := f } := by
  refine stays_of_regs rfl rfl rfl fun q u hu hq => if_neg ?_
  rintro rfl
  exact hr u hu hq

/-- A change of the state alone leaves the values that it does not move. -/
theorem stays_of_state (hlow : s'.lowest = s.lowest)
    (h : ∀ v, K v → State.Unmoved s s' v) (m : Machine) : S.Stays K s m s' m := by
  refine ⟨rfl, rfl, fun _ _ => rfl, ?_⟩
  intro v n x hv hn hx
  exact hx.transfer hn (h v hv) (Int.le_of_eq hlow) (fun _ _ => rfl) fun _ _ => rfl

/-- The register of a held value has its number. -/
theorem Holds.content {r : Reg} (h : S.Holds s m v n x) (hr : (s.values v).location = .reg r) :
    signed n (m.regs r) = x := by
  have hcontent := h.2
  rw [hr] at hcontent
  exact hcontent.2

/-- A held number fits its width. -/
theorem Holds.wrap_eq (h : S.Holds s m v n x) : wrap n x = x := by
  obtain ⟨-, hcontent⟩ := h
  cases hloc : (s.values v).location with
  | imm c =>
      rw [hloc] at hcontent
      obtain ⟨-, hwrap, rfl⟩ := hcontent
      exact hwrap
  | reg r =>
      rw [hloc] at hcontent
      obtain ⟨-, rfl⟩ := hcontent
      exact wrap_signed n _
  | mem p =>
      rw [hloc] at hcontent
      obtain ⟨_, -, -, rfl⟩ := hcontent
      exact wrap_signed n _

/-- The operand of a held value reads as the value. -/
theorem Holds.read (h : S.Holds s m v n x) (hn : n ≤ 8) (hbase : m.base = S.base) :
    signed n (m.read S.world n (s.values v).operand) = x := by
  obtain ⟨hsize, hcontent⟩ := h
  unfold Value.operand
  cases hloc : (s.values v).location with
  | imm c =>
      rw [hloc] at hcontent
      obtain ⟨-, hwrap, rfl⟩ := hcontent
      exact (signed_ofInt hn c).trans hwrap
  | reg r =>
      rw [hloc] at hcontent
      exact hcontent.2
  | mem p =>
      rw [hloc] at hcontent
      obtain ⟨a, ha, -, hx⟩ := hcontent
      rw [← hbase] at ha
      simp only [Machine.read, World.address_of_fixed ha]
      exact hx

/-- The operand of a held value can stand in an instruction. -/
theorem Holds.isSource (h : S.Holds s m v n x) : (s.values v).operand.isSource n = true := by
  obtain ⟨hsize, hcontent⟩ := h
  unfold Value.operand
  cases hloc : (s.values v).location with
  | imm c =>
      rw [hloc] at hcontent
      simp [Operand.isSource, Operand.fits, hcontent.1, hcontent.2.1]
  | reg r => simp [Operand.isSource, Operand.fits, hsize]
  | mem p => simp [Operand.isSource, Operand.fits]

end

end Scene

end LittleC
