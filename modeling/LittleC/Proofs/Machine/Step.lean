import LittleC.Asm.Code
import LittleC.Proofs.Machine.Memory

/-! # The machine

The part of an x86-64 machine that written code uses. An instruction that an assembler would refuse
does not run, nor does a division that traps or a jump on flags that no comparison has set. Only the
displacements of a frame are taken at any distance from its base. -/

namespace LittleC

/-- The flags that a comparison sets. -/
structure Flags where
  zero : Bool
  sign : Bool
  overflow : Bool
  deriving DecidableEq, Repr

structure Machine where
  regs : Reg → Word
  /-- The frame base, `%rbp`. -/
  base : Word
  /-- The stack pointer, `%rsp`. -/
  stack : Word
  memory : Memory
  /-- The flags, as long as it is known what they say. -/
  flags : Option Flags

/-- What surrounds a routine: where names and literals are, and what other routines do. -/
structure World where
  globals : String → Word
  literals : Label → Word
  calls : String → Machine → Option Machine

namespace Flags

/-- The flags of `x - y` in `n` bytes. -/
def ofCompare (n : Nat) (x y : Int) : Flags :=
  let difference := wrap n (x - y)
  ⟨difference == 0, difference < 0, difference != x - y⟩

end Flags

namespace Comparison

/-- The comparison of two numbers. -/
def eval (c : Comparison) (x y : Int) : Bool :=
  match c with
  | .eq => x = y
  | .ne => x ≠ y
  | .lt => x < y
  | .le => x ≤ y
  | .gt => y < x
  | .ge => y ≤ x

/-- How the machine reads the condition off the flags. -/
def holds (c : Comparison) (f : Flags) : Bool :=
  match c with
  | .eq => f.zero
  | .ne => !f.zero
  | .lt => f.sign != f.overflow
  | .le => f.zero || f.sign != f.overflow
  | .gt => !f.zero && f.sign == f.overflow
  | .ge => f.sign == f.overflow

theorem eval_negate (c : Comparison) (x y : Int) : c.negate.eval x y = !c.eval x y := by
  cases c <;> simp only [negate, eval, ← decide_not] <;> congr 1 <;> apply propext <;> omega

/-- The flags tell the signed comparison of numbers of the width. -/
theorem holds_ofCompare {n : Nat} (hn : Width n) {x y : Int} (hx : wrap n x = x)
    (hy : wrap n y = y) (c : Comparison) : c.holds (.ofCompare n x y) = c.eval x y := by
  have hxlo := lt_wrap hn x
  have hxhi := wrap_lt hn x
  have hylo := lt_wrap hn y
  have hyhi := wrap_lt hn y
  rw [hx] at hxlo hxhi
  rw [hy] at hylo hyhi
  -- The difference is right or off by the range of the width.
  have hdiff : wrap n (x - y) = x - y ∨ wrap n (x - y) = x - y - 2 ^ (8 * n) ∧ 0 < x - y ∨
      wrap n (x - y) = x - y + 2 ^ (8 * n) ∧ x - y < 0 := by
    rcases hn with rfl | rfl | rfl <;> simp only [wrap, Int.bmod] <;> omega
  have hlo := lt_wrap hn (x - y)
  have hhi := wrap_lt hn (x - y)
  -- Equality is the zero flag; less is a sign that differs from the overflow.
  have hzero : (wrap n (x - y) == 0) = decide (x = y) := by
    rw [Bool.eq_iff_iff, beq_iff_eq, decide_eq_true_eq]
    omega
  have hless : (decide (wrap n (x - y) < 0) != (wrap n (x - y) != x - y)) = decide (x < y) := by
    rw [Bool.eq_iff_iff, bne_iff_ne, ne_eq, Bool.eq_iff_iff, decide_eq_true_eq, bne_iff_ne,
      decide_eq_true_eq]
    omega
  have hnotless : (decide (wrap n (x - y) < 0) == (wrap n (x - y) != x - y)) = !decide (x < y) := by
    rw [← hless]
    exact (Bool.not_not _).symm
  cases c with
  | eq => exact hzero
  | ne => simp only [holds, Flags.ofCompare, eval, hzero, decide_not]
  | lt => exact hless
  | le =>
      simp only [holds, Flags.ofCompare, eval, hzero, hless]
      rw [Bool.eq_iff_iff, Bool.or_eq_true, decide_eq_true_eq, decide_eq_true_eq,
        decide_eq_true_eq]
      omega
  | gt =>
      simp only [holds, Flags.ofCompare, eval, hzero, hnotless]
      rw [Bool.eq_iff_iff, Bool.and_eq_true, Bool.not_eq_true', Bool.not_eq_true',
        decide_eq_false_iff_not, decide_eq_false_iff_not, decide_eq_true_eq]
      omega
  | ge =>
      simp only [holds, Flags.ofCompare, eval, hnotless]
      rw [Bool.eq_iff_iff, Bool.not_eq_true', decide_eq_false_iff_not, decide_eq_true_eq]
      omega

end Comparison

namespace AluOp

def eval (op : AluOp) (x y : Int) : Int :=
  match op with
  | .add => x + y
  | .sub => x - y
  | .imul => x * y

end AluOp

/-! ## Instructions that an assembler takes -/

/-- The operand can be named at a width of `n` bytes. -/
def Operand.fits (n : Nat) : Operand → Bool
  | .imm v => wrap n v == v
  | .mem _ => true
  | .reg _ size => size == n

/-- A source of arithmetic: constants are held in four bytes at most. -/
def Operand.isSource (n : Nat) (o : Operand) : Bool :=
  o.fits n &&
    match o with
    | .imm v => Ty.fitsInt v
    | _ => true

namespace Instr

/-- At most one operand in memory, and a target that is not a constant. -/
def movable : Operand → Operand → Bool
  | _, .imm _ => false
  | .mem _, .mem _ => false
  | .imm v, .mem _ => Ty.fitsInt v
  | _, _ => true

def encodable : Instr → Bool
  | .mov n source target =>
    Width n && source.fits n && target.fits n && movable source target
  | .movs narrow wide _ => Width narrow && Width wide && narrow < wide
  | .lea source _ =>
    match source with
    | .mem _ => true
    | _ => false
  | .alu op n source _ => Width n && source.isSource n && (op != .imul || n != 1)
  | .neg n _ => Width n
  | .cmp n source _ => Width n && source.isSource n
  | .idiv n _ => n == 4 || n == 8
  | .push source => source.isSource 8
  | _ => true

/-- Any source can be moved into a register of its width. -/
theorem encodable_load {n : Nat} {o : Operand} (hn : Width n) (ho : o.isSource n = true) (r : Reg) :
    (Instr.mov n o (.reg r n)).encodable = true := by
  have hfits := (Bool.and_eq_true_iff.mp ho).1
  cases o <;> simp [encodable, movable, Operand.fits, hn] at hfits ⊢ <;> exact hfits

end Instr

/-! ## Execution -/

namespace Machine

def set (m : Machine) (r : Reg) (n : Nat) (w : Word) : Machine :=
  { m with regs := fun q => if q = r then merge n (m.regs r) w else m.regs q }

@[simp] theorem regs_set_self (m : Machine) (r : Reg) (n : Nat) (w : Word) :
    (m.set r n w).regs r = merge n (m.regs r) w := if_pos rfl

theorem regs_set_of_ne (m : Machine) {r q : Reg} (h : q ≠ r) (n : Nat) (w : Word) :
    (m.set r n w).regs q = m.regs q := if_neg h

def address (w : World) (m : Machine) : Mem → Word
  | .frame offset => m.base + .ofInt 64 offset
  | .global name => w.globals name
  | .literal label => w.literals label
  | .indirect r => m.regs r

/-- The operand read at a width of `n` bytes. -/
def read (w : World) (m : Machine) (n : Nat) : Operand → Word
  | .imm v => .ofInt 64 v
  | .mem p => m.memory.load (m.address w p) n
  | .reg r _ => m.regs r

def write (w : World) (m : Machine) (n : Nat) (v : Word) : Operand → Machine
  | .imm _ => m
  | .mem p => { m with memory := m.memory.store (m.address w p) n v }
  | .reg r _ => m.set r n v

@[simp] theorem write_reg (w : World) (m : Machine) (n k : Nat) (v : Word) (r : Reg) :
    m.write w n v (.reg r k) = m.set r n v := rfl

def push (m : Machine) (v : Word) : Machine :=
  { m with stack := m.stack - 8, memory := m.memory.store (m.stack - 8) 8 v }

/-- The quotient goes to `%rax` and the remainder to `%rdx`. -/
def divide (m : Machine) (n : Nat) (divisor : Reg) : Option Machine :=
  let d := signed n (m.regs divisor)
  let dividend := signed n (m.regs .rdx) * 2 ^ (8 * n) + unsigned n (m.regs .rax)
  if d ≠ 0 ∧ wrap n (dividend.tdiv d) = dividend.tdiv d then
    some { (m.set .rax n (.ofInt 64 (dividend.tdiv d))).set .rdx n
        (.ofInt 64 (dividend.tmod d)) with
      flags := none }
  else none

/-- What an instruction does that does not jump. -/
def exec (w : World) (i : Instr) (m : Machine) : Option Machine :=
  match i with
  | .mov n source target => some (m.write w n (m.read w n source) target)
  | .movs narrow wide r => some (m.set r wide (.ofInt 64 (signed narrow (m.regs r))))
  | .movzb r => some (m.set r 4 (.ofNat 64 (unsigned 1 (m.regs r))))
  | .lea (.mem p) r => some (m.set r 8 (m.address w p))
  | .alu op n source r =>
    let v := op.eval (signed n (m.regs r)) (signed n (m.read w n source))
    some { m.set r n (.ofInt 64 v) with flags := none }
  | .neg n r => some { m.set r n (.ofInt 64 (-signed n (m.regs r))) with flags := none }
  | .cmp n source r =>
    some { m with
      flags := some (.ofCompare n (signed n (m.regs r)) (signed n (m.read w n source))) }
  | .set c r => m.flags.map fun f => m.set r 1 (if c.holds f then 1 else 0)
  | .signExtend wide =>
    let n := if wide then 8 else 4
    some (m.set .rdx n (.ofInt 64 (if signed n (m.regs .rax) < 0 then -1 else 0)))
  | .idiv n divisor => m.divide n divisor
  | .push source => some (m.push (m.read w 8 source))
  | .call name => w.calls name m
  | .reserve n => some { m with stack := m.stack - .ofInt 64 n, flags := none }
  | .discard n => some { m with stack := m.stack + .ofInt 64 n, flags := none }
  | .saveFrame => some (m.push m.base)
  | .enterFrame => some { m with base := m.stack }
  | .leaveFrame => some { m with stack := m.base }
  | .restoreFrame =>
    some { m with base := m.memory.load m.stack 8, stack := m.stack + 8 }
  | .lea _ _ | .jmp _ | .jcc _ _ | .ret => none

end Machine

/-- The line that a label stands on. -/
def Label.line? (l : Label) (code : List Line) : Option Nat := code.idxOf? (.label l)

namespace World

/-- One step of code from line `i` on; there is none from a return. -/
def step (w : World) (code : List Line) (i : Nat) (m : Machine) : Option (Nat × Machine) :=
  match code[i]? with
  | some (.instr (.jmp l)) => (l.line? code).map (·, m)
  | some (.instr (.jcc c l)) =>
    m.flags.bind fun f => if c.holds f then (l.line? code).map (·, m) else some (i + 1, m)
  | some (.instr instr) => if instr.encodable then (m.exec w instr).map (i + 1, ·) else none
  | some (.label _) | some (.note _) => some (i + 1, m)
  | none => none

end World

end LittleC
