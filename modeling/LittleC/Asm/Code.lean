import LittleC.Asm.Register
import LittleC.Operator

/-! # Code

Instructions, labels and notes as data. Operands carry the width at which a register is named, and
instructions the width of the access. -/

namespace LittleC

/-- A local label, known by its number. -/
structure Label where
  number : Nat
  deriving DecidableEq, Repr

/-- A place in memory. -/
inductive Mem where
  /-- A displacement from the frame base. -/
  | frame (offset : Int)
  /-- A file-level name. -/
  | global (name : String)
  /-- Constant data behind a local label. -/
  | literal (label : Label)
  /-- The place that a register points to. -/
  | indirect (pointer : Reg)
  deriving DecidableEq, Repr

inductive Operand where
  | imm (value : Int)
  | mem (place : Mem)
  | reg (r : Reg) (size : Nat)
  deriving DecidableEq, Repr

/-- Arithmetic that combines a source into a register. -/
inductive AluOp where
  | add
  | sub
  | imul
  deriving DecidableEq, Repr

inductive Instr where
  | mov (size : Nat) (source target : Operand)
  /-- Sign-extends the low `narrow` bytes of a register to `wide` bytes. -/
  | movs (narrow wide : Nat) (r : Reg)
  /-- Zero-extends the low byte of a register to four bytes. -/
  | movzb (r : Reg)
  | lea (source : Operand) (r : Reg)
  | alu (op : AluOp) (size : Nat) (source : Operand) (r : Reg)
  | neg (size : Nat) (r : Reg)
  /-- Sets the flags from the register minus the source. -/
  | cmp (size : Nat) (source : Operand) (r : Reg)
  /-- Writes zero or one into the low byte of a register. -/
  | set (condition : Comparison) (r : Reg)
  /-- Sign-extends `%rax` into `%rdx`, eight bytes when `wide` and four otherwise. -/
  | signExtend (wide : Bool)
  | idiv (size : Nat) (divisor : Reg)
  | jmp (target : Label)
  | jcc (condition : Comparison) (target : Label)
  | push (source : Operand)
  | call (name : String)
  /-- Lowers the stack pointer. -/
  | reserve (bytes : Int)
  /-- Raises the stack pointer. -/
  | discard (bytes : Int)
  /-- Saves the caller's frame base on the stack. -/
  | saveFrame
  /-- Makes the stack pointer the frame base. -/
  | enterFrame
  /-- Makes the frame base the stack pointer. -/
  | leaveFrame
  /-- Takes the caller's frame base off the stack. -/
  | restoreFrame
  | ret
  deriving DecidableEq, Repr

inductive Line where
  | instr (i : Instr)
  | label (l : Label)
  | note (text : String)
  deriving DecidableEq, Repr

end LittleC
