/-! # Registers

The seven registers that hold values, their names at each access width, and the order in which they
are handed out. -/

namespace LittleC

inductive Reg where
  | rax
  | rdi
  | rsi
  | rdx
  | rcx
  | r8
  | r9
  deriving DecidableEq, Repr

namespace Reg

/-- Allocation order. -/
def all : List Reg := [.rax, .rdi, .rsi, .rdx, .rcx, .r8, .r9]

/-- The registers of the first six arguments, in order. -/
def args : List Reg := [.rdi, .rsi, .rdx, .rcx, .r8, .r9]

theorem mem_all (r : Reg) : r ∈ all := by cases r <;> decide

def byteName : Reg → String
  | .rax => "%al"
  | .rdi => "%dil"
  | .rsi => "%sil"
  | .rdx => "%dl"
  | .rcx => "%cl"
  | .r8 => "%r8b"
  | .r9 => "%r9b"

def longName : Reg → String
  | .rax => "%eax"
  | .rdi => "%edi"
  | .rsi => "%esi"
  | .rdx => "%edx"
  | .rcx => "%ecx"
  | .r8 => "%r8d"
  | .r9 => "%r9d"

def quadName : Reg → String
  | .rax => "%rax"
  | .rdi => "%rdi"
  | .rsi => "%rsi"
  | .rdx => "%rdx"
  | .rcx => "%rcx"
  | .r8 => "%r8"
  | .r9 => "%r9"

/-- The name for an access of `size` bytes; every size but one and four takes all eight. -/
def name (r : Reg) : Nat → String
  | 1 => r.byteName
  | 4 => r.longName
  | _ => r.quadName

end Reg

/-- The letter that an instruction carries for an access of `size` bytes. -/
def widthSuffix : Nat → String
  | 1 => "b"
  | 4 => "l"
  | _ => "q"

end LittleC
