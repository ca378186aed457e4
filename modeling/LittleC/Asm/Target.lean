/-! # Targets

What the written assembly depends on: the text in front of file-level names and local labels. It
follows from the triple that a program is written for. -/

namespace LittleC

/-- The processor that a triple names. Only x86-64 is told from the others. -/
inductive Architecture where
  | x86_64
  | other (name : String)
  deriving DecidableEq, Repr

/-- The object format that goes with a triple. Only Mach-O is told from the others. -/
inductive BinaryFormat where
  | machO
  | other (name : String)
  deriving DecidableEq, Repr

/-- A triple that has been read, with the text that it is shown as. -/
structure Triple where
  architecture : Architecture
  format : BinaryFormat
  text : String
  deriving DecidableEq, Repr

/-- The triple of a common system. -/
def Triple.linux : Triple := ⟨.x86_64, .other "elf", "x86_64-unknown-linux-gnu"⟩

structure Target where
  globalLead : String
  labelLead : String
  deriving DecidableEq, Repr

namespace Target

def elf : Target := ⟨"", ".L"⟩

def machO : Target := ⟨"_", "L"⟩

/-- Only x86-64 has a target. Mach-O has names of its own, and all other formats have those of
ELF. -/
def ofTriple? (t : Triple) : Option Target :=
  if t.architecture = .x86_64 then some (if t.format = .machO then machO else elf) else none

end Target

end LittleC
