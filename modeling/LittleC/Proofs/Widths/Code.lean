import LittleC.Proofs.Encoding.Form
import LittleC.Proofs.Machine.Word

/-! # Access widths in code

The widths that a line is written with, and what its text owes to them. -/

namespace LittleC

/-! ## Widths of a line -/

/-- A place behind a pointer is written with the full name of the register. -/
def Mem.widths : Mem → List Nat
  | .indirect _ => [8]
  | _ => []

def Operand.widths : Operand → List Nat
  | .mem place => place.widths
  | .reg _ size => [size]
  | .imm _ => []

/-- The widths that an instruction is written with: those of its suffixes and of the registers that
it names. -/
def Instr.widths : Instr → List Nat
  | .mov size source target => size :: (source.widths ++ target.widths)
  | .movs narrow wide _ => [narrow, wide]
  | .movzb _ => [1, 4]
  | .lea source _ => 8 :: source.widths
  | .alu _ size source _ | .cmp size source _ => size :: source.widths
  | .neg size _ | .idiv size _ => [size]
  | .set _ _ => [1]
  | .push source => source.widths
  | _ => []

def Line.widths : Line → List Nat
  | .instr i => i.widths
  | _ => []

/-! ## Spellings

How widths are written, as a parameter of the text. -/

structure Spelling where
  suffix : Nat → String
  register : Reg → Nat → String

namespace Spelling

def standard : Spelling := ⟨widthSuffix, Reg.name⟩

/-- Written as in the standard spelling. -/
def Agrees (p : Spelling) (n : Nat) : Prop :=
  p.suffix n = standard.suffix n ∧ ∀ r, p.register r n = standard.register r n

end Spelling

section
variable (p : Spelling) (t : Target)

def Mem.spell : Mem → String
  | .indirect pointer => "(" ++ p.register pointer 8 ++ ")"
  | place => place.text t

def Operand.spell : Operand → String
  | .imm value => "$" ++ toString value
  | .mem place => place.spell p t
  | .reg r size => p.register r size

def Instr.spell : Instr → String
  | .mov size source target =>
    "mov" ++ p.suffix size ++ " " ++ source.spell p t ++ ", " ++ target.spell p t
  | .movs narrow wide r =>
    "movs" ++ p.suffix narrow ++ p.suffix wide ++ " " ++ p.register r narrow ++ ", " ++
      p.register r wide
  | .movzb r => "movzbl " ++ p.register r 1 ++ ", " ++ p.register r 4
  | .lea source r => "leaq " ++ source.spell p t ++ ", " ++ p.register r 8
  | .alu op size source r =>
    op.text ++ p.suffix size ++ " " ++ source.spell p t ++ ", " ++ p.register r size
  | .neg size r => "neg" ++ p.suffix size ++ " " ++ p.register r size
  | .cmp size source r =>
    "cmp" ++ p.suffix size ++ " " ++ source.spell p t ++ ", " ++ p.register r size
  | .set condition r => "set" ++ condition.conditionText ++ " " ++ p.register r 1
  | .idiv size divisor => "idiv" ++ p.suffix size ++ " " ++ p.register divisor size
  | .push source => "pushq " ++ source.spell p t
  | i => i.text t

def Line.spell : Line → String
  | .instr i => "    " ++ i.spell p t
  | l => l.text t

end

section
variable {p : Spelling} {t : Target}

theorem Operand.spell_eq {x : Operand} (h : ∀ n ∈ x.widths, p.Agrees n) :
    x.spell p t = x.text t := by
  cases x with
  | imm => rfl
  | reg r size => exact (h size List.mem_cons_self).2 r
  | mem place =>
      cases place with
      | indirect pointer =>
          have hname : p.register pointer 8 = pointer.name 8 := (h 8 List.mem_cons_self).2 pointer
          simp only [spell, Mem.spell, text, Mem.text, hname]
      | _ => rfl

theorem Instr.spell_eq {i : Instr} (h : ∀ n ∈ i.widths, p.Agrees n) : i.spell p t = i.text t := by
  have hsuffix {n : Nat} (hn : n ∈ i.widths) : p.suffix n = widthSuffix n := (h n hn).1
  have hname {n : Nat} (hn : n ∈ i.widths) (r : Reg) : p.register r n = r.name n := (h n hn).2 r
  have hoperand {x : Operand} (hx : ∀ n ∈ x.widths, n ∈ i.widths) : x.spell p t = x.text t :=
    Operand.spell_eq fun n hn => h n (hx n hn)
  cases i with
  | mov size source target =>
      rw [spell, text, hsuffix (by simp [widths]), hoperand (by simp +contextual [widths]),
        hoperand (by simp +contextual [widths])]
  | movs narrow wide r =>
      rw [spell, text, hsuffix (by simp [widths]), hsuffix (by simp [widths]),
        hname (by simp [widths]), hname (by simp [widths])]
  | movzb r => rw [spell, text, hname (by simp [widths]), hname (by simp [widths])]
  | lea source r =>
      rw [spell, text, hoperand (by simp +contextual [widths]), hname (by simp [widths])]
  | alu op size source r =>
      rw [spell, text, hsuffix (by simp [widths]), hoperand (by simp +contextual [widths]),
        hname (by simp [widths])]
  | neg size r | idiv size r =>
      rw [spell, text, hsuffix (by simp [widths]), hname (by simp [widths])]
  | cmp size source r =>
      rw [spell, text, hsuffix (by simp [widths]), hoperand (by simp +contextual [widths]),
        hname (by simp [widths])]
  | set condition r => rw [spell, text, hname (by simp [widths])]
  | push source => rw [spell, text, hoperand (by simp [widths])]
  | _ => rfl

/-- Of a spelling only the widths of the line show in its text. -/
theorem Line.spell_eq {l : Line} (h : ∀ n ∈ l.widths, p.Agrees n) : l.spell p t = l.text t := by
  cases l with
  | instr i => exact congrArg ("    " ++ ·) (Instr.spell_eq h)
  | _ => rfl

end

/-! ## Code with widths of the machine -/

def Line.Fits (l : Line) : Prop := ∀ n ∈ l.widths, Width n

theorem Mem.width_of_mem {place : Mem} {n : Nat} (hn : n ∈ place.widths) : Width n := by
  cases place with
  | indirect pointer => exact .inr (.inr (List.mem_singleton.mp hn))
  | frame | global | literal => cases hn

theorem Operand.Suits.width {n : Nat} {x : Operand} (hx : x.Suits n) (hn : Width n) :
    ∀ k ∈ x.widths, Width k := by
  cases hx with
  | imm => exact nofun
  | mem place => exact fun k hk => place.width_of_mem hk
  | reg r => exact List.forall_mem_singleton.mpr hn

theorem Instr.widths_eq_nil {i : Instr} (h : i.accesses = []) : i.widths = [] := by
  cases i <;> first | rfl | cases h

/-- In the forms of written code only the sizes of the accesses are left open. -/
theorem Instr.Form.width {i : Instr} (h : i.Form Width) : ∀ n ∈ i.widths, Width n := by
  have height : Width 8 := .inr (.inr rfl)
  cases h with
  | load hn hx r =>
      exact List.forall_mem_cons.mpr ⟨hn, List.forall_mem_append.mpr
        ⟨hx.width hn, List.forall_mem_singleton.mpr hn⟩⟩
  | constant v r => exact List.forall_mem_cons.mpr ⟨height, List.forall_mem_singleton.mpr height⟩
  | store hn r place =>
      exact List.forall_mem_cons.mpr ⟨hn, List.forall_mem_cons.mpr
        ⟨hn, fun k hk => place.width_of_mem hk⟩⟩
  | movs hnarrow hwide r =>
      exact List.forall_mem_cons.mpr ⟨hnarrow, List.forall_mem_singleton.mpr hwide⟩
  | movzb r =>
      exact List.forall_mem_cons.mpr ⟨.inl rfl, List.forall_mem_singleton.mpr (.inr (.inl rfl))⟩
  | lea place r => exact List.forall_mem_cons.mpr ⟨height, fun k hk => place.width_of_mem hk⟩
  | alu op hn hx r => exact List.forall_mem_cons.mpr ⟨hn, hx.width hn⟩
  | cmp hn hx r => exact List.forall_mem_cons.mpr ⟨hn, hx.width hn⟩
  | neg hn r => exact List.forall_mem_singleton.mpr hn
  | idiv hn r => exact List.forall_mem_singleton.mpr hn
  | set c r => exact List.forall_mem_singleton.mpr (.inl rfl)
  | push hx => exact hx.width height
  | reserve | discard => exact nofun
  | bare hbare =>
      rw [widths_eq_nil hbare]
      exact nofun

theorem Line.Form.fits {l : Line} (h : l.Form Width) : l.Fits := by
  cases l with
  | instr i => exact Instr.Form.width h
  | label | note => exact nofun

end LittleC
