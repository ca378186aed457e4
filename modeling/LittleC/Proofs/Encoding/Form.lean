import LittleC.Asm.Text
import LittleC.Ty.Basic

/-! # What an assembler takes

The operands of an instruction with the letters that tell their widths, what they have to be like
for the instruction to be encoded, and the forms in which code is written. -/

namespace LittleC

/-! ## Operands -/

namespace Operand

def isMem : Operand → Bool
  | .mem _ => true
  | _ => false

def isImm : Operand → Bool
  | .imm _ => true
  | _ => false

end Operand

namespace Instr

/-- The operands in the order of writing, each with the letter of the width at which it is
accessed. -/
def accesses : Instr → List (Operand × String)
  | .mov n source target => [(source, widthSuffix n), (target, widthSuffix n)]
  | .movs narrow wide r => [(.reg r narrow, widthSuffix narrow), (.reg r wide, widthSuffix wide)]
  | .movzb r => [(.reg r 1, "b"), (.reg r 4, "l")]
  | .lea source r => [(source, "q"), (.reg r 8, "q")]
  | .alu _ n source r | .cmp n source r => [(source, widthSuffix n), (.reg r n, widthSuffix n)]
  | .neg n r | .idiv n r => [(.reg r n, widthSuffix n)]
  | .set _ r => [(.reg r 1, "b")]
  | .push source => [(source, "q")]
  | .reserve bytes | .discard bytes => [(.imm bytes, "q")]
  | _ => []

/-- The letters of widths in the mnemonic. -/
def suffix : Instr → List String
  | .mov n _ _ | .alu _ n _ _ | .cmp n _ _ | .neg n _ | .idiv n _ => [widthSuffix n]
  | .movs narrow wide _ => [widthSuffix narrow, widthSuffix wide]
  | .movzb _ => ["b", "l"]
  | .lea _ _ | .push _ | .reserve _ | .discard _ => ["q"]
  | .saveFrame | .enterFrame | .leaveFrame | .restoreFrame => ["q"]
  | _ => []

/-- The mnemonic up to these letters. -/
def stem : Instr → String
  | .mov _ _ _ | .enterFrame | .leaveFrame => "mov"
  | .movs _ _ _ => "movs"
  | .movzb _ => "movz"
  | .lea _ _ => "lea"
  | .alu op _ _ _ => op.text
  | .neg _ _ => "neg"
  | .cmp _ _ _ => "cmp"
  | .set c _ => "set" ++ c.conditionText
  | .signExtend wide => if wide then "cqto" else "cltd"
  | .idiv _ _ => "idiv"
  | .jmp _ => "jmp"
  | .jcc c _ => "j" ++ c.conditionText
  | .push _ | .saveFrame => "push"
  | .call _ => "call"
  | .reserve _ => "sub"
  | .discard _ => "add"
  | .restoreFrame => "pop"
  | .ret => "ret"

/-- The registers of the stack that stand behind the operands. -/
def stackRegisters : Instr → List String
  | .reserve _ | .discard _ => ["%rsp"]
  | .saveFrame | .restoreFrame => ["%rbp"]
  | .enterFrame => ["%rsp", "%rbp"]
  | .leaveFrame => ["%rbp", "%rsp"]
  | _ => []

/-- The place that control goes to. -/
def goal? (t : Target) : Instr → Option String
  | .jmp l | .jcc _ l => some (l.text t.labelLead)
  | .call name => some (t.globalLead ++ name)
  | _ => none

/-- What an instruction is applied to, between commas. -/
def listed : List String → String
  | [] => ""
  | first :: others => " " ++ first ++ String.join (others.map (", " ++ ·))

/-- An instruction is its mnemonic and what it is applied to. -/
theorem text_eq (t : Target) (i : Instr) :
    i.text t = i.stem ++ String.join i.suffix ++
      listed (i.accesses.map (·.1.text t) ++ i.stackRegisters ++ (i.goal? t).toList) := by
  cases i with
  | signExtend wide => cases wide <;> rfl
  | _ =>
      simp [text, stem, suffix, accesses, stackRegisters, goal?, listed, ← String.append_assoc,
        String.join, Operand.text]

/-- Each operand has its letter in the suffix. One letter is for all operands, and without letters
they are bytes. -/
theorem letter_of_access (i : Instr) (k : Nat) (p : Operand × String)
    (h : i.accesses[k]? = some p) : p.2 = i.suffix.getD k (i.suffix.headD "b") := by
  match k with
  | 0 | 1 => cases i <;> simp [accesses, suffix] at h ⊢ <;> subst h <;> rfl
  | k + 2 => cases i <;> simp [accesses] at h

/-- Where the result of a move, of arithmetic or of a comparison goes, or what is compared: what is
written last. -/
def destination? : Instr → Option Operand
  | .push _ | .idiv _ _ | .reserve _ | .discard _ => none
  | i => i.accesses.getLast?.map (·.1)

theorem mem_accesses_of_destination {i : Instr} {x : Operand} (h : i.destination? = some x) :
    ∃ p ∈ i.accesses, p.1 = x := by
  unfold destination? at h
  split at h
  case h_5 =>
    obtain ⟨p, hp, rfl⟩ := Option.map_eq_some_iff.mp h
    exact ⟨p, List.mem_of_getLast? hp, rfl⟩
  all_goals cases h

end Instr

/-! ## Widths -/

/-- The bytes that a width letter stands for. -/
def letterBytes? : String → Option Nat
  | "b" => some 1
  | "l" => some 4
  | "q" => some 8
  | _ => none

/-- The general registers of the processor, named for one byte, for four and for all eight. -/
def byteRegisters : List String :=
  ["%al", "%bl", "%cl", "%dl", "%sil", "%dil", "%bpl", "%spl",
    "%r8b", "%r9b", "%r10b", "%r11b", "%r12b", "%r13b", "%r14b", "%r15b"]

def longRegisters : List String :=
  ["%eax", "%ebx", "%ecx", "%edx", "%esi", "%edi", "%ebp", "%esp",
    "%r8d", "%r9d", "%r10d", "%r11d", "%r12d", "%r13d", "%r14d", "%r15d"]

def quadRegisters : List String :=
  ["%rax", "%rbx", "%rcx", "%rdx", "%rsi", "%rdi", "%rbp", "%rsp",
    "%r8", "%r9", "%r10", "%r11", "%r12", "%r13", "%r14", "%r15"]

/-- The bytes that the name of a register stands for. -/
def registerBytes? (name : String) : Option Nat :=
  if name ∈ byteRegisters then some 1
  else if name ∈ longRegisters then some 4
  else if name ∈ quadRegisters then some 8
  else none

theorem registerBytes?_byteName (r : Reg) : registerBytes? r.byteName = some 1 := by
  cases r <;> decide

theorem registerBytes?_longName (r : Reg) : registerBytes? r.longName = some 4 := by
  cases r <;> decide

theorem registerBytes?_quadName (r : Reg) : registerBytes? r.quadName = some 8 := by
  cases r <;> decide

/-- A register that is named for an access has the width of the letter for that access. -/
theorem registerBytes?_name (r : Reg) (n : Nat) :
    ∃ bytes, registerBytes? (r.name n) = some bytes ∧
      letterBytes? (widthSuffix n) = some bytes := by
  unfold Reg.name widthSuffix
  split
  · exact ⟨1, registerBytes?_byteName r, rfl⟩
  · exact ⟨4, registerBytes?_longName r, rfl⟩
  · exact ⟨8, registerBytes?_quadName r, rfl⟩

/-! ## Well-formed instructions -/

theorem Ty.bounds_of_fitsInt {v : Int} (h : fitsInt v = true) :
    -0x80000000 ≤ v ∧ v < 0x80000000 := by
  simpa [fitsInt] using h

/-- How memory is addressed: by a displacement from the frame base, by a name or local label
relative to the program counter, or by a register that holds a whole address. -/
inductive AddressText (t : Target) : String → Prop where
  | frame (offset : Int) : AddressText t (toString offset ++ "(%rbp)")
  | global (name : String) : AddressText t (t.globalLead ++ name ++ "(%rip)")
  | literal (l : Label) : AddressText t (l.text t.labelLead ++ "(%rip)")
  | indirect {name : String} (h : registerBytes? name = some 8) : AddressText t ("(" ++ name ++ ")")

theorem Mem.addressText (t : Target) (place : Mem) : AddressText t (place.text t) := by
  cases place with
  | frame offset => exact .frame offset
  | global name => exact .global name
  | literal l => exact .literal l
  | indirect r => exact .indirect (registerBytes?_quadName r)

/-- The registers of the stack are named for all their bytes. -/
theorem Instr.registerBytes?_stackRegisters (i : Instr) :
    ∀ name ∈ i.stackRegisters, registerBytes? name = some 8 ∧ i.suffix = ["q"] := by
  cases i <;> simp +decide [stackRegisters, suffix]

/-- What an assembler asks of an instruction. -/
structure Instr.Assembles (t : Target) (i : Instr) : Prop where
  /-- It is a mnemonic with the letters of its widths, and behind it all that it is applied to. -/
  text : i.text t = i.stem ++ String.join i.suffix ++
    listed (i.accesses.map (·.1.text t) ++ i.stackRegisters ++ (i.goal? t).toList)
  /-- At most one operand is in memory. -/
  memory : i.accesses.countP (·.1.isMem) ≤ 1
  destination : ∀ x, i.destination? = some x → x.isImm = false
  /-- A constant has 32 bits and a sign, unless it is moved into a whole register. -/
  immediate : ∀ p ∈ i.accesses, ∀ v, p.1 = .imm v →
    p.1.text t = "$" ++ toString v ∧
      ((-0x80000000 ≤ v ∧ v < 0x80000000) ∨ ∃ r, i = .mov 8 (.imm v) (.reg r 8))
  /-- An operand is accessed at the width of its letter in the suffix. -/
  suffix : ∀ k p, i.accesses[k]? = some p → p.2 = i.suffix.getD k (i.suffix.headD "b")
  /-- A register is named at the width of its access. -/
  register : ∀ p ∈ i.accesses, ∀ r n, p.1 = .reg r n →
    ∃ bytes, registerBytes? (p.1.text t) = some bytes ∧ letterBytes? p.2 = some bytes
  stack : ∀ name ∈ i.stackRegisters, registerBytes? name = some 8 ∧ i.suffix = ["q"]
  /-- Only places have addresses. -/
  address : ∀ source r, i = .lea source r → source.isMem = true
  place : ∀ p ∈ i.accesses, p.1.isMem = true → AddressText t (p.1.text t)

/-! ## Forms of instructions -/

/-- An operand that an access of `n` bytes beside a register can read. -/
inductive Operand.Suits (n : Nat) : Operand → Prop where
  | imm {v : Int} (h : Ty.fitsInt v = true) : Suits n (.imm v)
  | mem (place : Mem) : Suits n (.mem place)
  | reg (r : Reg) : Suits n (.reg r n)

/-- The forms in which code is written, where `W` holds of the widths of the accesses. -/
inductive Instr.Form (W : Nat → Prop) : Instr → Prop where
  | load {n : Nat} {x : Operand} (hn : W n) (hx : x.Suits n) (r : Reg) :
      Form W (.mov n x (.reg r n))
  | constant (v : Int) (r : Reg) : Form W (.mov 8 (.imm v) (.reg r 8))
  | store {n : Nat} (hn : W n) (r : Reg) (place : Mem) : Form W (.mov n (.reg r n) (.mem place))
  | movs {narrow wide : Nat} (hnarrow : W narrow) (hwide : W wide) (r : Reg) :
      Form W (.movs narrow wide r)
  | movzb (r : Reg) : Form W (.movzb r)
  | lea (place : Mem) (r : Reg) : Form W (.lea (.mem place) r)
  | alu {n : Nat} {x : Operand} (op : AluOp) (hn : W n) (hx : x.Suits n) (r : Reg) :
      Form W (.alu op n x r)
  | cmp {n : Nat} {x : Operand} (hn : W n) (hx : x.Suits n) (r : Reg) : Form W (.cmp n x r)
  | neg {n : Nat} (hn : W n) (r : Reg) : Form W (.neg n r)
  | idiv {n : Nat} (hn : W n) (r : Reg) : Form W (.idiv n r)
  | set (c : Comparison) (r : Reg) : Form W (.set c r)
  | push {x : Operand} (hx : x.Suits 8) : Form W (.push x)
  | reserve {bytes : Int} (h : 0 ≤ bytes) : Form W (.reserve bytes)
  | discard {bytes : Int} (h : 0 ≤ bytes) : Form W (.discard bytes)
  | bare {i : Instr} (h : i.accesses = []) : Form W i

def Line.Form (W : Nat → Prop) : Line → Prop
  | .instr i => i.Form W
  | _ => True

section
variable {t : Target} {n : Nat} {x : Operand}

theorem Operand.Suits.immediate (hx : x.Suits n) {v : Int} (h : x = .imm v) :
    Ty.fitsInt v = true := by
  subst h
  cases hx with
  | imm h => exact h

theorem Operand.Suits.register (hx : x.Suits n) {r : Reg} {k : Nat} (h : x = .reg r k) : k = n := by
  subst h
  cases hx
  rfl

namespace Instr

variable {i : Instr} {r : Reg}

/-- With registers named as accessed, only constants and places are left to be looked at. -/
theorem assembles_of_accesses (hmemory : i.accesses.countP (·.1.isMem) ≤ 1)
    (hdestination : ∀ x, i.destination? = some x → x.isImm = false)
    (himmediate : ∀ p ∈ i.accesses, ∀ v, p.1 = .imm v →
      Ty.fitsInt v = true ∨ ∃ r, i = .mov 8 (.imm v) (.reg r 8))
    (hregister : ∀ p ∈ i.accesses, ∀ r n, p.1 = .reg r n → p.2 = widthSuffix n)
    (haddress : ∀ source r, i = .lea source r → source.isMem = true) : i.Assembles t := by
  refine ⟨i.text_eq t, hmemory, hdestination, ?_, i.letter_of_access, ?_,
    i.registerBytes?_stackRegisters, haddress, ?_⟩
  · intro p hp v heq
    refine ⟨?_, (himmediate p hp v heq).imp_left Ty.bounds_of_fitsInt⟩
    rw [heq]
    rfl
  · intro p hp r m heq
    rw [hregister p hp r m heq, heq]
    exact registerBytes?_name r m
  · intro p hp hmem
    cases hx : p.1 with
    | mem place => exact place.addressText t
    | imm v => rw [hx] at hmem; cases hmem
    | reg r m => rw [hx] at hmem; cases hmem

/-- An operand and the register that it is moved into, combined with or compared to. -/
theorem assembles_of_source (hx : x.Suits n)
    (haccesses : i.accesses = [(x, widthSuffix n), (.reg r n, widthSuffix n)])
    (hdestination : i.destination? = some (.reg r n))
    (haddress : ∀ source r, i = .lea source r → source.isMem = true) : i.Assembles t := by
  apply assembles_of_accesses
  · rw [haccesses]
    cases hx <;> simp [Operand.isMem]
  · rw [hdestination]
    rintro y ⟨⟩
    rfl
  · rw [haccesses, List.forall_mem_cons, List.forall_mem_singleton]
    exact ⟨fun v heq => Or.inl (hx.immediate heq), nofun⟩
  · rw [haccesses, List.forall_mem_cons, List.forall_mem_singleton]
    refine ⟨?_, ?_⟩
    · intro q m heq
      rw [hx.register heq]
    · rintro q m ⟨⟩
      rfl
  · exact haddress

/-- Registers only, each named as accessed. -/
theorem assembles_of_registers (haccesses : ∀ p ∈ i.accesses, ∃ r n, p = (.reg r n, widthSuffix n))
    (haddress : ∀ source r, i ≠ .lea source r) : i.Assembles t := by
  apply assembles_of_accesses
  · rw [List.countP_eq_zero.mpr]
    · exact Nat.zero_le 1
    · intro p hp
      obtain ⟨r, n, rfl⟩ := haccesses p hp
      exact Bool.false_ne_true
  · intro x hx
    obtain ⟨p, hp, rfl⟩ := mem_accesses_of_destination hx
    obtain ⟨r, n, rfl⟩ := haccesses p hp
    rfl
  · intro p hp v heq
    obtain ⟨r, n, rfl⟩ := haccesses p hp
    cases heq
  · intro p hp r m heq
    obtain ⟨q, n, rfl⟩ := haccesses p hp
    cases heq
    rfl
  · intro source r heq
    exact absurd heq (haddress source r)

/-- A constant that is all there is to see of the instruction. -/
theorem assembles_of_constant {bytes : Int} (h : Ty.fitsInt bytes = true)
    (haccesses : i.accesses = [(.imm bytes, "q")]) (hdestination : i.destination? = none)
    (haddress : ∀ source r, i ≠ .lea source r) : i.Assembles t := by
  apply assembles_of_accesses
  · rw [haccesses]
    exact Nat.zero_le 1
  · rw [hdestination]
    nofun
  · rw [haccesses, List.forall_mem_singleton]
    rintro v ⟨⟩
    exact Or.inl h
  · rw [haccesses, List.forall_mem_singleton]
    nofun
  · intro source r heq
    exact absurd heq (haddress source r)

/-- Instructions of the forms in which code is written are well-formed, as long as they move the
stack pointer by little. -/
theorem Form.assembles {W : Nat → Prop} (h : i.Form W)
    (hstack : ∀ bytes, i = .reserve bytes ∨ i = .discard bytes → Ty.fitsInt bytes = true) :
    i.Assembles t := by
  cases h with
  | load hn hx r => exact assembles_of_source hx rfl rfl nofun
  | alu op hn hx r => exact assembles_of_source hx rfl rfl nofun
  | cmp hn hx r => exact assembles_of_source hx rfl rfl nofun
  | lea place r =>
      refine assembles_of_source (n := 8) (.mem place) rfl rfl ?_
      rintro source q ⟨⟩
      rfl
  | constant v r =>
      apply assembles_of_accesses
      · simp [accesses, Operand.isMem]
      · rintro x ⟨⟩
        rfl
      · rw [accesses, List.forall_mem_cons, List.forall_mem_singleton]
        refine ⟨?_, nofun⟩
        rintro w ⟨⟩
        exact Or.inr ⟨r, rfl⟩
      · rw [accesses, List.forall_mem_cons, List.forall_mem_singleton]
        refine ⟨nofun, ?_⟩
        rintro q m ⟨⟩
        rfl
      · nofun
  | @store n hn r place =>
      apply assembles_of_accesses
      · simp [accesses, Operand.isMem]
      · rintro x ⟨⟩
        rfl
      · rw [accesses, List.forall_mem_cons, List.forall_mem_singleton]
        exact ⟨nofun, nofun⟩
      · rw [accesses, List.forall_mem_cons, List.forall_mem_singleton]
        refine ⟨?_, nofun⟩
        rintro q m ⟨⟩
        rfl
      · nofun
  | @push x hx =>
      apply assembles_of_accesses
      · simp [accesses, List.countP_cons]
        split <;> decide
      · nofun
      · rw [accesses, List.forall_mem_singleton]
        exact fun v heq => Or.inl (hx.immediate heq)
      · rw [accesses, List.forall_mem_singleton]
        intro q m heq
        rw [hx.register heq]
        rfl
      · nofun
  | @movs narrow wide hnarrow hwide r =>
      apply assembles_of_registers
      · rw [accesses, List.forall_mem_cons, List.forall_mem_singleton]
        exact ⟨⟨r, narrow, rfl⟩, r, wide, rfl⟩
      · nofun
  | movzb r =>
      apply assembles_of_registers
      · rw [accesses, List.forall_mem_cons, List.forall_mem_singleton]
        exact ⟨⟨r, 1, rfl⟩, r, 4, rfl⟩
      · nofun
  | @neg n hn r | @idiv n hn r =>
      apply assembles_of_registers
      · rw [accesses, List.forall_mem_singleton]
        exact ⟨r, n, rfl⟩
      · nofun
  | set c r =>
      apply assembles_of_registers
      · rw [accesses, List.forall_mem_singleton]
        exact ⟨r, 1, rfl⟩
      · nofun
  | reserve => exact assembles_of_constant (hstack _ (.inl rfl)) rfl rfl nofun
  | discard => exact assembles_of_constant (hstack _ (.inr rfl)) rfl rfl nofun
  | bare hbare =>
      apply assembles_of_registers
      · rw [hbare]
        nofun
      · rintro source r rfl
        cases hbare

end Instr

end

end LittleC
