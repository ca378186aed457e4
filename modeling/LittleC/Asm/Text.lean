import LittleC.Asm.Code
import LittleC.Asm.Target

/-! # Assembly text -/

namespace LittleC

def Label.text (lead : String) (l : Label) : String := lead ++ toString l.number

def Mem.text (t : Target) : Mem → String
  | .frame offset => toString offset ++ "(%rbp)"
  | .global name => t.globalLead ++ name ++ "(%rip)"
  | .literal label => label.text t.labelLead ++ "(%rip)"
  | .indirect pointer => "(" ++ pointer.name 8 ++ ")"

def Operand.text (t : Target) : Operand → String
  | .imm value => "$" ++ toString value
  | .mem place => place.text t
  | .reg r size => r.name size

def AluOp.text : AluOp → String
  | .add => "add"
  | .sub => "sub"
  | .imul => "imul"

/-- The letters that a conditional jump or set carries. -/
def Comparison.conditionText : Comparison → String
  | .eq => "e"
  | .ne => "ne"
  | .lt => "l"
  | .le => "le"
  | .gt => "g"
  | .ge => "ge"

def Instr.text (t : Target) : Instr → String
  | .mov size source target =>
    "mov" ++ widthSuffix size ++ " " ++ source.text t ++ ", " ++ target.text t
  | .movs narrow wide r =>
    "movs" ++ widthSuffix narrow ++ widthSuffix wide ++ " " ++ r.name narrow ++ ", " ++ r.name wide
  | .movzb r => "movzbl " ++ r.name 1 ++ ", " ++ r.name 4
  | .lea source r => "leaq " ++ source.text t ++ ", " ++ r.name 8
  | .alu op size source r =>
    op.text ++ widthSuffix size ++ " " ++ source.text t ++ ", " ++ r.name size
  | .neg size r => "neg" ++ widthSuffix size ++ " " ++ r.name size
  | .cmp size source r => "cmp" ++ widthSuffix size ++ " " ++ source.text t ++ ", " ++ r.name size
  | .set condition r => "set" ++ condition.conditionText ++ " " ++ r.name 1
  | .signExtend wide => if wide then "cqto" else "cltd"
  | .idiv size divisor => "idiv" ++ widthSuffix size ++ " " ++ divisor.name size
  | .jmp target => "jmp " ++ target.text t.labelLead
  | .jcc condition target => "j" ++ condition.conditionText ++ " " ++ target.text t.labelLead
  | .push source => "pushq " ++ source.text t
  | .call name => "call " ++ t.globalLead ++ name
  | .reserve bytes => "subq $" ++ toString bytes ++ ", %rsp"
  | .discard bytes => "addq $" ++ toString bytes ++ ", %rsp"
  | .saveFrame => "pushq %rbp"
  | .enterFrame => "movq %rsp, %rbp"
  | .leaveFrame => "movq %rbp, %rsp"
  | .restoreFrame => "popq %rbp"
  | .ret => "ret"

/-- One line of assembly: a label stands at the margin, all else is indented. -/
def Line.text (t : Target) : Line → String
  | .instr i => "    " ++ i.text t
  | .label l => l.text t.labelLead ++ ":"
  | .note text => "    # " ++ text

end LittleC
