import LittleC.Frame
import LittleC.Lowering.State

/-! # Lowering of single operators

Each takes the actions that lower its operands and the size of its result. -/

namespace LittleC.Lowering

/-- A constant is an immediate operand if an instruction can hold it; only a move can hold more. -/
def number (value : Int) (size : Nat) : Lowering ValueId := do
  if Ty.fitsInt value then newValue (.imm value) size
  else
    let r ← takeReg []
    emit (.mov 8 (.imm value) (.reg r 8))
    newValue (.reg r) size

/-! ## One operand -/

def negate (size : Nat) (operand : Lowering ValueId) : Lowering ValueId := do
  note "negate"
  let v ← operand
  let r ← inRegister v []
  emit (.neg size r)
  rebind v r size

/-- Writes a condition as zero or one into a register. -/
def materialize (condition : Comparison) (r : Reg) : Lowering Unit := do
  emit (.set condition r)
  emit (.movzb r)

def logicalNot (size : Nat) (operand : Lowering ValueId) : Lowering ValueId := do
  note "not"
  let v ← operand
  let width ← sizeOf v
  let r ← inRegister v []
  emit (.cmp width (.imm 0) r)
  materialize .eq r
  rebind v r size

def deref (size : Nat) (pointer : Lowering ValueId) : Lowering ValueId := do
  note "dereference"
  let v ← pointer
  let r ← inRegister v []
  emit (.mov size (.mem (.indirect r)) (.reg r size))
  rebind v r size

/-- The address of what a pointer points to is the pointer. -/
def addressOfTarget (pointer : Lowering ValueId) : Lowering ValueId := do
  note "address"
  let v ← pointer
  let r ← inRegister v []
  rebind v r pointerSize

def addressOfPlace (place : Lowering ValueId) : Lowering ValueId := do
  note "address"
  let v ← place
  let source ← operand v
  let r ← takeReg []
  emit (.lea source r)
  newValue (.reg r) pointerSize

/-- A conversion between sizes; one that keeps the size writes nothing. -/
def cast (size : Nat) (operand : Lowering ValueId) : Lowering ValueId := do
  let v ← operand
  let source ← sizeOf v
  if source = size then pure v
  else
    note "cast"
    let r ← inRegister v []
    if source < size then emit (.movs source size r)
    else emit (.mov size (.reg r size) (.reg r size))
    rebind v r size

/-! ## Two operands -/

def arithmetic (op : AluOp) (title : String) (size : Nat) (left right : Lowering ValueId) :
    Lowering ValueId := do
  note title
  let l ← left
  let r ← right
  let target ← inRegister l []
  let source ← operand r
  emit (.alu op size source target)
  unbind r
  rebind l target size

/-- The dividend goes to `%rax` and `%rdx`, the divisor to `%rcx`; the quotient comes back in `%rax`
and the remainder in `%rdx`. -/
def divide (title : String) (result : Reg) (size : Nat) (left right : Lowering ValueId) :
    Lowering ValueId := do
  note title
  let l ← left
  let r ← right
  load l .rax
  evict .rdx
  load r .rcx
  emit (.signExtend (size == 8))
  emit (.idiv size .rcx)
  unbind r
  unbind l
  newValue (.reg result) size

/-- Compares two operands and gives the register of the left one, which is free again, and the right
value. -/
def comparison (left right : Lowering ValueId) : Lowering (Reg × ValueId) := do
  let l ← left
  let r ← right
  let width ← sizeOf l
  let target ← inRegister l []
  let source ← operand r
  emit (.cmp width source target)
  unbind l
  pure (target, r)

def compare (c : Comparison) (size : Nat) (left right : Lowering ValueId) : Lowering ValueId := do
  note c.symbol
  let sides ← comparison left right
  materialize c sides.1
  unbind sides.2
  newValue (.reg sides.1) size

/-- Compares a value with zero and uses it up. -/
def compareZero (v : ValueId) : Lowering Unit := do
  let width ← sizeOf v
  let r ← inRegister v []
  emit (.cmp width (.imm 0) r)
  unbind v

/-- The right operand is skipped when the left one decides, which `skip` tells from its comparison
with zero. Registers are saved before the paths part. -/
def logical (title : String) (skip : Comparison) (size : Nat) (left right : Lowering ValueId) :
    Lowering ValueId := do
  note title
  spillAll
  let merge ← newLabel
  let l ← left
  compareZero l
  emit (.jcc skip merge)
  let r ← right
  compareZero r
  mark merge
  let target ← takeReg []
  materialize .ne target
  newValue (.reg target) size

/-! ## Calls -/

/-- Hands over the argument at `index`: in its register, or pushed. A pushed argument goes through
`%rax` unless it is a constant or a whole word. -/
def passArg (index : Nat) (v : ValueId) : Lowering Unit := do
  let value ← valueOf v
  match Reg.args[index]? with
  | some r => emit (.mov value.size value.operand (.reg r value.size))
  | none =>
    if value.isImm || value.size == wordSize then emit (.push value.operand)
    else
      emit (.mov value.size value.operand (.reg .rax value.size))
      emit (.push (.reg .rax wordSize))

/-- Hands over arguments from the last to the first; `index` is the place of the first. -/
def passArgs (index : Nat) : List ValueId → Lowering Unit
  | [] => pure ()
  | v :: vs => do
    passArgs (index + 1) vs
    passArg index v

/-- The bytes that keep the stack aligned under `n` pushed arguments. -/
def callPadding (n : Nat) : Nat := if n % 2 = 1 then wordSize else 0

/-- Arguments are lowered first, then all registers are saved, as the called function may use them.
A function without listed parameters is told in `%eax` that no vector registers are in use. -/
def call (callee : Symbol) (size : Nat) (args : Lowering (List ValueId)) : Lowering ValueId := do
  note "call"
  let values ← args
  spillAll
  let onStack := values.length - registerArgs
  let padding := callPadding onStack
  if 0 < padding then emit (.reserve padding)
  passArgs 0 values
  if callee.ty.params?.isNone then emit (.mov 4 (.imm 0) (.reg .rax 4))
  emit (.call callee.name)
  let pushed := padding + wordSize * onStack
  if 0 < pushed then emit (.discard pushed)
  newValue (.reg .rax) size

end LittleC.Lowering
