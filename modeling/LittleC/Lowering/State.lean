import LittleC.Asm.Code
import LittleC.Ty.Basic

/-! # Lowering: values and the state that tracks them

Code is written while a state is kept that says where each computed value is, which value each
register holds, how far the frame reaches down, and which labels and texts are taken. -/

namespace LittleC

/-- A value computed within the current function. -/
structure ValueId where
  index : Nat
  deriving DecidableEq, Repr

inductive Location where
  | imm (value : Int)
  | mem (place : Mem)
  | reg (r : Reg)
  deriving DecidableEq, Repr

/-- Where a value is and how many bytes of it count. -/
structure Value where
  location : Location
  size : Nat
  deriving DecidableEq, Repr

namespace Value

/-- The value as an operand; a register is named at the size of the value. -/
def operand (v : Value) : Operand :=
  match v.location with
  | .imm value => .imm value
  | .mem place => .mem place
  | .reg r => .reg r v.size

def reg? (v : Value) : Option Reg :=
  match v.location with
  | .reg r => some r
  | _ => none

def isImm (v : Value) : Bool :=
  match v.location with
  | .imm _ => true
  | _ => false

end Value

namespace Lowering

structure State where
  values : ValueId → Value
  nextValue : Nat
  /-- The value that each register holds. -/
  pool : Reg → Option ValueId
  /-- The lowest frame offset in use. -/
  lowest : Int
  nextLabel : Nat
  /-- The string literals met so far, each with the label it will stand under. -/
  texts : List (Label × String)
  /-- Whether notes are written. -/
  notes : Bool

namespace State

/-- Before any function is lowered. -/
def start (notes : Bool) : State where
  values := fun _ => ⟨.imm 0, 0⟩
  nextValue := 0
  pool := fun _ => none
  lowest := 0
  nextLabel := 0
  texts := []
  notes := notes

/-- Before the body of a function whose locals reach down to `lowest`. -/
def enter (s : State) (lowest : Int) : State :=
  { s with values := fun _ => ⟨.imm 0, 0⟩, nextValue := 0, pool := fun _ => none, lowest := lowest }

/-- The state in which register `r` holds `v`. -/
def hold (s : State) (r : Reg) (v : Option ValueId) : State :=
  { s with pool := fun r' => if r' = r then v else s.pool r' }

def setLocation (s : State) (v : ValueId) (l : Location) : State :=
  { s with values := fun v' => if v' = v then ⟨l, (s.values v).size⟩ else s.values v' }

/-- A register that holds `v` gives it up. -/
def unbind (s : State) (v : ValueId) : State :=
  match (s.values v).reg? with
  | some r => if s.pool r = some v then s.hold r none else s
  | none => s

/-- Value `v` moves into register `r`. -/
def assign (s : State) (v : ValueId) (r : Reg) : State :=
  ((s.unbind v).hold r (some v)).setLocation v (.reg r)

/-- Adds a value; one in a register is what the register holds from then on. -/
def addValue (s : State) (v : Value) : State :=
  let id : ValueId := ⟨s.nextValue⟩
  let added : State :=
    { s with
      values := fun v' => if v' = id then v else s.values v'
      nextValue := s.nextValue + 1 }
  match v.reg? with
  | some r => added.hold r (some id)
  | none => added

/-- The first register in allocation order that holds nothing. -/
def freeReg? (s : State) (exclude : List Reg) : Option Reg :=
  Reg.all.find? fun r => (s.pool r).isNone && !exclude.contains r

/-- The register that has to be given up when none is free. -/
def victim (s : State) (exclude : List Reg) : Reg :=
  (Reg.all.find? fun r => (s.pool r).isSome && !exclude.contains r).getD .rax

/-- The offset of a temporary of `size` bytes below everything in use, a multiple of its size. -/
def temporary (s : State) (size : Nat) : Int :=
  let bytes := Ty.signedBytes (max size 1)
  let below := s.lowest - bytes
  below - below % bytes

end State

end Lowering

/-- What an action leaves: its result, the code it wrote, and the state behind it. -/
structure Lowered (α : Type) where
  result : α
  code : List Line
  state : Lowering.State

/-- An action that writes code and keeps the state of lowering. -/
def Lowering (α : Type) : Type := Lowering.State → Lowered α

namespace Lowering

instance : Monad Lowering where
  pure a := fun s => ⟨a, [], s⟩
  bind m f := fun s =>
    let first := m s
    let second := f first.result first.state
    ⟨second.result, first.code ++ second.code, second.state⟩

theorem bind_apply {α β : Type} (m : Lowering α) (f : α → Lowering β) (s : State) :
    (m >>= f) s =
      ⟨(f (m s).result (m s).state).result,
        (m s).code ++ (f (m s).result (m s).state).code,
        (f (m s).result (m s).state).state⟩ := rfl

/-! ## Writing -/

def write (l : Line) : Lowering Unit := fun s => ⟨(), [l], s⟩

def emit (i : Instr) : Lowering Unit := write (.instr i)

def mark (l : Label) : Lowering Unit := write (.label l)

/-! ## Reading and changing the state -/

def inspect {α : Type} (f : State → α) : Lowering α := fun s => ⟨f s, [], s⟩

def update (f : State → State) : Lowering Unit := fun s => ⟨(), [], f s⟩

/-- Writes a note if notes are wanted. -/
def note (text : String) : Lowering Unit := do
  if ← inspect (·.notes) then write (.note text)

def valueOf (v : ValueId) : Lowering Value := inspect (·.values v)

def sizeOf (v : ValueId) : Lowering Nat := inspect fun s => (s.values v).size

def operand (v : ValueId) : Lowering Operand := inspect fun s => (s.values v).operand

def newLabel : Lowering Label := fun s =>
  ⟨⟨s.nextLabel⟩, [], { s with nextLabel := s.nextLabel + 1 }⟩

/-- A new label for a string literal, which will stand under it with the other data. -/
def internText (text : String) : Lowering Label := do
  let label ← newLabel
  update fun s => { s with texts := s.texts ++ [(label, text)] }
  pure label

def newValue (location : Location) (size : Nat) : Lowering ValueId := fun s =>
  ⟨⟨s.nextValue⟩, [], s.addValue ⟨location, size⟩⟩

/-- The value is dead; its register is free again. -/
def unbind (v : ValueId) : Lowering Unit := update (·.unbind v)

/-- No register holds anything from here on. -/
def release : Lowering Unit := update fun s => { s with pool := fun _ => none }

/-! ## Registers -/

/-- Saves what a register holds into a new temporary of the frame. -/
def evict (r : Reg) : Lowering Unit := do
  match ← inspect (·.pool r) with
  | none => pure ()
  | some v =>
    let size ← sizeOf v
    let offset ← inspect (·.temporary size)
    update fun s => { s with lowest := offset }
    emit (.mov size (.reg r size) (.mem (.frame offset)))
    note "spill"
    update fun s => (s.setLocation v (.mem (.frame offset))).hold r none

/-- A register that holds nothing, after an eviction when there is none. -/
def takeReg (exclude : List Reg) : Lowering Reg := do
  match ← inspect (·.freeReg? exclude) with
  | some r => pure r
  | none =>
    let r ← inspect (·.victim exclude)
    evict r
    pure r

/-- Brings a value into the given register. -/
def load (v : ValueId) (r : Reg) : Lowering Unit := do
  if (← inspect (·.pool r)) = some v then pure ()
  else
    evict r
    let size ← sizeOf v
    let source ← operand v
    emit (.mov size source (.reg r size))
    update (·.assign v r)

/-- Brings a value into a register that is free or made free for it. -/
def fetch (v : ValueId) (exclude : List Reg) : Lowering Reg := do
  let r ← takeReg exclude
  load v r
  pure r

/-- Brings a value into some register, unless it is in one already. -/
def inRegister (v : ValueId) (exclude : List Reg) : Lowering Reg := do
  match (← valueOf v).reg? with
  | some r => if exclude.contains r then fetch v exclude else pure r
  | none => fetch v exclude

/-- Saves what every register holds, in allocation order. -/
def spillAll : Lowering Unit := Reg.all.forM evict

/-- A result of `size` bytes takes over the register of a value that it used up. -/
def rebind (used : ValueId) (r : Reg) (size : Nat) : Lowering ValueId := do
  unbind used
  newValue (.reg r) size

end Lowering

end LittleC
