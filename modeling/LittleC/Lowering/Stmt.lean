import LittleC.Lowering.Expr
import LittleC.Tree.Stmt

/-! # Lowering of statements -/

namespace LittleC

namespace Lowering

/-- Stores through a pointer: the value is lowered first. -/
def store (size : Nat) (pointer value : Lowering ValueId) : Lowering Unit := do
  note "assign"
  let v ← value
  let p ← pointer
  let source ← inRegister v []
  let target ← inRegister p [source]
  emit (.mov size (.reg source size) (.mem (.indirect target)))

/-- Stores into a named place: the place is lowered first. -/
def storeNamed (size : Nat) (place value : Lowering ValueId) : Lowering Unit := do
  note "assign"
  let p ← place
  let v ← value
  let source ← inRegister v []
  let target ← operand p
  emit (.mov size (.reg source size) target)

def discardResult (e : Lowering ValueId) : Lowering Unit := do
  let v ← e
  unbind v

/-- The result goes to `%rax` and control to the end of the function. -/
def returnTo (label : Label) (e : Lowering ValueId) : Lowering Unit := do
  let v ← e
  load v .rax
  emit (.jmp label)

def loop (leaveUnless : Label → Lowering Unit) (body : Lowering Unit) : Lowering Unit := do
  note "while"
  let head ← newLabel
  let exit ← newLabel
  release
  mark head
  leaveUnless exit
  body
  release
  emit (.jmp head)
  mark exit

def ifThen (skipUnless : Label → Lowering Unit) (body : Lowering Unit) : Lowering Unit := do
  note "if"
  let skip ← newLabel
  skipUnless skip
  body
  mark skip

def ifElse (skipUnless : Label → Lowering Unit) (body other : Lowering Unit) : Lowering Unit := do
  note "if"
  let skip ← newLabel
  skipUnless skip
  body
  let exit ← newLabel
  emit (.jmp exit)
  mark skip
  other
  mark exit

end Lowering

namespace Stmt

open Lowering (release)

mutual
/-- Writes the code of a statement in a function that ends at `done`. No register holds a value from
one statement to the next. -/
def lower (t : SymbolTable) (done : Label) : Stmt → Lowering Unit
  | expr e => do
    Lowering.discardResult (e.lower t)
    release
  | assign (.unary .deref p i) value => do
    Lowering.store i.ty.size (p.lower t) (value.lower t)
    release
  | assign place value => do
    Lowering.storeNamed place.ty.size (place.lower t) (value.lower t)
    release
  | ret e => do
    Lowering.returnTo done (e.lower t)
    release
  | loop c body => do
    Lowering.loop (fun exit => c.branch t exit false) (body.lower t done)
    release
  | ifThen c body => do
    Lowering.ifThen (fun skip => c.branch t skip false) (body.lower t done)
    release
  | ifElse c body other => do
    Lowering.ifElse (fun skip => c.branch t skip false) (body.lower t done) (other.lower t done)
    release
  | block _ body => do
    lowerAll t done body
    release

def lowerAll (t : SymbolTable) (done : Label) : List Stmt → Lowering Unit
  | [] => pure ()
  | s :: ss => do
    s.lower t done
    lowerAll t done ss
end

end Stmt

end LittleC
