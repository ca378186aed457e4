import LittleC.Asm.Text
import LittleC.Lowering.Stmt

/-! # Assembly

The code of whole functions, the storage of file-level variables and the string literals. -/

namespace LittleC

/-- The code of a function from its entry on. -/
structure Routine where
  name : String
  code : List Line
  deriving DecidableEq, Repr

/-- All that is written for a compilation unit. -/
structure Assembly where
  routines : List Routine
  /-- File-level variables with their sizes. -/
  commons : List (String × Nat)
  texts : List (Label × String)
  deriving DecidableEq, Repr

namespace Routine

/-- Stores an argument register into the place of its parameter. -/
def saveParam (param : Symbol) (r : Reg) : Line :=
  .instr (.mov param.ty.size (.reg r param.ty.size) (.mem (.frame (param.offset.getD 0))))

/-- The parameters of a function that arrive in registers, in order. -/
def registerParams (t : SymbolTable) (f : Function) : List Symbol :=
  ((t.symbols f.scope).take (min (t.paramCount f.symbol) registerArgs)).map t.symbol

def prologue (t : SymbolTable) (f : Function) (frame : Int) : List Line :=
  [.instr .saveFrame, .instr .enterFrame] ++
    (if 0 < frame then [.instr (.reserve frame)] else []) ++
    List.zipWith saveParam (registerParams t f) Reg.args

def epilogue (done : Label) : List Line :=
  [.label done, .instr .leaveFrame, .instr .restoreFrame, .instr .ret]

end Routine

namespace Function

/-- The body of a function, in a state that continues from the functions before it. -/
def lowerBody (t : SymbolTable) (l : Layout) (f : Function) (done : Label) : Lowering Unit := do
  Lowering.update fun s => s.enter (-l.displacement)
  Stmt.lowerAll t done f.body

/-- The code of a function whose symbols have their places. The frame has room for everything that
lowering the body put into it. -/
def lower (t : SymbolTable) (l : Layout) (f : Function) (s : Lowering.State) :
    Routine × Lowering.State :=
  let done := Lowering.newLabel s
  let body := f.lowerBody t l done.result done.state
  let frame := alignFrame (-body.state.lowest)
  (⟨(t.symbol f.symbol).name,
      Routine.prologue t f frame ++ body.code ++ Routine.epilogue done.result⟩,
    body.state)

def lowerAll (t : SymbolTable) : List (Function × Layout) → Lowering.State →
    List Routine × Lowering.State
  | [], s => ([], s)
  | (f, l) :: rest, s =>
    let first := f.lower t l s
    let others := lowerAll t rest first.2
    (first.1 :: others.1, others.2)

end Function

namespace Assembly

/-- The file-level symbols that need storage: all but functions and errors. -/
def globals (t : SymbolTable) : List Symbol :=
  match t.outermost? with
  | some scope =>
    ((t.symbols scope).map t.symbol).filter fun s => !(s.ty.isFunction || s.ty.isError)
  | none => []

/-- Gives every function its frame and writes the code of all, with notes in it or without. -/
def ofFunctions (notes : Bool) (t : SymbolTable) (fs : List Function) : Assembly :=
  let placed := t.allocateAll fs
  let lowered := Function.lowerAll placed.2 (fs.zip placed.1) (.start notes)
  ⟨lowered.1, (globals placed.2).map fun s => (s.name, s.ty.size), lowered.2.texts⟩

end Assembly

/-! ## Text -/

def Routine.text (t : Target) (r : Routine) : String :=
  let name := t.globalLead ++ r.name
  "    .globl " ++ name ++ "\n" ++ name ++ ":\n" ++
    String.join (r.code.map fun l => l.text t ++ "\n") ++ "\n"

namespace Assembly

def commonText (t : Target) (c : String × Nat) : String :=
  "    .comm " ++ t.globalLead ++ c.1 ++ ", " ++ toString c.2 ++ "\n"

def literalText (t : Target) (d : Label × String) : String :=
  d.1.text t.labelLead ++ ": .asciz " ++ d.2 ++ "\n"

def dataText (t : Target) (texts : List (Label × String)) : String :=
  if texts.isEmpty then "" else "    .data\n" ++ String.join (texts.map (literalText t))

def text (t : Target) (a : Assembly) : String :=
  String.join (a.routines.map (·.text t)) ++ String.join (a.commons.map (commonText t)) ++
    dataText t a.texts

end Assembly

end LittleC
