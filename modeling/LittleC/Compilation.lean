import LittleC.Assembly
import LittleC.Checker
import LittleC.Tree.Outline

/-! # Compilation

A compilation unit from its first declaration to its assembly text, and the reasons for which there
is no text. -/

namespace LittleC

inductive Failure where
  /-- A malformed token on a line. -/
  | syntaxError (line : Nat) (near : String)
  /-- Checking found mistakes. -/
  | semantic (count : Nat)
  /-- A function still holds nodes that failed to check. -/
  | erroneousTree (function : String)
  | unsupportedTarget (triple : String)
  deriving DecidableEq, Repr

def Failure.message : Failure → String
  | .syntaxError line near => "line " ++ toString line ++ ": syntax error at '" ++ near ++ "'"
  | .semantic count => toString count ++ " semantic error(s)"
  | .erroneousTree function =>
    "cannot generate code for '" ++ function ++ "': it contains semantic errors"
  | .unsupportedTarget triple =>
    "unsupported target '" ++ triple ++ "': only x86_64 is supported"

/-- For which system to write assembly, and whether with notes. -/
structure Options where
  triple : Triple
  notes : Bool
  deriving DecidableEq, Repr

/-- The assembly text of functions over a table. The target is looked at first, then the trees. -/
def generate (o : Options) (t : SymbolTable) (fs : List Function) : Except Failure String :=
  match Target.ofTriple? o.triple with
  | none => .error (.unsupportedTarget o.triple.text)
  | some target =>
    match fs.find? (·.hasError) with
    | some f => .error (.erroneousTree (t.symbol f.symbol).name)
    | none => .ok ((Assembly.ofFunctions o.notes t fs).text target)

structure Compilation where
  checker : Checker
  functions : List Function
  options : Options

namespace Compilation

/-- A new unit, with its file-level scope open. -/
def start (o : Options) : Compilation := ⟨Checker.empty.openScope.2, [], o⟩

/-- A number token; malformed digits end the compilation. -/
def number (c : Compilation) (token : String) : Except Failure Expr :=
  match IntegerLiteral.parse? token with
  | some l => .ok (.ofInteger l)
  | none => .error (.syntaxError c.checker.log.line token)

def addFunction (c : Compilation) (f : Function) : Compilation :=
  { c with functions := c.functions ++ [f] }

/-- The outlines of all functions so far. -/
def outline (c : Compilation) : String :=
  String.join (c.functions.map fun f => renderOutline (f.outline c.checker.symbols))

/-- The assembly of the unit, if checking found no mistake. -/
def finish (c : Compilation) : Except Failure String :=
  let count := c.checker.log.errorCount
  if 0 < count then .error (.semantic count)
  else generate c.options c.checker.closeScope.2.symbols c.functions

end Compilation

end LittleC
