/-! # Diagnostics

The mistakes that checking can find, and the log that collects them with the line they are on. -/

namespace LittleC

inductive CheckError where
  /-- A function has two bodies. -/
  | redefinition (name : String)
  /-- A block declares a name twice. -/
  | redeclaration (name : String)
  /-- The file declares a name with two types. -/
  | conflictingTypes (name : String)
  | undeclared (name : String)
  | invalidReturnType
  /-- The condition of a branch or loop is no logical value. -/
  | invalidTest
  | lvalueRequired
  | invalidBinaryOperands (symbol : String)
  | invalidUnaryOperand (symbol : String)
  | invalidCast
  | invalidSizeof
  | notAFunction
  /-- Wrong number of arguments, or one that does not convert to its parameter. -/
  | invalidArguments
  deriving DecidableEq, Repr

def CheckError.message : CheckError → String
  | .redefinition name => "redefinition of '" ++ name ++ "'"
  | .redeclaration name => "redeclaration of '" ++ name ++ "'"
  | .conflictingTypes name => "conflicting types for '" ++ name ++ "'"
  | .undeclared name => "'" ++ name ++ "' undeclared"
  | .invalidReturnType => "invalid return type"
  | .invalidTest => "invalid type for test expression"
  | .lvalueRequired => "lvalue required in expression"
  | .invalidBinaryOperands symbol => "invalid operands to binary " ++ symbol
  | .invalidUnaryOperand symbol => "invalid operand to unary " ++ symbol
  | .invalidCast => "invalid operand in cast expression"
  | .invalidSizeof => "invalid operand in sizeof expression"
  | .notAFunction => "called object is not a function"
  | .invalidArguments => "invalid arguments to called function"

inductive Severity where
  | error
  | warning
  deriving DecidableEq, Repr

def Severity.text : Severity → String
  | .error => "error"
  | .warning => "warning"

structure Diagnostic where
  severity : Severity
  line : Nat
  error : CheckError
  deriving DecidableEq, Repr

def Diagnostic.render (d : Diagnostic) : String :=
  "line " ++ toString d.line ++ ": " ++ d.severity.text ++ ": " ++ d.error.message

/-- The diagnostics so far, the earliest first, and the line that the next one is on. -/
structure Log where
  entries : List Diagnostic
  line : Nat
  deriving DecidableEq, Repr

namespace Log

def empty : Log := ⟨[], 0⟩

def setLine (log : Log) (line : Nat) : Log := { log with line := line }

def report (log : Log) (e : CheckError) : Log :=
  { log with entries := log.entries ++ [⟨.error, log.line, e⟩] }

def errorCount (log : Log) : Nat := log.entries.countP (·.severity == .error)

def hasErrors (log : Log) : Bool := 0 < log.errorCount

def render (log : Log) : String := String.join (log.entries.map fun d => d.render ++ "\n")

end Log

end LittleC
