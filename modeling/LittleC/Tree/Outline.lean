import LittleC.Tree.Stmt
import LittleC.Ty.Text

/-! # Outlines

The text of a checked tree: one line a node, each node's type beside it, the parts of a node one
level deeper than the node. -/

namespace LittleC

def UnaryOp.title : UnaryOp → String
  | .negate => "Negate"
  | .logicalNot => "Not"
  | .deref => "Dereference"
  | .address => "Address"

def BinaryOp.title : BinaryOp → String
  | .add => "Add"
  | .sub => "Subtract"
  | .mul => "Multiply"
  | .div => "Divide"
  | .rem => "Remainder"
  | .compare .eq => "Equal"
  | .compare .ne => "NotEqual"
  | .compare .lt => "LessThan"
  | .compare .le => "LessOrEqual"
  | .compare .gt => "GreaterThan"
  | .compare .ge => "GreaterOrEqual"
  | .land => "LogicalAnd"
  | .lor => "LogicalOr"

/-- A line of an outline: how deep it stands and what it says. -/
structure OutlineLine where
  depth : Nat
  text : String
  deriving DecidableEq, Repr

namespace OutlineLine

/-- Two blanks a level in front of the text. -/
def render (l : OutlineLine) : String := String.ofList (List.replicate (2 * l.depth) ' ') ++ l.text

end OutlineLine

/-- The text of an outline: its lines, each ended by a line break. -/
def renderOutline (lines : List OutlineLine) : String :=
  String.join (lines.map fun l => l.render ++ "\n")

namespace Expr

/-- What the line of a node says. -/
def headline (t : SymbolTable) : Expr → String
  | number v i => "Number " ++ toString v ++ " " ++ i.ty.text
  | text s i => "String " ++ s ++ " " ++ i.ty.text
  | ident x i => "Identifier " ++ (t.symbol x).name ++ " " ++ i.ty.text
  | call f _ i => "Call " ++ (t.symbol f).name ++ " " ++ i.ty.text
  | unary op _ i => op.title ++ " " ++ i.ty.text
  | cast _ i => "Cast " ++ i.ty.text
  | binary op _ _ i => op.title ++ " " ++ i.ty.text

mutual
def outline (t : SymbolTable) (depth : Nat) : Expr → List OutlineLine
  | number v i => [⟨depth, headline t (number v i)⟩]
  | text s i => [⟨depth, headline t (text s i)⟩]
  | ident x i => [⟨depth, headline t (ident x i)⟩]
  | call f args i => ⟨depth, headline t (call f args i)⟩ :: outlineAll t (depth + 1) args
  | unary op e i => ⟨depth, headline t (unary op e i)⟩ :: e.outline t (depth + 1)
  | cast e i => ⟨depth, headline t (cast e i)⟩ :: e.outline t (depth + 1)
  | binary op l r i =>
    ⟨depth, headline t (binary op l r i)⟩ :: (l.outline t (depth + 1) ++ r.outline t (depth + 1))

def outlineAll (t : SymbolTable) (depth : Nat) : List Expr → List OutlineLine
  | [] => []
  | e :: es => e.outline t depth ++ outlineAll t depth es
end

end Expr

/-- The line of a declaration; a symbol with a place in the frame shows it. -/
def Symbol.declaration (s : Symbol) : String :=
  match s.offset with
  | some offset => "Declare " ++ s.name ++ " " ++ s.ty.text ++ " @" ++ toString offset
  | none => "Declare " ++ s.name ++ " " ++ s.ty.text

/-- The head of a block: its title and one line for each name that its scope declares. -/
def SymbolTable.blockHead (t : SymbolTable) (depth : Nat) (scope : ScopeId) : List OutlineLine :=
  ⟨depth, "Block"⟩ :: (t.symbols scope).map fun id => ⟨depth + 1, (t.symbol id).declaration⟩

namespace Stmt

mutual
/-- An expression statement is the outline of its expression; an `Else` stands beside its `If`. -/
def outline (t : SymbolTable) (depth : Nat) : Stmt → List OutlineLine
  | expr e => e.outline t depth
  | assign target value =>
    ⟨depth, "Assign"⟩ :: (target.outline t (depth + 1) ++ value.outline t (depth + 1))
  | ret e => ⟨depth, "Return"⟩ :: e.outline t (depth + 1)
  | loop c body => ⟨depth, "While"⟩ :: (c.outline t (depth + 1) ++ body.outline t (depth + 1))
  | ifThen c body => ⟨depth, "If"⟩ :: (c.outline t (depth + 1) ++ body.outline t (depth + 1))
  | ifElse c body other =>
    ⟨depth, "If"⟩ :: (c.outline t (depth + 1) ++ body.outline t (depth + 1) ++
      ⟨depth, "Else"⟩ :: other.outline t (depth + 1))
  | block scope body => t.blockHead depth scope ++ outlineAll t (depth + 1) body

def outlineAll (t : SymbolTable) (depth : Nat) : List Stmt → List OutlineLine
  | [] => []
  | s :: ss => s.outline t depth ++ outlineAll t depth ss
end

end Stmt

namespace Function

def headline (t : SymbolTable) (f : Function) : String :=
  "Function " ++ (t.symbol f.symbol).name ++ " " ++ (t.symbol f.symbol).ty.text

def outline (t : SymbolTable) (f : Function) : List OutlineLine :=
  ⟨0, f.headline t⟩ :: (t.blockHead 1 f.scope ++ Stmt.outlineAll t 2 f.body)

end Function

end LittleC
