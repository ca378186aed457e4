import LittleC.Ty.Basic

/-! # The text of a type

The base, then the stars of the pointer depth after one blank, then the length in brackets or the
parameters in parentheses. -/

namespace LittleC

def Base.text : Base → String
  | .char => "char"
  | .int => "int"
  | .long => "long"

namespace Ty

def stars : Nat → String
  | 0 => ""
  | n + 1 => " " ++ String.ofList (List.replicate (n + 1) '*')

/-- Base and stars, which open the text of every type but the error type. -/
def lead (b : Base) (d : Nat) : String := b.text ++ stars d

mutual
def text : Ty → String
  | .error => "error"
  | .scalar b d => lead b d
  | .array b d n => lead b d ++ "[" ++ toString n ++ "]"
  | .func b d ps => lead b d ++ "(" ++ textAll ps ++ ")"
  | .funcUnspecified b d => lead b d ++ "()"

def textAll : List Ty → String
  | [] => ""
  | t :: ts => text t ++ textMore ts

/-- The parameters after the first, each behind a comma and a blank. -/
def textMore : List Ty → String
  | [] => ""
  | t :: ts => ", " ++ text t ++ textMore ts
end

end Ty

end LittleC
