import LittleC.Diagnostic
import LittleC.Tree.Expr

/-! # Verdicts

What checking a construct gives: the node it becomes and at most one mistake. -/

namespace LittleC

structure Verdict (α : Type) where
  node : α
  fault : Option CheckError

namespace Verdict

def map {α β : Type} (f : α → β) (v : Verdict α) : Verdict β := ⟨f v.node, v.fault⟩

end Verdict

/-- The verdict on a node over operands of types `operands`. An error among them makes the node an
error in silence, so one mistake is reported once; an illegal combination is reported. -/
def judge (operands : List Ty) (legal : Bool) (result : Ty) (fault : CheckError)
    (node : Ty → Expr) : Verdict Expr :=
  if operands.any (·.isError) then ⟨node .error, none⟩
  else if legal then ⟨node result, none⟩
  else ⟨node .error, some fault⟩

end LittleC
