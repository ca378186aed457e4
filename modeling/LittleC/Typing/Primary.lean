import LittleC.Literal.Text
import LittleC.Typing.Coercion
import LittleC.Typing.Verdict

/-! # Names, constants and calls -/

namespace LittleC

namespace Expr

/-- A use of a symbol; it names a place when the symbol is a single value. -/
def ofSymbol (t : SymbolTable) (id : SymbolId) : Expr :=
  .ident id ⟨(t.symbol id).ty, (t.symbol id).ty.isScalar⟩

def ofInteger (l : IntegerLiteral) : Expr :=
  .number l.value (.value (if l.isLong then .long else .int))

/-- A string literal is an array of its bytes and a terminator. -/
def ofText (literal : String) : Expr :=
  .text literal (.value (.array .char 0 (TextLiteral.byteLength literal + 1)))

end Expr

namespace Typing

/-- Converts arguments to parameters one after the other, up to the first that does not fit. -/
def convertArgs : List Expr → List Ty → List Expr × Bool
  | a :: as, p :: ps =>
    let a := a.convert p
    if a.ty.agrees p then
      let rest := convertArgs as ps
      (a :: rest.1, rest.2)
    else (a :: as, false)
  | as, _ => (as, true)

/-- A call of `callee`, which has type `ty`. Arguments convert to listed parameters, and are only
promoted for an unspecified list. -/
def call (ty : Ty) (callee : SymbolId) (args : List Expr) : Verdict Expr :=
  match ty with
  | .error => ⟨.call callee args (.value .error), none⟩
  | .func _ _ params =>
    if params.length = args.length then
      let converted := convertArgs args params
      if converted.2 then ⟨.call callee converted.1 (.value ty.result), none⟩
      else ⟨.call callee converted.1 (.value .error), some .invalidArguments⟩
    else ⟨.call callee args (.value .error), some .invalidArguments⟩
  | .funcUnspecified .. => ⟨.call callee (args.map (·.promote)) (.value ty.result), none⟩
  | .scalar .. | .array .. => ⟨.call callee args (.value .error), some .notAFunction⟩

end Typing

end LittleC
