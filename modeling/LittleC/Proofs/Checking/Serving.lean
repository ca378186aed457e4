import LittleC.Proofs.Checking.Quiet
import LittleC.Proofs.Checking.Run
import LittleC.Proofs.Symbols.File

/-! # What a request does to the table of names

Only scopes that open and close and names that are new change the table. A function goes to the file
scope, any other name to the innermost open scope. -/

namespace LittleC

namespace Request

/-- The name that is declared or defined as a function. -/
def functionName? : Request → Option String
  | .defineFunction name _ | .declareFunction name _ => some name
  | _ => none

end Request

namespace SymbolTable

/-- The table with a file scope, which opens when no scope ever did. -/
def withFile (t : SymbolTable) : SymbolTable := if t.scopes.isEmpty then t.openScope.2 else t

/-- What serving a request makes of a table, one constructor for each way that it may go. -/
inductive Serves (t : SymbolTable) : Request → SymbolTable → Prop where
  | line (n : Nat) : Serves t (.line n) t
  | openScope : Serves t .openScope t.openScope.2
  | closeScope : Serves t .closeScope t.closeScope.2
  | define (name : String) (ty : Ty) :
      Serves t (.defineFunction name ty) (t.withFile.replaceIn .file (.fresh name ty)).2
  | declare {name : String} (ty : Ty) (hnew : t.withFile.findIn? .file name = none) :
      Serves t (.declareFunction name ty) (t.withFile.insertIn .file (.fresh name ty)).2
  | redeclare {name : String} (ty : Ty) {x : SymbolId}
      (hold : t.withFile.findIn? .file name = some x) :
      Serves t (.declareFunction name ty) t.withFile
  | bind {name : String} (ty : Ty) (hnew : t.find? name = none) :
      Serves t (.declareVariable name ty) (t.insert (.fresh name ty)).2
  | rebind {name : String} (ty : Ty) {x : SymbolId} (hold : t.find? name = some x) :
      Serves t (.declareVariable name ty) t
  | known {name : String} {x : SymbolId} (hfound : t.lookup? name = some x) :
      Serves t (.resolve name) t
  | unknown {name : String} (hnone : t.lookup? name = none) :
      Serves t (.resolve name) (t.insert (.fresh name .error)).2
  | expr (v : Verdict Expr) : Serves t (.expr v) t
  | stmt (v : Verdict Stmt) : Serves t (.stmt v) t
  | function (symbol : SymbolId) (scope : ScopeId) (body : List Stmt) :
      Serves t (.function symbol scope body) t

end SymbolTable

namespace Checker

/-- The outermost scope is the file scope, also when it has to be opened. -/
theorem outermost_withFile (c : Checker) :
    c.outermost = (.file, { c with symbols := c.symbols.withFile }) := by
  unfold outermost SymbolTable.outermost? SymbolTable.withFile
  by_cases hempty : c.symbols.scopes.isEmpty = true
  · have hnone : c.symbols.scopes = [] := List.isEmpty_iff.mp hempty
    have hid : c.symbols.openScope.1 = .file := by
      unfold SymbolTable.openScope
      rw [hnone]
      rfl
    rw [if_pos hempty, if_pos hempty]
    show (c.symbols.openScope.1, _) = _
    rw [hid]
  · rw [if_neg hempty, if_neg hempty]
    rfl

theorem serves_defineFunction (c : Checker) (name : String) (ty : Ty) :
    c.symbols.Serves (.defineFunction name ty) (c.defineFunction name ty).2.symbols := by
  have hsymbols : (c.defineFunction name ty).2.symbols =
      (c.symbols.withFile.replaceIn .file (.fresh name ty)).2 := by
    unfold defineFunction
    rw [outermost_withFile]
    dsimp only [replaceIn]
    rw [symbols_reportAny]
  rw [hsymbols]
  exact .define name ty

theorem serves_declareFunction (c : Checker) (name : String) (ty : Ty) :
    c.symbols.Serves (.declareFunction name ty) (c.declareFunction name ty).2.symbols := by
  unfold declareFunction
  rw [outermost_withFile]
  dsimp only
  split
  · next x hold =>
      rw [symbols_reportAny]
      exact .redeclare ty hold
  · next hnew => exact .declare ty hnew

theorem serves_declareVariable (c : Checker) (name : String) (ty : Ty) :
    c.symbols.Serves (.declareVariable name ty) (c.declareVariable name ty).2.symbols := by
  unfold declareVariable
  split
  · next x hold =>
      have hsame : (if c.symbols.atOutermost then
          (x, c.reportAny (declarationFault name (c.symbols.symbol x).ty ty))
          else (x, c.report (.redeclaration name))).2.symbols = c.symbols := by
        split
        · exact symbols_reportAny c _
        · rfl
      rw [hsame]
      exact .rebind ty hold
  · next hnew => exact .bind ty hnew

theorem serves_resolve (c : Checker) (name : String) :
    c.symbols.Serves (.resolve name) (c.resolve name).2.symbols := by
  unfold resolve
  split
  · next x hfound => exact .known hfound
  · next hnone => exact .unknown hnone

/-- Every request changes the table in one of the ways that there are. -/
theorem serves_serve (c : Checker) (q : Request) : c.symbols.Serves q (c.serve q).symbols := by
  cases q with
  | line n => exact .line n
  | openScope => exact .openScope
  | closeScope => exact .closeScope
  | defineFunction name ty => exact c.serves_defineFunction name ty
  | declareFunction name ty => exact c.serves_declareFunction name ty
  | declareVariable name ty => exact c.serves_declareVariable name ty
  | resolve name => exact c.serves_resolve name
  | expr v =>
      show c.symbols.Serves _ (c.reportAny v.fault).symbols
      rw [symbols_reportAny]
      exact .expr v
  | stmt v =>
      show c.symbols.Serves _ (c.reportAny v.fault).symbols
      rw [symbols_reportAny]
      exact .stmt v
  | function symbol scope body => exact .function symbol scope body

end Checker

namespace SymbolTable

variable {t u : SymbolTable} {q : Request}

theorem Reachable.withFile (h : t.Reachable) : t.withFile.Reachable := by
  unfold SymbolTable.withFile
  split
  · exact h.openScope
  · exact h

theorem Serves.reachable (h : t.Serves q u) (ht : t.Reachable) : u.Reachable := by
  cases h with
  | line | rebind | known | expr | stmt | function => exact ht
  | openScope => exact ht.openScope
  | closeScope => exact ht.closeScope
  | define name ty => exact ht.withFile.replaceIn .file _
  | declare ty => exact ht.withFile.insertIn .file _
  | redeclare ty => exact ht.withFile
  | bind ty => exact ht.insert _
  | unknown => exact ht.insert _

end SymbolTable

/-! ## Requests in a row -/

namespace Checker

def serveAll (c : Checker) (qs : List Request) : Checker := qs.foldl serve c

theorem serveAll_cons (c : Checker) (q : Request) (qs : List Request) :
    c.serveAll (q :: qs) = (c.serve q).serveAll qs := rfl

theorem serveAll_append (c : Checker) (qs rs : List Request) :
    c.serveAll (qs ++ rs) = (c.serveAll qs).serveAll rs := List.foldl_append

/-- Whatever a checker is asked for, its table stays reachable. -/
theorem reachable_serveAll {c : Checker} (h : c.symbols.Reachable) (qs : List Request) :
    (c.serveAll qs).symbols.Reachable := by
  induction qs generalizing c with
  | nil => exact h
  | cons q qs ih => exact ih ((c.serves_serve q).reachable h)

end Checker

end LittleC
