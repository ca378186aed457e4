import LittleC.Compilation
import LittleC.Proofs.Checking.Clean
import LittleC.Proofs.Checking.Quiet
import Mathlib.Logic.Relation

/-! # A clean check

A unit is checked by operations in any order, over trees that earlier operations gave. As long as
nothing is reported, no symbol and no node has the error type, so that generation finds nothing to
refuse. -/

namespace LittleC

open Typing (Rule StmtRule)

namespace SymbolTable

/-- A symbol that the table has. -/
def Has (t : SymbolTable) (x : SymbolId) : Prop := x.index < t.entries.length

/-- No symbol has the error type. -/
def Proper (t : SymbolTable) : Prop := ∀ s ∈ t.entries, s.ty.isError = false

section
variable {t : SymbolTable} {s : Symbol}

theorem Proper.isError (h : t.Proper) {x : SymbolId} (hx : t.Has x) :
    (t.symbol x).ty.isError = false := by
  have hsymbol : t.symbol x = t.entries[x.index] := by simp [symbol, List.getElem?_eq_getElem hx]
  rw [hsymbol]
  exact h _ (List.getElem_mem hx)

theorem Proper.openScope (h : t.Proper) : t.openScope.2.Proper := by
  rw [Proper, entries_openScope]
  exact h

theorem Proper.insertIn (h : t.Proper) (id : ScopeId) (hs : s.ty.isError = false) :
    (t.insertIn id s).2.Proper := by
  intro s' hs'
  rcases List.mem_append.mp hs' with hold | hnew
  · exact h s' hold
  · rwa [List.mem_singleton.mp hnew]

theorem Proper.replaceIn (h : t.Proper) (id : ScopeId) (hs : s.ty.isError = false) :
    (t.replaceIn id s).2.Proper :=
  Proper.insertIn (t := t.modifyScope id (·.unbind s.name)) h id hs

theorem Proper.insert (h : t.Proper) (hs : s.ty.isError = false) : (t.insert s).2.Proper := by
  unfold SymbolTable.insert
  split
  · exact h.insertIn _ hs
  · exact h.openScope.insertIn _ hs

end

end SymbolTable

/-- A unit in the making: all trees that checking has given so far, whether used yet or not. -/
structure Session where
  unit : Compilation
  exprs : List Expr
  stmts : List Stmt
  functions : List Function

namespace Session

def checker (s : Session) : Checker := s.unit.checker

def setChecker (s : Session) (c : Checker) : Session :=
  { s with unit := { s.unit with checker := c } }

/-- A session that has made nothing. -/
def start (o : Options) : Session := ⟨.start o, [], [], []⟩

/-- One operation. Only proper types are declared. -/
inductive Step (s : Session) : Session → Prop where
  | line (n : Nat) : Step s (s.setChecker (s.checker.setLine n))
  | openScope : Step s (s.setChecker s.checker.openScope.2)
  | closeScope : Step s (s.setChecker s.checker.closeScope.2)
  | insert {symbol : Symbol} (hty : symbol.ty.isError = false) :
      Step s (s.setChecker (s.checker.insert symbol).2)
  | insertIn (scope : ScopeId) {symbol : Symbol} (hty : symbol.ty.isError = false) :
      Step s (s.setChecker (s.checker.insertIn scope symbol).2)
  | replaceIn (scope : ScopeId) {symbol : Symbol} (hty : symbol.ty.isError = false) :
      Step s (s.setChecker (s.checker.replaceIn scope symbol).2)
  | defineFunction (name : String) {ty : Ty} (hty : ty.isError = false) :
      Step s (s.setChecker (s.checker.defineFunction name ty).2)
  | declareFunction (name : String) {ty : Ty} (hty : ty.isError = false) :
      Step s (s.setChecker (s.checker.declareFunction name ty).2)
  | declareVariable (name : String) {ty : Ty} (hty : ty.isError = false) :
      Step s (s.setChecker (s.checker.declareVariable name ty).2)
  | resolve (name : String) : Step s (s.setChecker (s.checker.resolve name).2)
  | expr {v : Verdict Expr} (hv : Rule s.checker.symbols s.checker.symbols.Has s.exprs v) :
      Step s { s.setChecker (s.checker.accept v).2 with exprs := v.node :: s.exprs }
  | stmt {v : Verdict Stmt}
      (hv : StmtRule (s.checker.returnType.getD .error) s.exprs s.stmts v) :
      Step s { s.setChecker (s.checker.accept v).2 with stmts := v.node :: s.stmts }
  | function (symbol : SymbolId) (scope : ScopeId) {body : List Stmt}
      (hbody : ∀ st ∈ body, st ∈ s.stmts) :
      Step s { s.setChecker (s.checker.function symbol scope body).2 with
        functions := (s.checker.function symbol scope body).1 :: s.functions }
  | addFunction {f : Function} (hf : f ∈ s.functions) :
      Step s { s with unit := s.unit.addFunction f }

/-- Some operations after the start with options `o`. -/
def Reached (o : Options) : Session → Prop := Relation.ReflTransGen Step (start o)

/-! ## The log -/

section
variable {s s' : Session} {o : Options}

theorem Step.next (h : s.Step s') : s.checker.log.Next s'.checker.log := by
  cases h with
  | line n => exact .line n
  | openScope | closeScope | function | addFunction | insertIn | replaceIn => exact .same
  | insert hty => exact .same
  | defineFunction name => exact s.checker.next_defineFunction name _
  | declareFunction name => exact s.checker.next_declareFunction name _
  | declareVariable name => exact s.checker.next_declareVariable name _
  | resolve name => exact s.checker.next_resolve name
  | expr | stmt => exact s.checker.next_reportAny _

theorem Step.options (h : s.Step s') : s'.unit.options = s.unit.options := by cases h <;> rfl

theorem Reached.allErrors (h : Reached o s) : s.checker.log.AllErrors := by
  induction h with
  | refl => exact fun d hd => absurd hd List.not_mem_nil
  | tail _ hstep ih => exact hstep.next.allErrors ih

theorem Reached.options (h : Reached o s) : s.unit.options = o := by
  induction h with
  | refl => rfl
  | tail _ hstep ih => exact hstep.options.trans ih

/-! ## What a clean check leaves -/

/-- Neither symbols nor trees have the error type. -/
structure Clean (s : Session) : Prop where
  symbols : s.checker.symbols.Proper
  exprs : ∀ e ∈ s.exprs, e.hasError = false
  stmts : ∀ st ∈ s.stmts, st.hasError = false
  functions : ∀ f ∈ s.functions, f.hasError = false
  added : ∀ f ∈ s.unit.functions, f.hasError = false

theorem clean_start (o : Options) : (start o).Clean := by
  refine ⟨SymbolTable.Proper.openScope fun _ h => ?_, fun _ h => ?_, fun _ h => ?_, fun _ h => ?_,
    fun _ h => ?_⟩ <;> exact absurd h List.not_mem_nil

/-- A change of the checker concerns the symbols only. -/
theorem Clean.setChecker (h : s.Clean) {c : Checker} (hc : c.symbols.Proper) :
    (s.setChecker c).Clean := ⟨hc, h.exprs, h.stmts, h.functions, h.added⟩

theorem proper_outermost {c : Checker} (h : c.symbols.Proper) : c.outermost.2.symbols.Proper := by
  unfold Checker.outermost
  split
  · exact h
  · exact h.openScope

/-- An operation that reports nothing brings in no error type. -/
theorem Step.clean (h : s.Step s') (hquiet : s'.checker.Quiet) (hs : s.Clean) : s'.Clean := by
  have hsymbols := hs.symbols
  cases h with
  | line | closeScope => exact hs.setChecker hsymbols
  | openScope => exact hs.setChecker hsymbols.openScope
  | insert hty => exact hs.setChecker (hsymbols.insert hty)
  | insertIn scope hty => exact hs.setChecker (hsymbols.insertIn scope hty)
  | replaceIn scope hty => exact hs.setChecker (hsymbols.replaceIn scope hty)
  | defineFunction name hty =>
      refine hs.setChecker ?_
      rw [Checker.defineFunction_of_quiet hquiet]
      exact (proper_outermost hsymbols).replaceIn _ hty
  | declareFunction name hty =>
      refine hs.setChecker ?_
      rcases Checker.declareFunction_of_quiet hquiet with ⟨id, -, -, heq⟩ | ⟨-, heq⟩
      · rw [heq]
        exact proper_outermost hsymbols
      · rw [heq]
        exact (proper_outermost hsymbols).insertIn _ hty
  | declareVariable name hty =>
      refine hs.setChecker ?_
      rcases Checker.declareVariable_of_quiet hquiet with ⟨id, -, -, -, heq⟩ | ⟨-, heq⟩
      · rw [heq]
        exact hsymbols
      · rw [heq]
        exact hsymbols.insert hty
  | resolve name =>
      obtain ⟨id, -, heq⟩ := Checker.resolve_of_quiet hquiet
      rw [heq]
      exact hs.setChecker hsymbols
  | expr hv =>
      have hfault := (Checker.quiet_reportAny.mp hquiet).2
      have hnode := hv.hasError (fun _ => hsymbols.isError) hs.exprs hfault
      refine ⟨?_, List.forall_mem_cons.mpr ⟨hnode, hs.exprs⟩, hs.stmts, hs.functions, hs.added⟩
      exact (s.checker.symbols_reportAny _).symm ▸ hsymbols
  | stmt hv =>
      have hnode := hv.hasError hs.exprs hs.stmts
      refine ⟨?_, hs.exprs, List.forall_mem_cons.mpr ⟨hnode, hs.stmts⟩, hs.functions, hs.added⟩
      exact (s.checker.symbols_reportAny _).symm ▸ hsymbols
  | function symbol scope hbody =>
      have hfunction : Stmt.anyError _ = false :=
        Stmt.anyError_eq_false_iff.mpr fun st hst => hs.stmts st (hbody st hst)
      exact ⟨hsymbols, hs.exprs, hs.stmts, List.forall_mem_cons.mpr ⟨hfunction, hs.functions⟩,
        hs.added⟩
  | addFunction hf =>
      refine ⟨hsymbols, hs.exprs, hs.stmts, hs.functions, List.forall_mem_append.mpr ⟨hs.added, ?_⟩⟩
      exact fun f hf' => List.mem_singleton.mp hf' ▸ hs.functions _ hf

theorem Reached.clean (h : Reached o s) (hquiet : s.checker.Quiet) : s.Clean := by
  induction h with
  | refl => exact clean_start o
  | tail _ hstep ih => exact hstep.clean hquiet (ih (hstep.next.entries_eq_nil hquiet))

end

/-! ## Finishing -/

/-- The error-typed nodes of a function are what generation refuses, behind other processors. -/
theorem generate_of_clean (o : Options) (t : SymbolTable) {fs : List Function}
    (h : ∀ f ∈ fs, f.hasError = false) :
    (o.triple.architecture = .x86_64 → ∃ text, generate o t fs = .ok text) ∧
      (o.triple.architecture ≠ .x86_64 →
        generate o t fs = .error (.unsupportedTarget o.triple.text)) := by
  have hfind : fs.find? (·.hasError) = none :=
    List.find?_eq_none.mpr fun f hf => by simp [h f hf]
  unfold generate Target.ofTriple?
  constructor
  · intro hx86
    rw [if_pos hx86, hfind]
    exact ⟨_, rfl⟩
  · intro hother
    rw [if_neg hother]

/-- After any operations over proper types: where nothing was reported, every node of every function
has a proper type, and there is a text for x86-64, whatever the object format, while any other
processor is refused by the triple; otherwise the unit fails with the number of diagnostics. -/
theorem finish_of_reached {o : Options} {s : Session} (h : Reached o s) :
    (s.checker.log.entries = [] →
      (∀ f ∈ s.unit.functions, ∀ e ∈ Stmt.exprsAll f.body, e.Every fun n => n.ty.isError = false) ∧
      (o.triple.architecture = .x86_64 → ∃ text, s.unit.finish = .ok text) ∧
      (o.triple.architecture ≠ .x86_64 →
        s.unit.finish = .error (.unsupportedTarget o.triple.text))) ∧
    (s.checker.log.entries ≠ [] →
      s.unit.finish = .error (.semantic s.checker.log.entries.length)) := by
  have hcount : s.unit.checker.log.errorCount = s.checker.log.entries.length :=
    h.allErrors.errorCount
  refine ⟨fun hquiet => ?_, fun hreported => ?_⟩
  · have hclean := (h.clean hquiet).added
    have hfinish : s.unit.finish =
        generate o s.unit.checker.closeScope.2.symbols s.unit.functions := by
      rw [Compilation.finish, hcount, hquiet, h.options]
      rfl
    refine ⟨fun f hf e he => ?_, ?_⟩
    · exact (Expr.hasError_eq_false_iff e).mp
        (Stmt.anyError_eq_false_iff_exprs.mp (hclean f hf) e he)
    · rw [hfinish]
      exact generate_of_clean o _ hclean
  · rw [Compilation.finish, hcount, if_pos (List.length_pos_iff.mpr hreported)]

/-- A function that returns a number is generated, another processor is refused, and a name that
nothing declares is one mistake. -/
theorem finish_of_reached_return :
    let o : Options := ⟨.linux, false⟩
    let arm : Options := ⟨⟨.other "aarch64", .other "elf", "aarch64-unknown-linux-gnu"⟩, false⟩
    let one := Expr.ofInteger ⟨1, false⟩
    let defined := (start o).setChecker ((start o).checker.defineFunction "f" (.func .int 0 [])).2
    let opened := defined.setChecker defined.checker.openScope.2
    let counted := { opened.setChecker (opened.checker.accept ⟨one, none⟩).2 with exprs := [one] }
    let verdict := Typing.ret .int one
    let returned := { counted.setChecker (counted.checker.accept verdict).2 with
      stmts := [verdict.node] }
    let closed := returned.setChecker returned.checker.closeScope.2
    let made := closed.checker.function ⟨0⟩ ⟨1⟩ [verdict.node]
    let s : Session := { closed.setChecker made.2 with functions := [made.1] }
    let added : Session := { s with unit := s.unit.addFunction made.1 }
    let named := (start o).setChecker ((start o).checker.resolve "x").2
    Reached o added ∧ added.checker.log.entries = [] ∧ added.unit.functions = [made.1] ∧
      (∃ text, added.unit.finish = .ok text) ∧
      (start arm).unit.finish = .error (.unsupportedTarget "aarch64-unknown-linux-gnu") ∧
      Reached o named ∧ named.checker.log.entries ≠ [] ∧
      named.unit.finish = .error (.semantic 1) := by
  intro o arm one defined opened counted verdict returned closed made s added named
  have hdefined : Reached o defined := .single (.defineFunction "f" rfl)
  have hcounted : Reached o counted :=
    (hdefined.tail .openScope).tail (.expr (v := ⟨one, none⟩) (.number ⟨1, false⟩))
  have hreturned : Reached o returned :=
    hcounted.tail (.stmt (v := verdict) (.ret List.mem_cons_self))
  have hmade : Reached o s :=
    (hreturned.tail .closeScope).tail (.function ⟨0⟩ ⟨1⟩ fun st hst => hst)
  have hadded : Reached o added := hmade.tail (.addFunction List.mem_cons_self)
  have hnamed : Reached o named := .single (.resolve "x")
  have htext := ((finish_of_reached hadded).1 rfl).2.1 rfl
  have hrefused := ((finish_of_reached (.refl (a := start arm))).1 rfl).2.2 (by decide)
  have hentries : named.checker.log.entries ≠ [] := by decide
  exact ⟨hadded, rfl, rfl, htext, hrefused, hnamed, hentries,
    (finish_of_reached hnamed).2 hentries⟩

end Session

end LittleC
