import LittleC.Proofs.Frame.Storage
import LittleC.Proofs.Widths.Program

/-! # Accesses have a width of the machine

A unit that was read without a mistake is written with widths of one, four and eight bytes, so that
no other way to write a suffix or to name a register shows in its text. -/

namespace LittleC

namespace Reading

/-- All accesses have a width of the machine. -/
structure Measured (r : Reading) : Prop where
  lines : ∀ routine ∈ r.assembly.routines, ∀ l ∈ routine.code, ∀ n ∈ l.widths, Width n
  /-- How other widths are spelled does not matter. -/
  spelled : ∀ p : Spelling, (∀ n, Width n → p.Agrees n) →
    ∀ routine ∈ r.assembly.routines, ∀ l ∈ routine.code, ∀ target, l.spell p target = l.text target
  /-- Calls pass values of such widths. -/
  passes : ∀ f ∈ r.unit.functions, ∀ e ∈ Stmt.exprsAll f.body, e.Every Expr.PassesWidths

section
variable {o : Options} {r : Reading} {f : Function}

theorem ty_placed (r : Reading) (x : SymbolId) : (r.placed.2.symbol x).ty = (r.table.symbol x).ty :=
  SymbolTable.ty_allocateAll r.closed r.unit.functions x

/-- Places change neither what is listed nor what is declared. -/
theorem listed_placed (r : Reading) (x : SymbolId) : r.placed.2.listed x = r.table.listed x := by
  rw [SymbolTable.listed, ty_placed, SymbolTable.listed]

theorem types_placed (r : Reading) (scope : ScopeId) :
    r.placed.2.types scope = r.table.types scope := by
  have hscopes : r.placed.2.scopes = r.table.scopes :=
    SymbolTable.scopes_allocateAll r.closed r.unit.functions
  simp only [SymbolTable.types, SymbolTable.symbols, SymbolTable.scope, hscopes, ty_placed]

theorem Finished.accepted (h : r.Finished f) :
    ∀ st ∈ f.body, st.Accepted r.placed.2 (r.placed.2.symbol f.symbol).ty.result := by
  intro st hst
  rw [ty_placed]
  exact (h.body st hst r.table List.prefix_rfl).of_types fun x => (r.ty_placed x).symm

theorem Finished.measured (h : r.Finished f) (hlisted : ∀ x, ∀ p ∈ r.table.listed x, Width p.size)
    (hspares : ∀ e ∈ Stmt.exprsAll f.body, e.Every (Expr.SparesFunctions r.table)) :
    f.Measured r.placed.2 := by
  refine ⟨?_, fun p hp => ?_, h.accepted, fun e he => ?_⟩
  · rw [ty_placed]
    exact h.function
  · refine hlisted f.symbol _ ?_
    rw [← listed_placed]
    refine Routine.ty_mem_listed ?_ hp
    rw [listed_placed, types_placed]
    exact h.parameters
  · obtain ⟨st, hst, hmem⟩ := Stmt.mem_exprsAll.mp he
    obtain ⟨hbuilt, herror⟩ := (h.body st hst r.table List.prefix_rfl).exprs e hmem
    exact Expr.every_passesWidths (hbuilt.every_wellFormed herror) herror hlisted (hspares e he)

end

/-- When reading reports nothing, no name has the error type, all parameters are listed at widths of
the machine and no function is passed through an unspecified list, all accesses have such a
width. -/
theorem measured_of_reached {o : Options} {r : Reading} (h : Reached o r)
    (hquiet : r.checker.log.entries = []) (hproper : ∀ s ∈ r.table.entries, s.ty.isError = false)
    (hparams : ∀ s ∈ r.table.entries, ∀ p ∈ s.ty.params?.getD [], Width p.size)
    (hspares : ∀ f ∈ r.unit.functions, ∀ e ∈ Stmt.exprsAll f.body,
      e.Every (Expr.SparesFunctions r.table)) : r.Measured := by
  have hlisted : ∀ x, ∀ p ∈ r.table.listed x, Width p.size := SymbolTable.forall_listed hparams
  have hmeasured : ∀ f ∈ r.unit.functions, f.Measured r.placed.2 := fun f hf =>
    ((h.sound hquiet hproper).finished f hf).measured hlisted (hspares f hf)
  have hlines : ∀ routine ∈ r.assembly.routines, ∀ l ∈ routine.code, l.Fits :=
    Function.fits_lowerAll _ _ fun p hp => hmeasured p.1 (List.of_mem_zip hp).1
  refine ⟨hlines, fun p hp routine hroutine l hl target => ?_, fun f hf => (hmeasured f hf).passes⟩
  exact Line.spell_eq fun n hn => hp n (hlines routine hroutine l hl n hn)

/-! ### A function that passes a name on through an unspecified list -/

namespace Forwarding

def options : Options := ⟨.linux, false⟩

def draft (names : List SymbolId) (exprs : List Expr) (stmts : List Stmt) : Draft :=
  ⟨⟨1⟩, ⟨1⟩, [], names, exprs, stmts⟩

/-- Declares `apply`, whose list is unspecified, and begins `forward`, with a parameter `a`. -/
def declared (ty : Ty) : Reading :=
  ((((start options).setChecker
    ((start options).checker.declareFunction "apply" (.funcUnspecified .int 0)).2).define "forward"
      (.func .int 0 [ty])).declare "a" ty).setDraft (draft [] [] [])

def argument (ty : Ty) (x : SymbolId) : Expr := .ofSymbol (declared ty).table x

def call (ty : Ty) (x : SymbolId) : Expr :=
  (Typing.call (.funcUnspecified .int 0) ⟨0⟩ [argument ty x]).node

def named (ty : Ty) (x : SymbolId) : Reading := (declared ty).setDraft (draft [x, ⟨0⟩] [] [])

def called (ty : Ty) (x : SymbolId) : Reading :=
  (((named ty x).addExpr (draft [x, ⟨0⟩] [] []) ⟨argument ty x, none⟩).addExpr
    (draft [x, ⟨0⟩] [argument ty x] []) ⟨call ty x, none⟩).addStmt
      (draft [x, ⟨0⟩] [call ty x, argument ty x] []) ⟨.expr (call ty x), none⟩

def function (ty : Ty) (x : SymbolId) : Function := ⟨⟨1⟩, ⟨1⟩, [.expr (call ty x)]⟩

/-- `forward` with a parameter of type `ty` calls `apply` with the symbol `x`. -/
def read (ty : Ty) (x : SymbolId) : Reading :=
  (called ty x).finish (draft [x, ⟨0⟩] [call ty x, argument ty x] [.expr (call ty x)])
    (function ty x).body

def table (ty : Ty) : SymbolTable :=
  ⟨[.fresh "apply" (.funcUnspecified .int 0), .fresh "forward" (.func .int 0 [ty]), .fresh "a" ty],
    [⟨none, [("apply", ⟨0⟩), ("forward", ⟨1⟩)], [⟨1⟩]⟩, ⟨some ⟨0⟩, [("a", ⟨2⟩)], []⟩], []⟩

theorem reached_declared (ty : Ty) : Reached options (declared ty) :=
  ((Relation.ReflTransGen.single (.declareFunction "apply" (.funcUnspecified .int 0))).tail
    (.define "forward" rfl rfl)).tail
      (.param (d := { draft [] [] [] with awaited := [ty] }) "a" rfl rfl)

/-- A name that is found is only noted down. -/
theorem reached_of_found {r : Reading} {d : Draft} {x : SymbolId} (name : String)
    (h : Reached options r) (hd : r.draft = some d)
    (hname : r.checker.resolve name = (x, r.checker)) :
    Reached options (r.setDraft { d with names := x :: d.names }) := by
  have hresolve : r.resolve d name = r.setDraft { d with names := x :: d.names } := by
    rw [Reading.resolve, hname]
    rfl
  exact hresolve ▸ h.tail (.resolve name hd)

theorem reached_read {ty : Ty} {x : SymbolId} (name : String)
    (hname : (declared ty).checker.resolve name = (x, (declared ty).checker)) :
    Reached options (read ty x) := by
  have hnamed : Reached options (named ty x) := by
    have hcallee := reached_of_found (x := ⟨0⟩) "apply" (reached_declared ty) rfl rfl
    exact reached_of_found name hcallee rfl hname
  have hargument : Typing.Rule (named ty x).table (· ∈ [x, ⟨0⟩]) [] ⟨argument ty x, none⟩ :=
    .ident List.mem_cons_self
  have hcall : Typing.Rule (named ty x).table (· ∈ [x, ⟨0⟩]) [argument ty x] ⟨call ty x, none⟩ :=
    .call (f := ⟨0⟩) (List.mem_cons_of_mem _ List.mem_cons_self) fun a ha => ha
  have hcalled : Reached options (called ty x) :=
    ((hnamed.tail (.expr rfl hargument)).tail (.expr rfl hcall)).tail
      (.stmt rfl (.expr List.mem_cons_self))
  exact hcalled.tail (.finish rfl rfl rfl fun _ hst => hst)

theorem routines_read (ty : Ty) (x : SymbolId) :
    let place := 0 - ty.signedSize
    (read ty x).assembly.routines =
      [((function ty x).lower ((table ty).setOffset ⟨2⟩ place)
        ⟨[⟨⟨2⟩, place⟩], ty.signedSize + 0⟩ (.start options.notes)).1] := by
  intro place
  have hdemands : Frame.demands (table ty) (function ty x) = [(⟨2⟩, none)] := by
    rw [Frame.demands, SymbolTable.nested]
    rfl
  have hlayout : Frame.layout (table ty) (function ty x) =
      ⟨[⟨⟨2⟩, place⟩], ty.signedSize + 0⟩ := by
    rw [Frame.layout, hdemands]
    rfl
  show (Assembly.ofFunctions options.notes (table ty) [function ty x]).routines = _
  rw [Assembly.ofFunctions, SymbolTable.allocateAll, SymbolTable.allocate, hlayout]
  rfl

end Forwarding

open Forwarding in
/-- A `char` is passed on at the width to which it is promoted. -/
theorem measured_of_reached_forward :
    let r := read .char ⟨2⟩
    Reached options r ∧ r.checker.log.entries = [] ∧ r.unit.functions = [function .char ⟨2⟩] ∧
      (∀ s ∈ r.table.entries, s.ty.isError = false) ∧
      (∀ s ∈ r.table.entries, ∀ p ∈ s.ty.params?.getD [], Width p.size) ∧
      (∀ f ∈ r.unit.functions, ∀ e ∈ Stmt.exprsAll f.body,
        e.Every (Expr.SparesFunctions r.table)) ∧ r.Measured := by
  intro r
  have hreached : Reached options r := reached_read "a" rfl
  have hproper : ∀ s ∈ r.table.entries, s.ty.isError = false := by decide
  have hparams : ∀ s ∈ r.table.entries, ∀ p ∈ s.ty.params?.getD [], Width p.size := by decide
  have hspares : ∀ f ∈ r.unit.functions, ∀ e ∈ Stmt.exprsAll f.body,
      e.Every (Expr.SparesFunctions r.table) := by
    intro f hf e he
    cases List.mem_singleton.mp hf
    cases List.mem_singleton.mp he
    have hargument : Expr.Every (Expr.SparesFunctions r.table)
        (.cast (argument .char ⟨2⟩) (.value .int)) :=
      Expr.every_cast.mpr ⟨trivial, Expr.every_ident.mpr trivial⟩
    exact Expr.every_call.mpr
      ⟨fun _ => List.forall_mem_singleton.mpr rfl, List.forall_mem_singleton.mpr hargument⟩
  exact ⟨hreached, rfl, rfl, hproper, hparams, hspares,
    measured_of_reached hreached rfl hproper hparams hspares⟩

open Forwarding in
/-- A function that passes itself is passed at no width, and an array that arrives as a parameter is
saved at its own size. -/
theorem not_measured_forward :
    let self := read .int ⟨1⟩
    let block := read (.array .int 0 10) ⟨2⟩
    (Reached options self ∧ self.checker.log.entries = [] ∧
      self.table.entries.map (·.ty) = [.funcUnspecified .int 0, .func .int 0 [.int], .int] ∧
      (∃ routine ∈ self.assembly.routines,
        .instr (.mov 0 (.mem (.global "forward")) (.reg .rdi 0)) ∈ routine.code) ∧
      ¬self.Measured) ∧
    (Reached options block ∧ block.checker.log.entries = [] ∧
      block.table.entries.map (·.ty) =
        [.funcUnspecified .int 0, .func .int 0 [.array .int 0 10], .array .int 0 10] ∧
      (∃ routine ∈ block.assembly.routines,
        .instr (.mov 40 (.reg .rdi 40) (.mem (.frame (-40)))) ∈ routine.code) ∧
      ¬block.Measured) := by
  intro self block
  have hself : ∃ routine ∈ self.assembly.routines,
      .instr (.mov 0 (.mem (.global "forward")) (.reg .rdi 0)) ∈ routine.code := by
    rw [routines_read]
    exact ⟨_, List.mem_cons_self, by decide⟩
  have hblock : ∃ routine ∈ block.assembly.routines,
      .instr (.mov 40 (.reg .rdi 40) (.mem (.frame (-40)))) ∈ routine.code := by
    rw [routines_read]
    exact ⟨_, List.mem_cons_self, by decide⟩
  refine ⟨⟨reached_read "forward" rfl, rfl, rfl, hself, fun h => ?_⟩,
    reached_read "a" rfl, rfl, rfl, hblock, fun h => ?_⟩
  · obtain ⟨routine, hroutine, hline⟩ := hself
    exact absurd (h.lines routine hroutine _ hline 0 (by decide)) (by decide)
  · obtain ⟨routine, hroutine, hline⟩ := hblock
    exact absurd (h.lines routine hroutine _ hline 40 (by decide)) (by decide)

end Reading

end LittleC
