import LittleC.Lowering.Laws
import LittleC.Proofs.Checking.Scopes
import LittleC.Proofs.Frame.Program

/-! # Where names are stored

After allocation a name of a function is in a slot of its frame exactly when one of its scopes
declares it; any other name is a file-level one, known to the linker. -/

namespace LittleC

open Typing (Rule)

/-- The operand that a use of a symbol becomes. -/
def SymbolTable.operandOf (u : SymbolTable) (x : SymbolId) (i : Expr.Info) (s : Lowering.State) :
    Operand :=
  let lowered := (Expr.ident x i).lower u s
  (lowered.state.values lowered.result).operand

theorem SymbolTable.operandOf_eq (u : SymbolTable) (x : SymbolId) (i : Expr.Info)
    (s : Lowering.State) : u.operandOf x i s = .mem (u.symbol x).home := by
  simp [operandOf, Expr.lower, Lowering.newValue, Lowering.State.addValue, Value.reg?,
    Value.operand]

namespace SymbolTable

variable {t : SymbolTable} {fs : List Function} {f : Function} {l : Layout} {x : SymbolId}

/-- Each function goes with its own layout. -/
theorem mem_zip_allocateAll (h : (f, l) ∈ fs.zip (t.allocateAll fs).1) :
    f ∈ fs ∧ l = Frame.layout t f := by
  rw [allocateAll_eq, ← List.map_prod_left_eq_zip] at h
  obtain ⟨g, hg, heq⟩ := List.mem_map.mp h
  cases heq
  exact ⟨hg, rfl⟩

/-- The slots of a layout are for the symbols of the function. -/
theorem mem_slots_iff (h : t.Reachable) (f : Function) (x : SymbolId) :
    x ∈ (Frame.layout t f).slots.map (·.symbol) ↔ t.DeclaredIn f.scope x := by
  rw [Frame.layout, Frame.symbols_place]
  exact Frame.mem_demands_iff h f x

/-- A symbol of no function is as it was before. -/
theorem symbol_allocateAll (h : t.Reachable) (hx : ∀ f ∈ fs, ¬t.DeclaredIn f.scope x) :
    (t.allocateAll fs).2.symbol x = t.symbol x := by
  rw [allocateAll_eq]
  refine t.symbol_settleAll_of_not_mem fun hmem => ?_
  obtain ⟨s, hs, rfl⟩ := List.mem_map.mp hmem
  obtain ⟨f, hf, hs⟩ := List.mem_flatMap.mp hs
  exact hx f hf ((mem_slots_iff h f s.symbol).mp (List.mem_map_of_mem hs))

theorem Unplaced.offset (h : t.Unplaced) (x : SymbolId) : (t.symbol x).offset = none := by
  by_cases hx : x.index < t.entries.length
  · have hsymbol : t.symbol x = t.entries[x.index] := by
      simp [symbol, List.getElem?_eq_getElem hx]
    rw [hsymbol]
    exact h _ (List.getElem_mem hx)
  · simp [symbol, List.getElem?_eq_none (Nat.le_of_not_lt hx)]
    rfl

end SymbolTable

namespace Reading

/-- The table that is handed on when reading is over. -/
def closed (r : Reading) : SymbolTable := r.checker.closeScope.2.symbols

/-- The layouts of all functions, and the table with all places. -/
def placed (r : Reading) : List Layout × SymbolTable := r.closed.allocateAll r.unit.functions

/-- The assembly of the functions, with notes if they are wanted. -/
def assembly (r : Reading) : Assembly :=
  .ofFunctions r.unit.options.notes r.closed r.unit.functions

/-- How a name is stored that function `f` uses, which is laid out as `l`. -/
structure Stored (o : Options) (r : Reading) (f : Function) (l : Layout) (x : SymbolId) : Prop where
  offset : (r.placed.2.symbol x).offset.isSome = true ↔ r.closed.DeclaredIn f.scope x
  /-- A name of its own has the one slot of the frame that is recorded for it. -/
  frame : r.closed.DeclaredIn f.scope x → ∃ offset, ⟨x, offset⟩ ∈ l.slots ∧
    (∀ s ∈ l.slots, s.symbol = x → s.offset = offset) ∧
    (r.placed.2.symbol x).offset = some offset ∧
    ∀ i s, r.placed.2.operandOf x i s = .mem (.frame offset)
  /-- Any other name was bound in the file scope. -/
  global : ¬r.closed.DeclaredIn f.scope x → r.Filed o x ∧ (r.placed.2.symbol x).offset = none ∧
    ∀ i s, r.placed.2.operandOf x i s = .mem (.global (r.closed.symbol x).name)
  /-- No other function has a slot for it. -/
  own : ∀ g k, (g, k) ∈ r.unit.functions.zip r.placed.1 → x ∈ k.slots.map (·.symbol) → g = f

section
variable {o : Options} {r : Reading} {f g : Function} {x : SymbolId}

/-- Functions lie side by side in the file scope. -/
theorem Collected.separates (h : r.Collected o) : r.table.Separates r.unit.functions := by
  have hdistinct : r.unit.functions.Pairwise fun f g => f.scope ≠ g.scope :=
    List.pairwise_map.mp h.distinct
  refine hdistinct.imp_of_mem fun {f g} hf hg hne => ⟨fun hfg => hne ?_, fun hgf => hne ?_⟩
  · exact SymbolTable.Encloses.of_siblings h.reachable.tree (h.child f hf) (h.child g hg) hfg
  · exact (SymbolTable.Encloses.of_siblings h.reachable.tree (h.child g hg) (h.child f hf) hgf).symm

/-- What was in the file scope is in no function. -/
theorem Collected.not_declaredIn (h : r.Collected o) (hquiet : r.checker.Quiet)
    (hf : f ∈ r.unit.functions) (hx : r.Filed o x) : ¬r.table.DeclaredIn f.scope x := by
  rintro ⟨p, hp, hmem⟩
  exact hx.not_mem_symbols hquiet (hp.ne_file h.reachable.tree (h.child f hf)) hmem

theorem Collected.stored_of_declaredIn (h : r.Collected o) (hf : f ∈ r.unit.functions)
    (hx : r.closed.DeclaredIn f.scope x) : r.Stored o f (Frame.layout r.closed f) x := by
  have hclosed : r.closed.Reachable := h.reachable.closeScope
  obtain ⟨slot, hslot, rfl⟩ := List.mem_map.mp ((SymbolTable.mem_slots_iff hclosed f x).mpr hx)
  have hsettled := Function.settled_allocateAll hclosed h.separates hf
  rw [Function.Settled, Frame.layout_congr (SymbolTable.scopes_allocateAll ..)
    (SymbolTable.ty_allocateAll _ _)] at hsettled
  have hoffset : (r.placed.2.symbol slot.symbol).offset = some slot.offset := hsettled slot hslot
  constructor
  case offset => simp [hoffset, hx]
  case frame =>
    refine fun _ => ⟨slot.offset, hslot, fun s hs heq => ?_, hoffset, fun i s => ?_⟩
    · have hother := hsettled s hs
      rw [heq] at hother
      exact Option.some.inj (hother.symm.trans hoffset)
    · rw [SymbolTable.operandOf_eq, Symbol.home, hoffset]
  case global => exact fun hnot => absurd hx hnot
  case own =>
    intro g k hg hk
    obtain ⟨hmem, rfl⟩ := SymbolTable.mem_zip_allocateAll hg
    exact h.eq_of_declaredIn hf hmem hx ((SymbolTable.mem_slots_iff hclosed g _).mp hk)

theorem Collected.stored_of_filed (h : r.Collected o) (hquiet : r.checker.Quiet)
    (hf : f ∈ r.unit.functions) (hx : r.Filed o x) :
    r.Stored o f (Frame.layout r.closed f) x := by
  have hclosed : r.closed.Reachable := h.reachable.closeScope
  have hunplaced : r.closed.Unplaced := h.unplaced
  have hnone : ∀ g ∈ r.unit.functions, ¬r.closed.DeclaredIn g.scope x := fun g hg =>
    h.not_declaredIn hquiet hg hx
  have hsymbol : r.placed.2.symbol x = r.closed.symbol x :=
    SymbolTable.symbol_allocateAll hclosed hnone
  have hoffset : (r.closed.symbol x).offset = none := hunplaced.offset x
  constructor
  case offset => simp [hsymbol, hoffset, hnone f hf]
  case frame => exact fun hdeclared => absurd hdeclared (hnone f hf)
  case global =>
    refine fun _ => ⟨hx, hsymbol ▸ hoffset, fun i s => ?_⟩
    rw [SymbolTable.operandOf_eq, hsymbol, Symbol.home, hoffset]
  case own =>
    intro g k hg hk
    obtain ⟨hmem, rfl⟩ := SymbolTable.mem_zip_allocateAll hg
    exact absurd ((SymbolTable.mem_slots_iff hclosed g x).mp hk) (hnone g hmem)

end

/-- When reading reports nothing, every identifier in a function is stored right: in the slot of the
function's own frame if one of its scopes declares it, and under its name if the file scope did. -/
theorem stored_of_reached {o : Options} {r : Reading} (h : Reached o r)
    (hquiet : r.checker.log.entries = []) {f : Function} {l : Layout}
    (hf : (f, l) ∈ r.unit.functions.zip r.placed.1) {e : Expr} (he : e ∈ Stmt.exprsAll f.body)
    {x : SymbolId} {i : Expr.Info} (hx : .ident x i ∈ e.subexprs) : r.Stored o f l x := by
  have hcollected := (h.tidy hquiet).collected
  obtain ⟨hmem, rfl⟩ := SymbolTable.mem_zip_allocateAll hf
  rcases hcollected.placed f hmem e he _ hx x i rfl with hdeclared | hfiled
  · exact hcollected.stored_of_declaredIn hmem hdeclared
  · exact hcollected.stored_of_filed hquiet hmem hfiled

/-! ### A function that adds its parameter to a file-level variable -/

namespace Adding

def options : Options := ⟨.linux, false⟩

def parameter : Expr := .ident ⟨2⟩ (.place .int)

def total : Expr := .ident ⟨0⟩ (.place .int)

def sum : Expr := (Typing.binary .add parameter total).node

def result : Stmt := (Typing.ret .int sum).node

def draft (names : List SymbolId) (exprs : List Expr) (stmts : List Stmt) : Draft :=
  ⟨⟨1⟩, ⟨1⟩, [], names, exprs, stmts⟩

def declared : Reading :=
  ((((start options).declare "total" .int).define "add" (.func .int 0 [.int])).declare "n"
    .int).setDraft (draft [] [] [])

def named : Reading := (declared.resolve (draft [] [] []) "n").resolve (draft [⟨2⟩] [] []) "total"

def added : Reading :=
  ((named.addExpr (draft [⟨0⟩, ⟨2⟩] [] []) ⟨parameter, none⟩).addExpr
    (draft [⟨0⟩, ⟨2⟩] [parameter] []) ⟨total, none⟩).addExpr
      (draft [⟨0⟩, ⟨2⟩] [total, parameter] []) (Typing.binary .add parameter total)

def returned : Reading :=
  added.addStmt (draft [⟨0⟩, ⟨2⟩] [sum, total, parameter] []) (Typing.ret .int sum)

def read : Reading :=
  returned.finish (draft [⟨0⟩, ⟨2⟩] [sum, total, parameter] [result]) [result]

def function : Function := ⟨⟨1⟩, ⟨1⟩, [result]⟩

theorem reached_declared : Reached options declared :=
  ((Relation.ReflTransGen.single (.globalVariable "total" .int rfl)).tail
    (.define "add" rfl rfl)).tail
      (.param (d := { draft [] [] [] with awaited := [.int] }) "n" rfl rfl)

theorem reached_added : Reached options added := by
  have hnamed : Reached options named :=
    (reached_declared.tail (.resolve "n" rfl)).tail (.resolve "total" rfl)
  have hparameter : Rule named.table (· ∈ [⟨0⟩, ⟨2⟩]) [] ⟨parameter, none⟩ :=
    .ident (x := ⟨2⟩) (by decide)
  have htotal : Rule named.table (· ∈ [⟨0⟩, ⟨2⟩]) [parameter] ⟨total, none⟩ :=
    .ident (x := ⟨0⟩) (by decide)
  exact ((hnamed.tail (.expr rfl hparameter)).tail (.expr rfl htotal)).tail
    (.expr rfl (.binary .add (List.mem_cons_of_mem _ List.mem_cons_self) List.mem_cons_self))

theorem reached_read : Reached options read :=
  (reached_added.tail (.stmt rfl (.ret List.mem_cons_self))).tail
    (.finish rfl rfl rfl fun _ hst => hst)

end Adding

open Adding in
theorem stored_of_reached_sum :
    Reached options read ∧ read.checker.log.entries = [] ∧ read.unit.functions = [function] ∧
      read.Stored options function (Frame.layout read.closed function) ⟨2⟩ ∧
      read.closed.DeclaredIn function.scope ⟨2⟩ ∧
      read.Stored options function (Frame.layout read.closed function) ⟨0⟩ ∧
      read.placed.2.operandOf ⟨0⟩ total.info (.start true) = .mem (.global "total") := by
  have hquiet : read.checker.log.entries = [] := rfl
  have hzip : (function, Frame.layout read.closed function) ∈
      read.unit.functions.zip read.placed.1 := List.mem_cons_self
  have hbody : sum ∈ Stmt.exprsAll function.body := List.mem_cons_self
  have hn := stored_of_reached reached_read hquiet hzip hbody (x := ⟨2⟩) (i := parameter.info)
    (List.mem_cons_of_mem _ List.mem_cons_self)
  have htotal := stored_of_reached reached_read hquiet hzip hbody (x := ⟨0⟩) (i := total.info)
    (List.mem_cons_of_mem _ (List.mem_cons_of_mem _ List.mem_cons_self))
  have hdeclared : read.closed.DeclaredIn function.scope ⟨2⟩ := ⟨⟨1⟩, .refl, List.mem_cons_self⟩
  have hcollected := (reached_read.tidy hquiet).collected
  have hfiled : ¬read.closed.DeclaredIn function.scope ⟨0⟩ := by
    refine hcollected.not_declaredIn hquiet List.mem_cons_self ?_
    exact ⟨read, reached_read, .refl, List.mem_cons_self⟩
  exact ⟨reached_read, hquiet, rfl, hn, hdeclared, htotal, (htotal.global hfiled).2.2 _ _⟩

end Reading

end LittleC
