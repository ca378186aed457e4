import LittleC.Proofs.Checking.Scopes
import LittleC.Proofs.Checking.Session

/-! # Parameters in the scope of a body

The parameters of a definition are declared before anything else is in the scope of its body. When
nothing is reported they are the first symbols of that scope, with the types that the name of the
function lists. -/

namespace LittleC

namespace SymbolTable

/-- The types of what a scope declares, in order. -/
def types (t : SymbolTable) (scope : ScopeId) : List Ty :=
  (t.symbols scope).map fun x => (t.symbol x).ty

/-- The listed parameter types of a function, none for an unspecified list. -/
def listed (t : SymbolTable) (x : SymbolId) : List Ty := (t.symbol x).ty.params?.getD []

/-- All parameters but the ones that are awaited stand in the scope. While some are, nothing else
does, and the scope is the innermost one. -/
def Awaits (t : SymbolTable) (x : SymbolId) (scope : ScopeId) (awaited : List Ty) : Prop :=
  ∃ declared, t.listed x = declared ++ awaited ∧ declared <+: t.types scope ∧
    (awaited ≠ [] → declared = t.types scope ∧ t.current? = some scope)

section
variable {t u : SymbolTable} {x : SymbolId} {scope : ScopeId} {awaited : List Ty} {name : String}
  {ty : Ty}

/-- What is listed for a name stands in an entry. -/
theorem forall_listed {P : Ty → Prop} (h : ∀ s ∈ t.entries, ∀ p ∈ s.ty.params?.getD [], P p)
    (x : SymbolId) : ∀ p ∈ t.listed x, P p := by
  by_cases hx : t.Has x
  · have hsymbol : t.symbol x = t.entries[x.index] := by simp [symbol, List.getElem?_eq_getElem hx]
    rw [listed, hsymbol]
    exact h _ (List.getElem_mem hx)
  · have hnone : t.symbol x = default := by
      simp [symbol, List.getElem?_eq_none (Nat.le_of_not_lt hx)]
    rw [listed, hnone]
    exact fun p hp => absurd hp List.not_mem_nil

theorem Has.mono (h : t.Has x) (hentries : t.entries <+: u.entries) : u.Has x :=
  Nat.lt_of_lt_of_le h hentries.length_le

theorem map_types_of_grows (h : t.Grows u) (ht : t.Bound) (scope : ScopeId) :
    (t.symbols scope).map (fun x => (u.symbol x).ty) = t.types scope := by
  refine List.map_congr_left fun x hx => ?_
  rw [h.symbol (lt_of_mem_symbols ht hx)]

theorem Grows.types (h : t.Grows u) (ht : t.Bound) (hscope : scope ≠ .file) :
    t.types scope <+: u.types scope := by
  rw [← map_types_of_grows h ht scope]
  exact (h.symbols scope hscope).map _

theorem Grows.listed (h : t.Grows u) (hx : t.Has x) : u.listed x = t.listed x := by
  rw [SymbolTable.listed, h.symbol hx, SymbolTable.listed]

/-- In a new scope all parameters are awaited. -/
theorem awaits_openScope (ht : t.Tree) (x : SymbolId) :
    t.openScope.2.Awaits x t.openScope.1 (t.openScope.2.listed x) := by
  refine ⟨[], rfl, List.nil_prefix, fun _ => ⟨?_, congrArg List.head? t.chain_openScope⟩⟩
  have hnew : (t.openScope.2.scope t.openScope.1).bindings = [] := by
    rw [(t.scope_openScope ht _).1, scope_of_le (q := t.openScope.1) (Nat.le_refl t.scopes.length)]
    rfl
  rw [SymbolTable.types, symbols, hnew]
  rfl

/-- Where parameters are awaited still, nothing may come into the scope or be opened inside it. -/
theorem Awaits.step (h : t.Awaits x scope awaited) (hgrows : t.Grows u) (ht : t.Bound)
    (hscope : scope ≠ .file) (hx : t.Has x)
    (hsame : awaited ≠ [] → u.symbols scope = t.symbols scope ∧ u.current? = t.current?) :
    u.Awaits x scope awaited := by
  obtain ⟨declared, hlisted, hprefix, hawaited⟩ := h
  refine ⟨declared, (hgrows.listed hx).trans hlisted, hprefix.trans (hgrows.types ht hscope),
    fun hne => ?_⟩
  obtain ⟨hall, hcurrent⟩ := hawaited hne
  obtain ⟨hsymbols, hchain⟩ := hsame hne
  refine ⟨?_, hchain.trans hcurrent⟩
  rw [SymbolTable.types, hsymbols, map_types_of_grows hgrows ht, hall]

/-- The next parameter comes into the scope. -/
theorem Awaits.insertIn (h : t.Awaits x scope (ty :: awaited)) (ht : t.Bound) (hx : t.Has x)
    (hlt : scope.index < t.scopes.length) (hnew : t.findIn? scope name = none) :
    (t.insertIn scope (.fresh name ty)).2.Awaits x scope awaited := by
  obtain ⟨declared, hlisted, -, hawaited⟩ := h
  obtain ⟨rfl, hcurrent⟩ := hawaited (List.cons_ne_nil _ _)
  have hgrows : t.Grows (t.insertIn scope (.fresh name ty)).2 := grows_insertIn (.inr hnew)
  have htypes : (t.insertIn scope (.fresh name ty)).2.types scope = t.types scope ++ [ty] := by
    have hsymbol := t.symbol_insertIn scope (.fresh name ty)
    rw [SymbolTable.types, symbols_insertIn hnew hlt, List.map_append, map_types_of_grows hgrows ht]
    exact congrArg (t.types scope ++ [·]) (congrArg Symbol.ty hsymbol)
  refine ⟨t.types scope ++ [ty], ?_, ?_, fun _ => ⟨htypes.symm, hcurrent⟩⟩
  · rw [hgrows.listed hx, hlisted, List.append_assoc, List.singleton_append]
  · exact htypes ▸ List.prefix_rfl

theorem Awaits.current (h : t.Awaits x scope awaited) (hne : awaited ≠ []) :
    t.current? = some scope := by
  obtain ⟨_, _, _, hawaited⟩ := h
  exact (hawaited hne).2

theorem Awaits.of_nil (h : t.Awaits x scope []) : t.listed x <+: t.types scope := by
  obtain ⟨declared, hlisted, hprefix, -⟩ := h
  rwa [hlisted, List.append_nil]

end

end SymbolTable

namespace Checker

section
variable {c : Checker} {name : String} {ty : Ty} {scope : ScopeId}

/-- Function names go to the file scope. -/
theorem symbols_declareFunction (h : 0 < c.symbols.scopes.length)
    (hquiet : (c.declareFunction name ty).2.Quiet) (hscope : scope ≠ .file) :
    (c.declareFunction name ty).2.symbols.symbols scope = c.symbols.symbols scope := by
  rcases declareFunction_of_quiet hquiet with ⟨id, -, -, heq⟩ | ⟨-, heq⟩
  · rw [heq, outermost_eq h]
  · rw [heq, outermost_eq h]
    exact SymbolTable.symbols_insertIn_of_ne hscope

/-- In a scope inside another one a variable is new. -/
theorem declareVariable_inner {p : ScopeId} (hcurrent : c.symbols.current? = some scope)
    (hinner : (c.symbols.scope scope).parent = some p)
    (hquiet : (c.declareVariable name ty).2.Quiet) :
    c.symbols.findIn? scope name = none ∧
      (c.declareVariable name ty).2.symbols = (c.symbols.insertIn scope (.fresh name ty)).2 := by
  rcases declareVariable_of_quiet hquiet with ⟨x, -, hfile, -⟩ | ⟨hfind, heq⟩
  · simp [SymbolTable.atOutermost, hcurrent, hinner] at hfile
  · rw [SymbolTable.find?, hcurrent, Option.bind_some] at hfind
    exact ⟨hfind, by rw [heq, symbols_insert hcurrent]⟩

/-! ## The result type of the function -/

theorem returnType_declareFunction (c : Checker) (name : String) (ty : Ty) :
    (c.declareFunction name ty).2.returnType = c.returnType := by
  have hfile : c.outermost.2.returnType = c.returnType := by
    unfold outermost
    split <;> rfl
  unfold declareFunction
  dsimp only
  split
  · rw [returnType_reportAny, hfile]
  · exact hfile

theorem returnType_declareVariable (c : Checker) (name : String) (ty : Ty) :
    (c.declareVariable name ty).2.returnType = c.returnType := by
  unfold declareVariable
  split
  · split
    · exact returnType_reportAny _ _
    · rfl
  · rfl

theorem returnType_resolve (c : Checker) (name : String) :
    (c.resolve name).2.returnType = c.returnType := by
  unfold resolve
  split <;> rfl

end

end Checker

end LittleC
