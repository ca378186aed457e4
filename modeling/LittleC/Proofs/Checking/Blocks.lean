import LittleC.Proofs.Checking.Serving

/-! # Names after a block

Between the opening of a scope and its closing, names go to scopes that opened since, functions
apart. So after the block every name stands for what it stood for before, unless a function was
given that name. -/

namespace LittleC

namespace Request

/-- Requests in which every scope that opens closes again, and no other scope closes. -/
inductive Balanced : List Request → Prop where
  | nil : Balanced []
  | cons {q : Request} {qs : List Request} (hopen : q ≠ .openScope) (hclose : q ≠ .closeScope)
      (hrest : Balanced qs) : Balanced (q :: qs)
  | block {inner rest : List Request} (hinner : Balanced inner) (hrest : Balanced rest) :
      Balanced (.openScope :: (inner ++ .closeScope :: rest))

/-- The names that are declared or defined as functions. -/
def functionNames (qs : List Request) : List String := qs.filterMap functionName?

theorem functionNames_cons (q : Request) (qs : List Request) :
    functionNames (q :: qs) = q.functionName?.toList ++ functionNames qs := by
  rw [functionNames, List.filterMap_cons]
  cases q.functionName? <;> rfl

theorem functionNames_append (qs rs : List Request) :
    functionNames (qs ++ rs) = functionNames qs ++ functionNames rs := List.filterMap_append

end Request

namespace SymbolTable

/-- From table `t` on the scopes `blocks` were opened and are still open. What the scopes of `t`
bind has stayed, up to functions of the given names in the file scope. -/
structure Deepens (t : SymbolTable) (functions : List String) (blocks : List ScopeId)
    (u : SymbolTable) : Prop where
  reachable : u.Reachable
  entries : t.entries <+: u.entries
  scopes : t.scopes.length ≤ u.scopes.length
  chain : u.chain = blocks ++ t.chain
  young : ∀ b ∈ blocks, t.scopes.length ≤ b.index
  bindings : ∀ p, p.index < t.scopes.length → p ≠ .file →
    (u.scope p).bindings = (t.scope p).bindings
  file : ∀ name, name ∉ functions → u.findIn? .file name = t.findIn? .file name

section
variable {t u v : SymbolTable} {functions : List String} {blocks : List ScopeId} {b id : ScopeId}
  {s : Symbol} {q : Request}

theorem Deepens.refl (ht : t.Reachable) (functions : List String) : t.Deepens functions [] t where
  reachable := ht
  entries := List.prefix_rfl
  scopes := Nat.le_refl _
  chain := rfl
  young _ hb := absurd hb List.not_mem_nil
  bindings _ _ _ := rfl
  file _ _ := rfl

/-! ## Opening and closing -/

theorem Deepens.openScope (h : t.Deepens functions blocks u) :
    t.Deepens functions (⟨u.scopes.length⟩ :: blocks) u.openScope.2 where
  reachable := h.reachable.openScope
  entries := h.entries.trans (grows_openScope h.reachable.tree).entries
  scopes := Nat.le_trans h.scopes (grows_openScope h.reachable.tree).scopes
  chain := by rw [chain_openScope, h.chain, List.cons_append]
  young := List.forall_mem_cons.mpr ⟨h.scopes, h.young⟩
  bindings p hp hfile := by
    rw [(u.scope_openScope h.reachable.tree p).1]
    exact h.bindings p hp hfile
  file name hname := by
    rw [findIn?_openScope h.reachable.tree]
    exact h.file name hname

theorem Deepens.closeScope (h : t.Deepens functions (b :: blocks) u) :
    t.Deepens functions blocks u.closeScope.2 where
  reachable := h.reachable.closeScope
  entries := h.entries
  scopes := h.scopes
  chain := by
    show u.chain.tail = blocks ++ t.chain
    rw [h.chain]
    rfl
  young b hb := h.young b (List.mem_cons_of_mem _ hb)
  bindings := h.bindings
  file := h.file

/-! ## New names -/

/-- A name that is added to a scope that opened since. -/
theorem Deepens.insertIn_young (h : t.Deepens functions blocks u) (hid : t.scopes.length ≤ id.index)
    (hpos : 0 < t.scopes.length) (s : Symbol) : t.Deepens functions blocks (u.insertIn id s).2 where
  reachable := h.reachable.insertIn id s
  entries := h.entries.trans (List.prefix_append ..)
  scopes := Nat.le_trans h.scopes (Nat.le_of_eq (length_insertIn u id s).symm)
  chain := h.chain
  young := h.young
  bindings p hp hfile := by
    have hne : p ≠ id := by
      rintro rfl
      exact absurd hp (Nat.not_lt_of_le hid)
    rw [bindings_insertIn, if_neg fun hand => hne hand.1]
    exact h.bindings p hp hfile
  file name hname := by
    have hne : ScopeId.file ≠ id := by
      rintro rfl
      exact absurd hpos (Nat.not_lt_of_le hid)
    rw [findIn?_insertIn_of_scope_ne hne]
    exact h.file name hname

/-- A function that is added to the file scope. -/
theorem Deepens.insertIn_file (h : t.Deepens functions blocks u) (hname : s.name ∈ functions) :
    t.Deepens functions blocks (u.insertIn .file s).2 where
  reachable := h.reachable.insertIn .file s
  entries := h.entries.trans (List.prefix_append ..)
  scopes := Nat.le_trans h.scopes (Nat.le_of_eq (length_insertIn u .file s).symm)
  chain := h.chain
  young := h.young
  bindings p hp hfile := by
    rw [bindings_insertIn, if_neg fun hand => hfile hand.1]
    exact h.bindings p hp hfile
  file name hother := by
    have hne : name ≠ s.name := by
      rintro rfl
      exact hother hname
    rw [findIn?_insertIn_of_ne .file .file hne]
    exact h.file name hother

theorem Deepens.replaceIn_file (h : t.Deepens functions blocks u) (hname : s.name ∈ functions) :
    t.Deepens functions blocks (u.replaceIn .file s).2 where
  reachable := h.reachable.replaceIn .file s
  entries := h.entries.trans (List.prefix_append ..)
  scopes := by
    have hlength : (u.replaceIn .file s).2.scopes.length = u.scopes.length :=
      (length_insertIn _ _ _).trans (List.length_modify ..)
    exact Nat.le_trans h.scopes (Nat.le_of_eq hlength.symm)
  chain := h.chain
  young := h.young
  bindings p hp hfile := by
    rw [replaceIn, bindings_insertIn, if_neg fun hand => hfile hand.1, scope_modifyScope,
      if_neg fun hand => hfile hand.1]
    exact h.bindings p hp hfile
  file name hother := by
    have hne : name ≠ s.name := by
      rintro rfl
      exact hother hname
    rw [findIn?_replaceIn_of_ne .file .file hne]
    exact h.file name hother

/-- Within a block, a name is added to the block. -/
theorem Deepens.insert (h : t.Deepens functions (b :: blocks) u) (hpos : 0 < t.scopes.length)
    (s : Symbol) : t.Deepens functions (b :: blocks) (u.insert s).2 := by
  have hcurrent : u.current? = some b := by
    rw [current?, h.chain]
    rfl
  rw [SymbolTable.insert, hcurrent]
  exact h.insertIn_young (h.young b List.mem_cons_self) hpos s

theorem Deepens.withFile (h : t.Deepens functions blocks u) (hpos : 0 < t.scopes.length) :
    u.withFile = u := by
  have hne : u.scopes ≠ [] := List.length_pos_iff.mp (Nat.lt_of_lt_of_le hpos h.scopes)
  exact if_neg fun hempty => hne (List.isEmpty_iff.mp hempty)

/-! ## Requests -/

/-- What a request within a block leaves, if it neither opens nor closes a scope. -/
theorem Deepens.serves (h : t.Deepens functions (b :: blocks) u) (hpos : 0 < t.scopes.length)
    (hq : u.Serves q v) (hopen : q ≠ .openScope) (hclose : q ≠ .closeScope)
    (hname : ∀ name ∈ q.functionName?, name ∈ functions) :
    t.Deepens functions (b :: blocks) v := by
  cases hq with
  | line | rebind | known | expr | stmt | function => exact h
  | openScope => exact absurd rfl hopen
  | closeScope => exact absurd rfl hclose
  | define name ty =>
      rw [h.withFile hpos]
      exact h.replaceIn_file (hname name rfl)
  | declare ty =>
      rw [h.withFile hpos]
      exact h.insertIn_file (hname _ rfl)
  | redeclare ty =>
      rw [h.withFile hpos]
      exact h
  | bind ty => exact h.insert hpos _
  | unknown => exact h.insert hpos _

/-- Balanced requests within a block leave it open. -/
theorem Deepens.serveAll {qs : List Request} (hqs : Request.Balanced qs) {c : Checker}
    (h : t.Deepens functions (b :: blocks) c.symbols) (hpos : 0 < t.scopes.length)
    (hnames : ∀ name ∈ Request.functionNames qs, name ∈ functions) :
    t.Deepens functions (b :: blocks) (c.serveAll qs).symbols := by
  induction hqs generalizing b blocks c with
  | nil => exact h
  | @cons q qs hopen hclose _ ih =>
      rw [Request.functionNames_cons] at hnames
      rw [Checker.serveAll_cons]
      apply ih
      · refine h.serves hpos (c.serves_serve q) hopen hclose ?_
        intro name hname
        exact hnames name (List.mem_append_left _ (Option.mem_toList.mpr hname))
      · intro name hname
        exact hnames name (List.mem_append_right _ hname)
  | @block inner rest _ _ ihinner ihrest =>
      -- The inner block is one more open scope, and its closing leaves those around it.
      rw [Request.functionNames_cons, Request.functionNames_append, Request.functionNames_cons]
        at hnames
      rw [Checker.serveAll_cons, Checker.serveAll_append, Checker.serveAll_cons]
      have hinner := ihinner (c := c.serve .openScope) h.openScope fun name hname =>
        hnames name (List.mem_append_right _ (List.mem_append_left _ hname))
      apply ihrest
      · exact hinner.closeScope
      · intro name hname
        exact hnames name (List.mem_append_right _ (List.mem_append_right _
          (List.mem_append_right _ hname)))

/-! ## Finding names -/

/-- Looking a name up depends on what the open scopes bind it to. -/
theorem lookup?_congr {name : String} (hchain : u.chain = t.chain)
    (h : ∀ p ∈ t.chain, u.findIn? p name = t.findIn? p name) : u.lookup? name = t.lookup? name := by
  unfold SymbolTable.lookup?
  rw [hchain]
  generalize t.chain = chain at h
  induction chain with
  | nil => rfl
  | cons p chain ih =>
      rw [List.findSome?_cons, List.findSome?_cons, h p List.mem_cons_self]
      rw [ih fun p hp => h p (List.mem_cons_of_mem _ hp)]

/-- Once all blocks are closed, an open scope binds a name to what it did before. -/
theorem Deepens.findIn? (h : t.Deepens functions [] u) (ht : t.Tree)
    {p : ScopeId} (hp : p ∈ t.chain)
    {name : String} (hname : name ∉ functions) : u.findIn? p name = t.findIn? p name := by
  by_cases hfile : p = .file
  · rw [hfile]
    exact h.file name hname
  · unfold SymbolTable.findIn? Scope.find?
    rw [h.bindings p (ht.chain_lt p hp) hfile]

theorem Deepens.find? (h : t.Deepens functions [] u) (ht : t.Tree) {name : String}
    (hname : name ∉ functions) : u.find? name = t.find? name := by
  rw [SymbolTable.find?, SymbolTable.find?, current?, current?, h.chain, List.nil_append]
  cases hchain : t.chain with
  | nil => rfl
  | cons p chain => exact h.findIn? ht (hchain ▸ List.mem_cons_self) hname

theorem Deepens.lookup? (h : t.Deepens functions [] u) (ht : t.Tree) {name : String}
    (hname : name ∉ functions) : u.lookup? name = t.lookup? name :=
  lookup?_congr h.chain fun _ hp => h.findIn? ht hp hname

end

end SymbolTable

namespace Checker

/-- A block brings the names back. When a scope has opened and closed again, with any requests in
between whose scopes are balanced, the same scope is the innermost, every name that no function was
given in between stands for the same symbol, and no scope that there was before has changed its
bindings, the file scope apart. -/
theorem names_restored {c : Checker} (hc : c.symbols.Reachable) (hopen : c.symbols.current? ≠ none)
    {qs : List Request} (hqs : Request.Balanced qs) :
    let t := c.symbols
    let u := (c.serveAll (.openScope :: (qs ++ [.closeScope]))).symbols
    u.current? = t.current? ∧
      (∀ name, name ∉ Request.functionNames qs →
        u.find? name = t.find? name ∧ u.lookup? name = t.lookup? name) ∧
      (∀ p, p.index < t.scopes.length → p ≠ .file → (u.scope p).bindings = (t.scope p).bindings) ∧
      t.entries <+: u.entries := by
  intro t u
  have htree : t.Tree := hc.tree
  have hpos : 0 < t.scopes.length := by
    obtain ⟨p, hp⟩ := Option.ne_none_iff_exists'.mp hopen
    exact Nat.zero_lt_of_lt (htree.chain_lt p (List.mem_of_mem_head? hp))
  have hopened : t.Deepens (Request.functionNames qs) [⟨t.scopes.length⟩]
      (c.serve .openScope).symbols :=
    (SymbolTable.Deepens.refl hc _).openScope
  have hinner := hopened.serveAll hqs hpos fun name hname => hname
  have hclosed : t.Deepens (Request.functionNames qs) [] u := by
    show t.Deepens _ _ (c.serveAll _).symbols
    rw [serveAll_cons, serveAll_append]
    exact hinner.closeScope
  refine ⟨?_, ?_, hclosed.bindings, hclosed.entries⟩
  · exact congrArg List.head? hclosed.chain
  · intro name hname
    exact ⟨hclosed.find? htree hname, hclosed.lookup? htree hname⟩

/-- A block declares `a` over the file-level `a`, and within it another block uses an unknown name
and declares a function. -/
theorem names_restored_shadowed :
    let c := empty.serveAll [.openScope, .declareVariable "a" .int, .openScope,
      .declareVariable "b" .long]
    let qs : List Request := [.declareVariable "a" .char, .openScope, .resolve "c",
      .declareFunction "f" (.func .int 0 []), .closeScope, .resolve "b"]
    let u := (c.serveAll (.openScope :: (qs ++ [.closeScope]))).symbols
    c.symbols.Reachable ∧ c.symbols.current? ≠ none ∧ Request.Balanced qs ∧
      (c.serveAll (.openScope :: qs)).symbols.lookup? "a" = some ⟨2⟩ ∧
      u.current? = some ⟨1⟩ ∧ u.lookup? "a" = some ⟨0⟩ ∧ u.find? "b" = some ⟨1⟩ ∧
      u.lookup? "c" = none ∧ (u.scope ⟨1⟩).bindings = [("b", ⟨1⟩)] ∧
      u.lookup? "f" = some ⟨4⟩ ∧ c.symbols.lookup? "f" = none := by
  intro c qs u
  have hreachable : c.symbols.Reachable := reachable_serveAll .empty _
  have hopen : c.symbols.current? ≠ none := by decide
  have hinner : Request.Balanced [.resolve "c", .declareFunction "f" (.func .int 0 [])] :=
    .cons nofun nofun (.cons nofun nofun .nil)
  have hqs : Request.Balanced qs :=
    .cons nofun nofun (.block hinner (.cons nofun nofun .nil))
  obtain ⟨hcurrent, hnames, hbindings, -⟩ := names_restored hreachable hopen hqs
  refine ⟨hreachable, hopen, hqs, by decide, hcurrent, ?_, ?_, ?_, ?_, by decide, by decide⟩
  · exact (hnames "a" (by decide)).2
  · exact (hnames "b" (by decide)).1
  · exact (hnames "c" (by decide)).2
  · exact hbindings ⟨1⟩ (by decide) (by decide)

end Checker

end LittleC
