import LittleC.Proofs.Checking.Reading

/-! # Where the names of a function are declared

While a function is read, the open scopes are blocks of its body, the scope of the body and the file
scope. So a name of the body stands for a symbol of one of its own scopes or of the file scope, and
the scopes of one function lie apart from those of another. -/

namespace LittleC

/-- Declared in a scope or inside it. -/
def SymbolTable.DeclaredIn (t : SymbolTable) (scope : ScopeId) (x : SymbolId) : Prop :=
  ∃ p, t.Encloses scope p ∧ x ∈ t.symbols p

namespace Reading

/-- At some point of reading the symbol was bound in the file scope. -/
def Filed (o : Options) (r : Reading) (x : SymbolId) : Prop :=
  ∃ earlier, Reached o earlier ∧ Steps earlier r ∧ x ∈ earlier.table.symbols .file

/-- What a name can stand for in a function with the given scope. -/
def Placed (o : Options) (r : Reading) (scope : ScopeId) (x : SymbolId) : Prop :=
  r.table.DeclaredIn scope x ∨ r.Filed o x

/-- What holds of the functions that were collected. -/
structure Collected (o : Options) (r : Reading) : Prop where
  reachable : r.table.Reachable
  unplaced : r.table.Unplaced
  file : 0 < r.table.scopes.length
  child : ∀ f ∈ r.unit.functions, r.table.Child .file f.scope
  distinct : (r.unit.functions.map (·.scope)).Nodup
  placed : ∀ f ∈ r.unit.functions, ∀ e ∈ Stmt.exprsAll f.body, e.Names (r.Placed o f.scope)

/-- The open scopes are blocks of a function, the scope of its body and the file scope. -/
def Blocks (r : Reading) (scope : ScopeId) : Prop :=
  ∃ blocks, r.table.chain = blocks ++ [scope, .file] ∧
    ∀ b ∈ blocks, b ≠ scope ∧ r.table.Encloses scope b

/-- What holds of the function that is being read. -/
structure Drafted (o : Options) (r : Reading) (d : Draft) : Prop where
  chain : r.Blocks d.scope
  child : r.table.Child .file d.scope
  apart : d.scope ∉ r.unit.functions.map (·.scope)
  names : ∀ x ∈ d.names, r.Placed o d.scope x
  exprs : ∀ e ∈ d.exprs, e.Names (· ∈ d.names)
  stmts : ∀ s ∈ d.stmts, ∀ e ∈ s.exprs, e.Names (· ∈ d.names)

structure Tidy (o : Options) (r : Reading) : Prop where
  collected : r.Collected o
  between : r.draft = none → r.table.chain = [.file]
  within : ∀ d, r.draft = some d → r.Drafted o d

section
variable {o : Options} {r r' : Reading} {d : Draft} {scope : ScopeId} {x : SymbolId}

/-! ## What a step leaves -/

theorem Filed.step (h : r.Filed o x) (hstep : r.Step r') : r'.Filed o x := by
  obtain ⟨earlier, hreached, hsteps, hx⟩ := h
  exact ⟨earlier, hreached, hsteps.tail hstep, hx⟩

theorem Placed.step (h : r.Placed o scope x) (hstep : r.Step r') (ht : r.table.Tree)
    (hchild : r.table.Child .file scope) (hgrows : r.table.Grows r'.table) :
    r'.Placed o scope x := by
  rcases h with ⟨p, hp, hx⟩ | hfiled
  · exact .inl ⟨p, hgrows.encloses hp, hgrows.mem_symbols (hp.ne_file ht hchild) hx⟩
  · exact .inr (hfiled.step hstep)

theorem Collected.step (h : r.Collected o) (hstep : r.Step r') (hchanges : r.table.Changes r'.table)
    (hfunctions : r'.unit.functions = r.unit.functions) : r'.Collected o := by
  have hgrows := hchanges.grows h.reachable
  refine ⟨hchanges.reachable h.reachable, hchanges.unplaced h.unplaced,
    Nat.lt_of_lt_of_le h.file hgrows.scopes, fun f hf => ?_, ?_, fun f hf e he => ?_⟩
  · rw [hfunctions] at hf
    exact hgrows.child (h.child f hf)
  · rw [hfunctions]
    exact h.distinct
  · rw [hfunctions] at hf
    exact (h.placed f hf e he).imp fun _ hx => hx.step hstep h.reachable.tree (h.child f hf) hgrows

theorem Drafted.step (h : r.Drafted o d) (hr : r.Collected o) (hstep : r.Step r')
    (hchanges : r.table.Changes r'.table) (hfunctions : r'.unit.functions = r.unit.functions)
    (hchain : r'.Blocks d.scope) : r'.Drafted o d := by
  have hgrows := hchanges.grows hr.reachable
  refine ⟨hchain, hgrows.child h.child, ?_,
    fun x hx => (h.names x hx).step hstep hr.reachable.tree h.child hgrows, h.exprs, h.stmts⟩
  rw [hfunctions]
  exact h.apart

/-- A declaration leaves the open scopes open. -/
theorem Drafted.declare (h : r.Drafted o d) (hr : r.Collected o) (hstep : r.Step r')
    (hextends : r.table.Extends r'.table) (hfunctions : r'.unit.functions = r.unit.functions) :
    r'.Drafted o d := by
  obtain ⟨blocks, hchain, hblocks⟩ := h.chain
  refine h.step hr hstep hextends.1 hfunctions ⟨blocks, hextends.2.trans hchain, fun b hb => ?_⟩
  exact ⟨(hblocks b hb).1, (hextends.1.grows hr.reachable).encloses (hblocks b hb).2⟩

theorem Tidy.declare (h : r.Tidy o) (hstep : r.Step r') (hextends : r.table.Extends r'.table)
    (hfunctions : r'.unit.functions = r.unit.functions) (hdraft : r'.draft = r.draft) :
    r'.Tidy o where
  collected := h.collected.step hstep hextends.1 hfunctions
  between hnone := hextends.2.trans (h.between (hdraft ▸ hnone))
  within d hd := (h.within d (hdraft ▸ hd)).declare h.collected hstep hextends hfunctions

/-- A step within a function. -/
theorem Tidy.draft (h : r.Tidy o) (hstep : r.Step r') (hchanges : r.table.Changes r'.table)
    (hfunctions : r'.unit.functions = r.unit.functions) (hd : r'.draft = some d)
    (hdrafted : r'.Drafted o d) : r'.Tidy o where
  collected := h.collected.step hstep hchanges hfunctions
  between hnone := absurd (hd.symm.trans hnone) nofun
  within _ hd' := Option.some.inj (hd.symm.trans hd') ▸ hdrafted

/-! ## Opening and closing -/

theorem child_openScope {t : SymbolTable} {p : ScopeId} (ht : t.Tree) (hp : t.current? = some p) :
    t.openScope.2.Child p ⟨t.scopes.length⟩ := by
  refine ⟨?_, ?_⟩
  · rw [SymbolTable.length_openScope]
    exact Nat.lt_succ_self _
  · rw [(t.scope_openScope ht _).2.1, if_pos rfl, hp]

/-- The innermost open scope is one of the function. -/
theorem Drafted.exists_current (h : r.Drafted o d) :
    ∃ p, r.table.current? = some p ∧ r.table.Encloses d.scope p := by
  obtain ⟨blocks, hchain, hblocks⟩ := h.chain
  rw [SymbolTable.current?, hchain]
  cases blocks with
  | nil => exact ⟨d.scope, rfl, .refl⟩
  | cons b blocks => exact ⟨b, rfl, (hblocks b List.mem_cons_self).2⟩

theorem Tidy.openScope (h : r.Tidy o) (hd : r.draft = some d) (hbody : d.awaited = []) :
    (r.setChecker r.checker.openScope.2).Tidy o := by
  have hstep : r.Step (r.setChecker r.checker.openScope.2) := .openScope hd hbody
  have hchanges : r.table.Changes r.table.openScope.2 := .single .openScope
  have hdrafted := h.within d hd
  have ht := h.collected.reachable.tree
  have hgrows := hchanges.grows h.collected.reachable
  obtain ⟨p, hcurrent, hencloses⟩ := hdrafted.exists_current
  obtain ⟨blocks, hchain, hblocks⟩ := hdrafted.chain
  refine h.draft hstep hchanges rfl hd (hdrafted.step h.collected hstep hchanges rfl
    ⟨⟨r.table.scopes.length⟩ :: blocks, ?_, List.forall_mem_cons.mpr ⟨⟨?_, ?_⟩, fun b hb => ?_⟩⟩)
  · exact (r.table.chain_openScope).trans (congrArg (⟨r.table.scopes.length⟩ :: ·) hchain)
  · intro heq
    exact absurd hdrafted.child.1 (heq ▸ Nat.lt_irrefl _)
  · exact (hgrows.encloses hencloses).tail (child_openScope ht hcurrent)
  · exact ⟨(hblocks b hb).1, hgrows.encloses (hblocks b hb).2⟩

theorem Tidy.closeScope (h : r.Tidy o) (hd : r.draft = some d)
    (hinner : r.table.current? ≠ some d.scope) : (r.setChecker r.checker.closeScope.2).Tidy o := by
  have hstep : r.Step (r.setChecker r.checker.closeScope.2) := .closeScope hd hinner
  have hchanges : r.table.Changes r.table.closeScope.2 := .single .closeScope
  have hdrafted := h.within d hd
  have hgrows := hchanges.grows h.collected.reachable
  obtain ⟨blocks, hchain, hblocks⟩ := hdrafted.chain
  refine h.draft hstep hchanges rfl hd (hdrafted.step h.collected hstep hchanges rfl ?_)
  cases blocks with
  | nil => exact absurd (congrArg List.head? hchain) hinner
  | cons b blocks =>
      refine ⟨blocks, congrArg List.tail hchain, fun c hc => ?_⟩
      obtain ⟨hne, hencloses⟩ := hblocks c (List.mem_cons_of_mem b hc)
      exact ⟨hne, hgrows.encloses hencloses⟩

/-! ## Functions -/

theorem Tidy.define (h : r.Tidy o) {name : String} {ty : Ty} (hfile : r.draft = none)
    (hty : ty.isFunction = true) (hquiet : (r.define name ty).checker.Quiet) :
    (r.define name ty).Tidy o := by
  have hstep : r.Step (r.define name ty) := .define name hfile hty
  have hdefined : (r.checker.defineFunction name ty).2.Quiet := hquiet
  obtain ⟨hchanges, hchain⟩ := Checker.extends_defineFunction h.collected.file hdefined
  rw [show r.checker.symbols.chain = [.file] from h.between hfile] at hchain
  have hchanged : r.table.Changes (r.define name ty).table := hchanges.tail .openScope
  have hreachable := hchanges.reachable h.collected.reachable
  have hcollected := h.collected.step hstep hchanged rfl
  refine ⟨hcollected, nofun, fun d hd => ?_⟩
  cases hd
  refine ⟨⟨[], ?_, fun b hb => absurd hb List.not_mem_nil⟩, ?_, ?_,
    fun x hx => absurd hx List.not_mem_nil, fun e he => absurd he List.not_mem_nil,
    fun st hst => absurd hst List.not_mem_nil⟩
  · exact (SymbolTable.chain_openScope _).trans (congrArg (_ :: ·) hchain)
  · exact child_openScope hreachable.tree (congrArg List.head? hchain)
  · intro hmem
    -- The scope is younger than those of all other functions.
    obtain ⟨f, hf, hscope⟩ := List.mem_map.mp hmem
    have hlt := ((hchanges.grows h.collected.reachable).child (h.collected.child f hf)).1
    exact Nat.ne_of_lt hlt (congrArg ScopeId.index hscope)

theorem Tidy.finish (h : r.Tidy o) {body : List Stmt} (hd : r.draft = some d)
    (hbody : d.awaited = []) (houter : r.table.current? = some d.scope)
    (hstmts : ∀ st ∈ body, st ∈ d.stmts) : (r.finish d body).Tidy o := by
  have hstep : r.Step (r.finish d body) := .finish hd hbody houter hstmts
  have hchanges : r.table.Changes (r.finish d body).table := .single .closeScope
  have hdrafted := h.within d hd
  have hgrows := hchanges.grows h.collected.reachable
  have ht := h.collected.reachable.tree
  obtain ⟨blocks, hchain, hblocks⟩ := hdrafted.chain
  have hblocks : blocks = [] := by
    cases blocks with
    | nil => rfl
    | cons b blocks =>
        rw [SymbolTable.current?, hchain] at houter
        exact absurd (Option.some.inj houter) (hblocks b List.mem_cons_self).1
  have hplaced : ∀ e ∈ Stmt.exprsAll body, e.Names ((r.finish d body).Placed o d.scope) := by
    intro e he
    obtain ⟨st, hst, he⟩ := Stmt.mem_exprsAll.mp he
    exact (hdrafted.stmts st (hstmts st hst) e he).imp fun x hx =>
      (hdrafted.names x hx).step hstep ht hdrafted.child hgrows
  refine ⟨⟨hchanges.reachable h.collected.reachable, hchanges.unplaced h.collected.unplaced,
    h.collected.file, ?_, ?_, ?_⟩, fun _ => ?_, nofun⟩
  · refine List.forall_mem_append.mpr ⟨fun f hf => hgrows.child (h.collected.child f hf), ?_⟩
    exact List.forall_mem_singleton.mpr (hgrows.child hdrafted.child)
  · have happend : (r.finish d body).unit.functions.map (·.scope) =
        r.unit.functions.map (·.scope) ++ [d.scope] := List.map_append
    rw [happend]
    refine h.collected.distinct.append (List.nodup_singleton _) fun p hp hp' => ?_
    exact hdrafted.apart (List.mem_singleton.mp hp' ▸ hp)
  · refine List.forall_mem_append.mpr ⟨fun f hf e he => ?_, List.forall_mem_singleton.mpr hplaced⟩
    exact (h.collected.placed f hf e he).imp fun x hx =>
      hx.step hstep ht (h.collected.child f hf) hgrows
  · rw [hblocks] at hchain
    exact congrArg List.tail hchain

/-! ## Every step -/

theorem table_resolve {name : String} (hquiet : (r.resolve d name).checker.Quiet) :
    (r.resolve d name).table = r.table := by
  obtain ⟨x, -, heq⟩ := Checker.resolve_of_quiet (c := r.checker) hquiet
  exact congrArg (·.2.symbols) heq

theorem table_addExpr (r : Reading) (d : Draft) (v : Verdict Expr) :
    (r.addExpr d v).table = r.table := r.checker.symbols_reportAny _

theorem table_addStmt (r : Reading) (d : Draft) (v : Verdict Stmt) :
    (r.addStmt d v).table = r.table := r.checker.symbols_reportAny _

theorem Tidy.exists_current (h : r.Tidy o) : ∃ p, r.table.current? = some p := by
  cases hdraft : r.draft with
  | none => exact ⟨.file, congrArg List.head? (h.between hdraft)⟩
  | some d =>
      obtain ⟨p, hp, -⟩ := (h.within d hdraft).exists_current
      exact ⟨p, hp⟩

theorem Tidy.extends_declare (h : r.Tidy o) {name : String} {ty : Ty}
    (hquiet : (r.declare name ty).checker.Quiet) : r.table.Extends (r.declare name ty).table := by
  obtain ⟨p, hcurrent⟩ := h.exists_current
  exact Checker.extends_declareVariable hcurrent hquiet

/-- A resolved name stands for a symbol of an open scope. -/
theorem Drafted.placed (h : r.Drafted o d) (hreached : Reached o r) {name : String}
    (hlookup : r.table.lookup? name = some x) : r.Placed o d.scope x := by
  obtain ⟨p, hp, hx⟩ := SymbolTable.mem_symbols_of_lookup? hlookup
  obtain ⟨blocks, hchain, hblocks⟩ := h.chain
  rw [hchain] at hp
  rcases List.mem_append.mp hp with hp | hp
  · exact .inl ⟨p, (hblocks p hp).2, hx⟩
  · rcases List.mem_cons.mp hp with rfl | hp
    · exact .inl ⟨d.scope, .refl, hx⟩
    · obtain rfl := List.mem_singleton.mp hp
      exact .inr ⟨r, hreached, .refl, hx⟩

theorem Step.changes (hstep : r.Step r') (hquiet : r'.checker.Quiet) (h : r.Tidy o) :
    r.table.Changes r'.table := by
  cases hstep with
  | line n => exact .refl
  | declareFunction name ty =>
      exact (Checker.extends_declareFunction h.collected.file hquiet).1
  | globalVariable | param | localVariable => exact (h.extends_declare hquiet).1
  | define name =>
      have hdefined : (r.checker.defineFunction name _).2.Quiet := hquiet
      exact (Checker.extends_defineFunction h.collected.file hdefined).1.tail .openScope
  | openScope => exact .single .openScope
  | closeScope | finish => exact .single .closeScope
  | resolve name => exact table_resolve hquiet ▸ .refl
  | expr => exact (r.table_addExpr _ _).symm ▸ .refl
  | stmt => exact (r.table_addStmt _ _).symm ▸ .refl

theorem Step.tidy (hstep : r.Step r') (hreached : Reached o r) (hquiet : r'.checker.Quiet)
    (h : r.Tidy o) : r'.Tidy o := by
  have hsame : r.table.Extends r.table := .refl _
  cases hstep with
  | line n => exact h.declare (.line n) hsame rfl rfl
  | declareFunction name ty =>
      have hextends := Checker.extends_declareFunction h.collected.file hquiet
      exact h.declare (.declareFunction name ty) hextends rfl rfl
  | globalVariable name ty hfile =>
      exact h.declare (.globalVariable name ty hfile) (h.extends_declare hquiet) rfl rfl
  | define name hfile hty => exact h.define hfile hty hquiet
  | @param d name ty rest hd hawaited =>
      have hextends : r.table.Extends (r.declare name ty).table := h.extends_declare hquiet
      have hstep := Step.param name hd hawaited
      have hdrafted := (h.within d hd).declare h.collected hstep hextends rfl
      exact h.draft hstep hextends.1 rfl rfl ⟨hdrafted.chain, hdrafted.child, hdrafted.apart,
        hdrafted.names, hdrafted.exprs, hdrafted.stmts⟩
  | localVariable name ty hd hbody =>
      exact h.declare (.localVariable name ty hd hbody) (h.extends_declare hquiet) rfl rfl
  | openScope hd hbody => exact h.openScope hd hbody
  | closeScope hd hinner => exact h.closeScope hd hinner
  | @resolve d name hd =>
      obtain ⟨x, hlookup, heq⟩ := Checker.resolve_of_quiet (c := r.checker) hquiet
      have hextends : r.table.Extends (r.resolve d name).table := table_resolve hquiet ▸ hsame
      have hstep := Step.resolve name hd
      have hdrafted := (h.within d hd).declare h.collected hstep hextends rfl
      have hx := ((h.within d hd).placed hreached hlookup).step hstep h.collected.reachable.tree
        (h.within d hd).child (hextends.1.grows h.collected.reachable)
      have hnames : ∀ y ∈ (r.checker.resolve name).1 :: d.names,
          (r.resolve d name).Placed o d.scope y := by
        rw [heq]
        exact List.forall_mem_cons.mpr ⟨hx, hdrafted.names⟩
      exact h.draft hstep hextends.1 rfl rfl
        ⟨hdrafted.chain, hdrafted.child, hdrafted.apart, hnames,
        fun e he => (hdrafted.exprs e he).imp fun _ => List.mem_cons_of_mem _,
        fun st hst e he => (hdrafted.stmts st hst e he).imp fun _ => List.mem_cons_of_mem _⟩
  | @expr d v hd hv =>
      have hextends : r.table.Extends (r.addExpr d v).table := (r.table_addExpr d v).symm ▸ hsame
      have hstep := Step.expr hd hv
      have hdrafted := (h.within d hd).declare h.collected hstep hextends rfl
      exact h.draft hstep hextends.1 rfl rfl ⟨hdrafted.chain, hdrafted.child, hdrafted.apart,
        hdrafted.names, List.forall_mem_cons.mpr ⟨hv.names (fun _ hx => hx) hdrafted.exprs,
          hdrafted.exprs⟩, hdrafted.stmts⟩
  | @stmt d v hd hv =>
      have hextends : r.table.Extends (r.addStmt d v).table := (r.table_addStmt d v).symm ▸ hsame
      have hstep := Step.stmt hd hv
      have hdrafted := (h.within d hd).declare h.collected hstep hextends rfl
      exact h.draft hstep hextends.1 rfl rfl ⟨hdrafted.chain, hdrafted.child, hdrafted.apart,
        hdrafted.names, hdrafted.exprs, List.forall_mem_cons.mpr
          ⟨hv.names hdrafted.exprs hdrafted.stmts, hdrafted.stmts⟩⟩
  | finish hd hbody houter hstmts => exact h.finish hd hbody houter hstmts

/-! ## Whole readings -/

theorem tidy_start (o : Options) : (start o).Tidy o where
  collected := {
    reachable := SymbolTable.Reachable.empty.openScope
    unplaced := fun _ hs => absurd hs List.not_mem_nil
    file := Nat.one_pos
    child := fun _ hf => absurd hf List.not_mem_nil
    distinct := List.nodup_nil
    placed := fun _ hf => absurd hf List.not_mem_nil }
  between _ := rfl
  within _ := nofun

theorem Reached.tidy (h : Reached o r) (hquiet : r.checker.Quiet) : r.Tidy o := by
  induction h with
  | refl => exact tidy_start o
  | tail hinit hlast ih => exact hlast.tidy hinit hquiet (ih (hlast.quiet hquiet))

/-- From one point of a reading to a later one the table grows. -/
theorem Reached.grows (h : Reached o r) (hsteps : Steps r r') (hquiet : r'.checker.Quiet) :
    r.table.Grows r'.table := by
  induction hsteps with
  | refl => exact .refl _
  | tail hinit hlast ih =>
      have hquiet' := hlast.quiet hquiet
      have htidy := Reached.tidy (h.trans hinit) hquiet'
      exact (ih hquiet').trans ((hlast.changes hquiet htidy).grows htidy.collected.reachable)

theorem Steps.quiet (h : Steps r r') (hquiet : r'.checker.Quiet) : r.checker.Quiet := by
  induction h with
  | refl => exact hquiet
  | tail _ hlast ih => exact ih (hlast.quiet hquiet)

/-- What was in the file scope never comes into another one. -/
theorem Filed.not_mem_symbols (h : r.Filed o x) (hquiet : r.checker.Quiet) {p : ScopeId}
    (hp : p ≠ .file) : x ∉ r.table.symbols p := by
  obtain ⟨earlier, hreached, hsteps, hx⟩ := h
  have hbound := (hreached.tidy (hsteps.quiet hquiet)).collected.reachable.bound
  intro hmem
  have hold := (hreached.grows hsteps hquiet).mem_of_mem
    (SymbolTable.lt_of_mem_symbols hbound hx) hmem
  exact hp (SymbolTable.symbols_unique hbound hold hx)

/-- No symbol is declared in two functions. -/
theorem Collected.eq_of_declaredIn (h : r.Collected o) {f g : Function} (hf : f ∈ r.unit.functions)
    (hg : g ∈ r.unit.functions) (hx : r.table.DeclaredIn f.scope x)
    (hx' : r.table.DeclaredIn g.scope x) : g = f := by
  obtain ⟨p, hp, hxp⟩ := hx
  obtain ⟨q, hq, hxq⟩ := hx'
  obtain rfl := SymbolTable.symbols_unique h.reachable.bound hxp hxq
  have ht := h.reachable.tree
  have hscope : g.scope = f.scope := by
    rcases hp.total hq with hfg | hgf
    · exact (SymbolTable.Encloses.of_siblings ht (h.child f hf) (h.child g hg) hfg).symm
    · exact SymbolTable.Encloses.of_siblings ht (h.child g hg) (h.child f hf) hgf
  exact List.inj_on_of_nodup_map h.distinct hg hf hscope

end

end Reading

end LittleC
