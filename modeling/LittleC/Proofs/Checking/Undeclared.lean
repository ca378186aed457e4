import LittleC.Proofs.Checking.Cascade
import LittleC.Proofs.Checking.Serving

/-! # Names that nothing declares

The first use of such a name is reported, and the name is then known as an error in the innermost
scope until that scope closes. So it is reported once in each scope that comes to know it, and a use
in a later scope beside them is reported again. -/

namespace LittleC

open Typing (Rule StmtRule)

/-- How often a name was reported as undeclared. -/
def Log.reports (log : Log) (name : String) : Nat :=
  log.entries.countP (·.error == .undeclared name)

/-- The name that a request declares or defines. -/
def Request.declaredName? : Request → Option String
  | .defineFunction name _ | .declareFunction name _ | .declareVariable name _ => some name
  | _ => none

namespace Typing

/-! ## Faults of rules -/

section
variable {name : String}

theorem fault_judge_ne {operands : List Ty} {legal : Bool} {result : Ty} {fault : CheckError}
    {node : Ty → Expr} (h : fault ≠ .undeclared name) :
    (judge operands legal result fault node).fault ≠ some (.undeclared name) := by
  unfold judge
  split_ifs
  · simp
  · simp
  · intro heq
    exact h (Option.some.inj heq)

theorem fault_binary_ne (op : BinaryOp) (l r : Expr) :
    (binary op l r).fault ≠ some (.undeclared name) := by
  cases op with
  | add | sub =>
      simp only [binary, add, subtract]
      split_ifs <;> simp
  | mul | div | rem | compare c | land | lor =>
      apply fault_judge_ne
      simp

theorem fault_call_ne (ty : Ty) (f : SymbolId) (args : List Expr) :
    (call ty f args).fault ≠ some (.undeclared name) := by
  unfold call
  split
  · simp
  · dsimp only
    split_ifs <;> simp
  all_goals simp

theorem fault_cast_ne (target : Ty) (e : Expr) :
    (cast target e).fault ≠ some (.undeclared name) := by
  unfold cast
  dsimp only
  split_ifs <;> simp

theorem fault_test_ne (e : Expr) : (test e).fault ≠ some (.undeclared name) := by
  unfold test
  dsimp only
  split_ifs <;> simp

/-- No rule finds a name undeclared. -/
theorem Rule.fault_ne {t : SymbolTable} {known : SymbolId → Prop} {es : List Expr}
    {v : Verdict Expr} (hv : Rule t known es v) : v.fault ≠ some (.undeclared name) := by
  cases hv with
  | ident | number | text => simp
  | call => exact fault_call_ne _ _ _
  | index | logicalNot | negate | deref | address =>
      apply fault_judge_ne
      simp
  | sizeOf =>
      simp only [Typing.sizeOf]
      split_ifs <;> simp
  | cast => exact fault_cast_ne _ _
  | binary => exact fault_binary_ne _ _ _
  | test => exact fault_test_ne _

theorem StmtRule.fault_ne {result : Ty} {es : List Expr} {ss : List Stmt} {v : Verdict Stmt}
    (hv : StmtRule result es ss v) : v.fault ≠ some (.undeclared name) := by
  cases hv with
  | expr | block => simp
  | assign =>
      simp only [Typing.assign]
      split_ifs <;> simp
  | ret =>
      simp only [Typing.ret]
      split_ifs <;> simp
  | loop | ifThen | ifElse => exact fault_test_ne _

end

end Typing

/-! ## What a request reports -/

namespace Checker

section
variable {c : Checker} {name other : String}

theorem reports_reportAny {fault : Option CheckError} (h : fault ≠ some (.undeclared name)) :
    (c.reportAny fault).log.reports name = c.log.reports name := by
  rw [Log.reports, entries_reportAny, List.countP_append, Log.reports]
  cases fault with
  | none => rfl
  | some e =>
      have hne : e ≠ .undeclared name := fun heq => h (congrArg some heq)
      simp [hne]

theorem reports_report (c : Checker) (name : String) :
    (c.report (.undeclared name)).log.reports name = c.log.reports name + 1 := by
  simp [report, Log.report, Log.reports]

theorem definitionFault_ne (declared : String) (prior ty : Ty) :
    definitionFault declared prior ty ≠ some (.undeclared name) := by
  unfold definitionFault
  split_ifs <;> simp

theorem declarationFault_ne (declared : String) (prior ty : Ty) :
    declarationFault declared prior ty ≠ some (.undeclared name) := by
  unfold declarationFault
  split_ifs <;> simp

theorem reports_defineFunction (declared : String) (ty : Ty) :
    (c.defineFunction declared ty).2.log.reports name = c.log.reports name := by
  unfold defineFunction
  rw [outermost_withFile]
  refine (reports_reportAny ?_).trans rfl
  intro heq
  obtain ⟨x, -, hfault⟩ := Option.bind_eq_some_iff.mp heq
  exact definitionFault_ne _ _ _ hfault

theorem reports_declareFunction (declared : String) (ty : Ty) :
    (c.declareFunction declared ty).2.log.reports name = c.log.reports name := by
  unfold declareFunction
  rw [outermost_withFile]
  dsimp only
  split
  · exact reports_reportAny (declarationFault_ne _ _ _)
  · rfl

theorem reports_declareVariable (declared : String) (ty : Ty) :
    (c.declareVariable declared ty).2.log.reports name = c.log.reports name := by
  unfold declareVariable
  split
  · split
    · exact reports_reportAny (declarationFault_ne _ _ _)
    · have hother : some (.redeclaration declared) ≠ some (CheckError.undeclared name) := by simp
      exact reports_reportAny hother
  · rfl

/-- A use is reported when no open scope knows the name. -/
theorem reports_resolve (h : c.symbols.lookup? name = none) :
    (c.resolve name).2.log.reports name = c.log.reports name + 1 := by
  unfold resolve
  rw [h]
  exact reports_report c name

theorem reports_resolve_of_known (h : other = name → c.symbols.lookup? name ≠ none) :
    (c.resolve other).2.log.reports name = c.log.reports name := by
  unfold resolve
  split
  · rfl
  · next hnone =>
      have hne : other ≠ name := by
        rintro rfl
        exact h rfl hnone
      have hother : some (CheckError.undeclared other) ≠ some (.undeclared name)  := by
        simpa using hne
      exact reports_reportAny hother

end

end Checker

/-! ## Where a name is known -/

namespace SymbolTable

section
variable {t u : SymbolTable} {p : ScopeId} {s : Symbol} {name : String} {q : Request}

theorem findIn?_withFile (ht : t.Reachable) (p : ScopeId) : t.withFile.findIn? p = t.findIn? p := by
  unfold withFile
  split
  · exact findIn?_openScope ht.tree p
  · rfl

theorem findIn?_insert_of_ne (ht : t.Reachable) (p : ScopeId) (h : name ≠ s.name) :
    (t.insert s).2.findIn? p name = t.findIn? p name := by
  unfold insert
  split
  · exact findIn?_insertIn_of_ne _ p h
  · rw [findIn?_insertIn_of_ne _ p h, findIn?_openScope ht.tree p]

/-- A name that is not declared stays known where it was, unless it is used and unknown. -/
theorem Serves.findIn?_eq (h : t.Serves q u) (ht : t.Reachable) (p : ScopeId)
    (hdeclared : q.declaredName? ≠ some name) (hused : q = .resolve name → t.lookup? name ≠ none) :
    u.findIn? p name = t.findIn? p name := by
  have hname {other : String} (heq : q.declaredName? = some other) : name ≠ other := by
    rintro rfl
    exact hdeclared heq
  cases h with
  | line | closeScope | rebind | known | expr | stmt | function => rfl
  | openScope => rw [findIn?_openScope ht.tree]
  | define other ty =>
      have hne : name ≠ (Symbol.fresh other ty).name := hname rfl
      rw [findIn?_replaceIn_of_ne .file p hne, findIn?_withFile ht]
  | @declare other ty =>
      have hne : name ≠ (Symbol.fresh other ty).name := hname rfl
      rw [findIn?_insertIn_of_ne .file p hne, findIn?_withFile ht]
  | redeclare => rw [findIn?_withFile ht]
  | @bind other ty =>
      have hne : name ≠ (Symbol.fresh other ty).name := hname rfl
      exact findIn?_insert_of_ne ht p hne
  | @unknown other hnone =>
      have hne : name ≠ (Symbol.fresh other .error).name := by
        rintro rfl
        exact hused rfl hnone
      exact findIn?_insert_of_ne ht p hne

theorem isSome_findIn?_insertIn {id : ScopeId} (hid : id.index < t.scopes.length) (p : ScopeId) :
    ((t.insertIn id s).2.findIn? p s.name).isSome = true ↔
      p = id ∨ (t.findIn? p s.name).isSome = true := by
  by_cases heq : p = id
  · subst heq
    simp [findIn?_insertIn_self hid]
  · simp [findIn?_insertIn_of_scope_ne heq, heq]

/-- A name that no open scope knows becomes known in one scope more. -/
theorem exists_findIn?_insert (ht : t.Reachable) (h : t.lookup? s.name = none) :
    ∃ id, t.findIn? id s.name = none ∧ ∀ p, ((t.insert s).2.findIn? p s.name).isSome = true ↔
      p = id ∨ (t.findIn? p s.name).isSome = true := by
  unfold insert
  split
  · next id hcurrent =>
      have hid : id ∈ t.chain := List.mem_of_mem_head? hcurrent
      refine ⟨id, List.findSome?_eq_none_iff.mp h id hid, ?_⟩
      exact isSome_findIn?_insertIn (ht.tree.chain_lt id hid)
  · -- The outermost scope opens, and it is empty.
    have hnew : t.findIn? t.openScope.1 s.name = none := by
      have hscope : t.scope t.openScope.1 = default := scope_of_le (Nat.le_refl _)
      rw [findIn?, hscope]
      rfl
    refine ⟨t.openScope.1, hnew, fun p => ?_⟩
    rw [isSome_findIn?_insertIn, findIn?_openScope ht.tree]
    rw [length_openScope]
    exact Nat.lt_succ_self _

/-! ## Scopes that stay open -/

theorem mem_chain_openScope (hp : p ∈ t.openScope.2.chain) (hlt : p.index < t.scopes.length) :
    p ∈ t.chain := by
  rw [chain_openScope] at hp
  rcases List.mem_cons.mp hp with rfl | hp
  · exact absurd hlt (Nat.lt_irrefl _)
  · exact hp

theorem mem_chain_withFile (hp : p ∈ t.withFile.chain) (hlt : p.index < t.scopes.length) :
    p ∈ t.chain := by
  unfold withFile at hp
  split at hp
  · exact mem_chain_openScope hp hlt
  · exact hp

theorem mem_chain_insert (hp : p ∈ (t.insert s).2.chain) (hlt : p.index < t.scopes.length) :
    p ∈ t.chain := by
  unfold insert at hp
  split at hp
  · exact hp
  · exact mem_chain_openScope hp hlt

/-- A scope that was closed does not open again. -/
theorem Serves.mem_chain (h : t.Serves q u) (hp : p ∈ u.chain) (hlt : p.index < t.scopes.length) :
    p ∈ t.chain := by
  cases h with
  | line | rebind | known | expr | stmt | function => exact hp
  | openScope => exact mem_chain_openScope hp hlt
  | closeScope => exact List.mem_of_mem_tail hp
  | define | declare | redeclare => exact mem_chain_withFile hp hlt
  | bind | unknown => exact mem_chain_insert hp hlt

theorem lt_of_findIn? (h : (t.findIn? p name).isSome = true) : p.index < t.scopes.length := by
  by_contra hle
  rw [findIn?, scope_of_le (Nat.le_of_not_lt hle)] at h
  cases h

end

end SymbolTable

/-! ## Runs -/

namespace Workbench

section
variable {w w' : Workbench} {q : Request} {qs : List Request} {name : String} {ps : List ScopeId}

/-- Nothing else is reported as undeclared. -/
theorem reports_serve (hq : w.Allows q)
    (h : q = .resolve name → w.checker.symbols.lookup? name ≠ none) :
    (w.serve q).checker.log.reports name = w.checker.log.reports name := by
  cases q with
  | line | openScope | closeScope | function => rfl
  | defineFunction declared ty => exact Checker.reports_defineFunction declared ty
  | declareFunction declared ty => exact Checker.reports_declareFunction declared ty
  | declareVariable declared ty => exact Checker.reports_declareVariable declared ty
  | resolve other => exact Checker.reports_resolve_of_known fun heq => h (congrArg _ heq)
  | expr v =>
      have hrule : Rule w.checker.symbols _ w.exprs v := hq
      exact Checker.reports_reportAny hrule.fault_ne
  | stmt v =>
      have hrule : StmtRule _ w.exprs w.stmts v := hq
      exact Checker.reports_reportAny hrule.fault_ne

/-- The scopes `ps` know the name, and there is one report for each. -/
structure Knows (w : Workbench) (name : String) (ps : List ScopeId) : Prop where
  reachable : w.checker.symbols.Reachable
  nodup : ps.Nodup
  mem : ∀ p, p ∈ ps ↔ (w.checker.symbols.findIn? p name).isSome = true
  reports : w.checker.log.reports name = ps.length

/-- An open scope that knows the name makes it known. -/
theorem Knows.lookup? (h : w.Knows name ps) {p : ScopeId} (hp : p ∈ ps)
    (hopen : p ∈ w.checker.symbols.chain) : w.checker.symbols.lookup? name ≠ none := by
  intro hnone
  have hfound := (h.mem p).mp hp
  rw [List.findSome?_eq_none_iff.mp hnone p hopen] at hfound
  cases hfound

/-- A use of an unknown name is reported, and one scope more knows it then. -/
theorem Knows.serve_unknown (h : w.Knows name ps) (hnone : w.checker.symbols.lookup? name = none) :
    ∃ id, (w.serve (.resolve name)).Knows name (id :: ps) := by
  obtain ⟨id, hnew, hknown⟩ := SymbolTable.exists_findIn?_insert
    (s := .fresh name .error) h.reachable hnone
  have htable : (w.serve (.resolve name)).checker.symbols =
      (w.checker.symbols.insert (.fresh name .error)).2 := by
    show (w.checker.resolve name).2.symbols = _
    unfold Checker.resolve
    rw [hnone]
    rfl
  have hfresh : id ∉ ps := by
    rw [h.mem, Option.not_isSome_iff_eq_none]
    exact hnew
  refine ⟨id, ?_, List.nodup_cons.mpr ⟨hfresh, h.nodup⟩, fun p => ?_, ?_⟩
  · exact (w.checker.serves_serve _).reachable h.reachable
  · rw [htable, List.mem_cons, h.mem]
    exact (hknown p).symm
  · exact (Checker.reports_resolve hnone).trans (congrArg (· + 1) h.reports)

/-- Any other request leaves the reports and the scopes that know the name. -/
theorem Knows.serve_other (h : w.Knows name ps) (hq : w.Allows q)
    (hname : q.declaredName? ≠ some name)
    (hused : q = .resolve name → w.checker.symbols.lookup? name ≠ none) :
    (w.serve q).Knows name ps := by
  have hserves := w.checker.serves_serve q
  refine ⟨hserves.reachable h.reachable, h.nodup, fun p => ?_, ?_⟩
  · rw [h.mem, ← hserves.findIn?_eq h.reachable p hname hused]
    rfl
  · rw [reports_serve hq hused]
    exact h.reports

theorem Knows.serve (h : w.Knows name ps) (hq : w.Allows q) (hname : q.declaredName? ≠ some name) :
    ∃ ps', (w.serve q).Knows name ps' ∧ ps ⊆ ps' := by
  by_cases hunknown : q = .resolve name ∧ w.checker.symbols.lookup? name = none
  · obtain ⟨rfl, hnone⟩ := hunknown
    obtain ⟨id, hnext⟩ := h.serve_unknown hnone
    exact ⟨id :: ps, hnext, List.subset_cons_self id ps⟩
  · have hnext := h.serve_other hq hname fun hused hnone => hunknown ⟨hused, hnone⟩
    exact ⟨ps, hnext, List.Subset.refl ps⟩

theorem Run.knows (h : w.Run qs w') (hw : w.Knows name ps)
    (hname : ∀ q ∈ qs, q.declaredName? ≠ some name) : ∃ ps', w'.Knows name ps' ∧ ps ⊆ ps' := by
  induction h generalizing ps with
  | nil => exact ⟨ps, hw, List.Subset.refl ps⟩
  | cons hq _ ih =>
      obtain ⟨hfirst, hrest⟩ := List.forall_mem_cons.mp hname
      obtain ⟨ps', hnext, hsub⟩ := hw.serve hq hfirst
      obtain ⟨ps'', hlast, hsub'⟩ := ih hnext hrest
      exact ⟨ps'', hlast, List.Subset.trans hsub hsub'⟩

theorem Run.mem_chain (h : w.Run qs w') (hw : w.Knows name ps)
    (hname : ∀ q ∈ qs, q.declaredName? ≠ some name) {p : ScopeId} (hp : p ∈ ps)
    (hopen : p ∈ w'.checker.symbols.chain) : p ∈ w.checker.symbols.chain := by
  induction h generalizing ps with
  | nil => exact hopen
  | @cons w w' q qs hq _ ih =>
      obtain ⟨hfirst, hrest⟩ := List.forall_mem_cons.mp hname
      obtain ⟨ps', hnext, hsub⟩ := hw.serve hq hfirst
      refine (w.checker.serves_serve q).mem_chain (ih hnext hrest (hsub hp) hopen) ?_
      exact SymbolTable.lt_of_findIn? ((hw.mem p).mp hp)

/-- While a scope that knows the name stays open, the name is not reported again. -/
theorem Run.reports (h : w.Run qs w') (hw : w.Knows name ps)
    (hname : ∀ q ∈ qs, q.declaredName? ≠ some name) {p : ScopeId} (hp : p ∈ ps)
    (hopen : p ∈ w'.checker.symbols.chain) :
    w'.checker.log.reports name = w.checker.log.reports name := by
  induction h generalizing ps with
  | nil => rfl
  | @cons w w' q qs hq hrun ih =>
      obtain ⟨hfirst, hrest⟩ := List.forall_mem_cons.mp hname
      obtain ⟨ps', hnext, hsub⟩ := hw.serve hq hfirst
      have hchain := Run.mem_chain (.cons hq hrun) hw hname hp hopen
      rw [ih hnext hrest (hsub hp) hopen]
      exact reports_serve hq fun _ => hw.lookup? hp hchain

theorem knows_empty (name : String) : (ofChecker .empty).Knows name [] where
  reachable := .empty
  nodup := .nil
  mem p := by
    have hnone : Checker.empty.symbols.findIn? p name = none := by
      rw [SymbolTable.findIn?, SymbolTable.scope_of_le (Nat.zero_le _)]
      rfl
    simp [ofChecker, hnone]
  reports := rfl

/-- After any run in which a name is never declared or defined, the name was reported as often as
there are scopes, open or closed, that know it. The next use is reported when all of these are
closed, and as long as one of them stays open, no use is. -/
theorem undeclared_of_run (h : (ofChecker .empty).Run qs w)
    (hname : ∀ q ∈ qs, q.declaredName? ≠ some name) :
    ∃ ps : List ScopeId, ps.Nodup ∧
      (∀ p, p ∈ ps ↔ (w.checker.symbols.findIn? p name).isSome = true) ∧
      w.checker.log.reports name = ps.length ∧
      ((∀ p ∈ ps, p ∉ w.checker.symbols.chain) →
        (w.serve (.resolve name)).checker.log.reports name = ps.length + 1) ∧
      ∀ rs w', w.Run rs w' → (∀ q ∈ rs, q.declaredName? ≠ some name) →
        (∃ p ∈ ps, p ∈ w'.checker.symbols.chain) → w'.checker.log.reports name = ps.length := by
  obtain ⟨ps, hknows, -⟩ := h.knows (knows_empty name) hname
  refine ⟨ps, hknows.nodup, hknows.mem, hknows.reports, ?_, ?_⟩
  · intro hclosed
    have hnone : w.checker.symbols.lookup? name = none := by
      refine List.findSome?_eq_none_iff.mpr fun p hp => ?_
      by_contra hfound
      exact hclosed p ((hknows.mem p).mpr (Option.isSome_iff_ne_none.mpr hfound)) hp
    exact (Checker.reports_resolve hnone).trans (congrArg (· + 1) hknows.reports)
  · rintro rs w' hrun hrest ⟨p, hp, hopen⟩
    rw [hrun.reports hknows hrest hp hopen]
    exact hknows.reports

end

/-- A name that two blocks use, one after the other: each of them comes to know it, and the block
that is open does not report it again. -/
theorem undeclared_of_run_blocks :
    let qs : List Request :=
      [.openScope, .openScope, .resolve "y", .closeScope, .openScope, .resolve "y"]
    let w := qs.foldl serve (ofChecker .empty)
    let again := w.serve (.resolve "y")
    (ofChecker .empty).Run qs w ∧ (∀ q ∈ qs, q.declaredName? ≠ some "y") ∧
      w.checker.symbols.chain = [⟨2⟩, ⟨0⟩] ∧ (w.checker.symbols.findIn? ⟨1⟩ "y").isSome = true ∧
      (w.checker.symbols.findIn? ⟨2⟩ "y").isSome = true ∧ w.checker.log.reports "y" = 2 ∧
      again.checker.log.reports "y" = 2 := by
  intro qs w again
  have hrun : (ofChecker .empty).Run qs w :=
    .cons trivial (.cons trivial (.cons trivial (.cons trivial (.cons trivial
      (.cons trivial (.nil w))))))
  have hname : ∀ q ∈ qs, q.declaredName? ≠ some "y" := by decide
  have hknown : (w.checker.symbols.findIn? ⟨2⟩ "y").isSome = true := by decide
  have htwo : w.checker.log.reports "y" = 2 := by decide
  obtain ⟨ps, -, hmem, hreports, -, hlater⟩ := undeclared_of_run hrun hname
  have hagain : again.checker.log.reports "y" = ps.length := by
    refine hlater [.resolve "y"] again (.cons trivial (.nil again)) ?_
      ⟨⟨2⟩, (hmem _).mpr hknown, ?_⟩
    · exact List.forall_mem_singleton.mpr (by decide)
    · decide
  exact ⟨hrun, hname, by decide, by decide, hknown, htwo, hagain.trans (hreports.symm.trans htwo)⟩

/-- It is not so that a name is reported once at most: blocks beside each other both report it. -/
theorem undeclared_twice :
    ¬∀ (qs : List Request) (w : Workbench) (name : String), (ofChecker .empty).Run qs w →
      (∀ q ∈ qs, q.declaredName? ≠ some name) → w.checker.log.reports name ≤ 1 := by
  intro h
  let qs : List Request := [.openScope, .openScope, .resolve "y", .closeScope, .resolve "y"]
  let w := qs.foldl serve (ofChecker .empty)
  have hrun : (ofChecker .empty).Run qs w :=
    .cons trivial (.cons trivial (.cons trivial (.cons trivial (.cons trivial (.nil w)))))
  have hle : w.checker.log.reports "y" ≤ 1 := h qs w "y" hrun (by decide)
  exact absurd hle (by decide)

end Workbench

end LittleC
