import LittleC.Proofs.Checking.Bodies
import LittleC.Proofs.Symbols.File

/-! # Declarations at file level

Variables between functions, functions and definitions are known at file level. As long as nothing
is reported, a name stands for one thing there: only a function whose parameters were not listed
gives way to a definition. -/

namespace LittleC

/-- A function whose parameters are not listed. -/
def Ty.Unlisted (ty : Ty) : Prop := ty.isFunction = true ∧ ty.params? = none

namespace Ty

section
variable {t u : Ty}

theorem isFunction_of_agrees (h : t.agrees u = true) (hu : u.isFunction = true) :
    t.isFunction = true := by
  cases t <;> cases u <;> simp_all [agrees, isFunction]

theorem isLogical_of_agrees (h : t.agrees u = true) (hu : u.isLogical = true) :
    t.isLogical = true := by
  cases t <;> cases u <;> simp_all [agrees, isLogical, isScalar, isArray]

theorem not_unlisted_of_isLogical (h : t.isLogical = true) : ¬t.Unlisted := by
  rintro ⟨hfunction, -⟩
  cases t <;> simp_all [isLogical, isScalar, isArray, isFunction]

theorem not_unlisted_of_params (h : t.params?.isSome = true) : ¬t.Unlisted := by
  rintro ⟨-, hnone⟩
  rw [hnone] at h
  cases h

end

end Ty

/-- Only a function whose parameters are not listed can be defined. -/
theorem Checker.unlisted_of_definitionFault {name : String} {prior ty : Ty}
    (hty : ty.isFunction = true) (h : definitionFault name prior ty = none) : prior.Unlisted := by
  unfold definitionFault at h
  split at h
  · cases h
  · next hparams =>
      split at h
      · next hagrees =>
          exact ⟨Ty.isFunction_of_agrees hagrees hty, Option.not_isSome_iff_eq_none.mp hparams⟩
      · cases h

namespace SymbolTable

/-- In the file scope a name was bound to a new symbol, and no other name changed. -/
structure Rebinds (t u : SymbolTable) (name : String) (ty : Ty) : Prop where
  free : ∀ x, t.findIn? .file name = some x → (t.symbol x).ty.Unlisted
  find : u.findIn? .file name = some ⟨t.entries.length⟩
  symbol : u.symbol ⟨t.entries.length⟩ = .fresh name ty
  others : ∀ other, other ≠ name → u.findIn? .file other = t.findIn? .file other

section
variable {t u : SymbolTable} {name : String} {ty : Ty}

theorem rebinds_insertIn (ht : 0 < t.scopes.length) (h : t.findIn? .file name = none) (ty : Ty) :
    t.Rebinds (t.insertIn .file (.fresh name ty)).2 name ty where
  free _ hx := absurd (h.symm.trans hx) nofun
  find := findIn?_insertIn_self ht (.fresh name ty)
  symbol := symbol_insertIn t .file (.fresh name ty)
  others _ hne := findIn?_insertIn_of_ne .file .file hne

theorem rebinds_replaceIn (ht : 0 < t.scopes.length)
    (h : ∀ x, t.findIn? .file name = some x → (t.symbol x).ty.Unlisted) (ty : Ty) :
    t.Rebinds (t.replaceIn .file (.fresh name ty)).2 name ty where
  free := h
  find := findIn?_replaceIn_self ht (.fresh name ty)
  symbol := symbol_insertIn (t.modifyScope .file (·.unbind name)) .file (.fresh name ty)
  others _ hne := findIn?_replaceIn_of_ne .file .file hne

theorem Rebinds.openScope (h : t.Rebinds u name ty) (hu : u.Tree) :
    t.Rebinds u.openScope.2 name ty := by
  refine ⟨h.free, ?_, ?_, fun other hne => ?_⟩
  · rw [findIn?_openScope hu, h.find]
  · rw [symbol_openScope, h.symbol]
  · rw [findIn?_openScope hu, h.others other hne]

/-- Whatever is no such function stays. -/
theorem Rebinds.keeps (h : t.Rebinds u name ty) {other : String} {x : SymbolId}
    (hfind : t.findIn? .file other = some x) (hx : ¬(t.symbol x).ty.Unlisted) :
    u.findIn? .file other = some x := by
  by_cases heq : other = name
  · subst heq
    exact absurd (h.free x hfind) hx
  · rw [h.others other heq, hfind]

end

end SymbolTable

namespace Reading

/-! ## Steps that declare -/

/-- The step declares the name at file level, with the type: a variable between functions, a
function anywhere, or the head of a definition. -/
inductive Declares (r : Reading) (name : String) (ty : Ty) : Reading → Prop where
  | globalVariable (hfile : r.draft = none) : Declares r name ty (r.declare name ty)
  | declareFunction : Declares r name ty (r.setChecker (r.checker.declareFunction name ty).2)
  | define (hfile : r.draft = none) (hty : ty.isFunction = true) :
      Declares r name ty (r.define name ty)

section
variable {o : Options} {r r' : Reading} {name : String} {ty : Ty} {x : SymbolId}

theorem Declares.step (h : r.Declares name ty r') : r.Step r' := by
  cases h with
  | globalVariable hfile => exact .globalVariable name ty hfile
  | declareFunction => exact .declareFunction name ty
  | define hfile hty => exact .define name hfile hty

/-- What a declaration without a mistake leads to: the name is known with an agreeing type, or it is
bound anew. -/
inductive Known (r : Reading) (name : String) (ty : Ty) (r' : Reading) : Prop where
  | before {x : SymbolId} (hsame : r'.table = r.table) (hfind : r.table.findIn? .file name = some x)
      (hagrees : (r.table.symbol x).ty.agrees ty = true)
  | anew (h : r.table.Rebinds r'.table name ty)

/-- A definition binds its name anew. -/
theorem Tidy.rebinds_define (hr : r.Tidy o) (hty : ty.isFunction = true)
    (hquiet : (r.define name ty).checker.Quiet) :
    r.table.Rebinds (r.define name ty).table name ty := by
  have hfile := hr.collected.file
  have hdefined : (r.checker.defineFunction name ty).2.Quiet := hquiet
  have hfault := Checker.definitionFault_of_quiet hdefined
  have heq := Checker.defineFunction_of_quiet hdefined
  rw [Checker.outermost_eq (c := r.checker) hfile] at hfault heq
  have hfree : ∀ x, r.table.findIn? .file name = some x → (r.table.symbol x).ty.Unlisted := by
    intro x hx
    have hx' : r.checker.symbols.findIn? .file name = some x := hx
    rw [hx'] at hfault
    exact Checker.unlisted_of_definitionFault hty hfault
  have htable : (r.define name ty).table =
      (r.table.replaceIn .file (.fresh name ty)).2.openScope.2 :=
    congrArg (·.2.symbols.openScope.2) heq
  rw [htable]
  exact (SymbolTable.rebinds_replaceIn hfile hfree ty).openScope
    (hr.collected.reachable.replaceIn _ _).tree

theorem Declares.known (h : r.Declares name ty r') (hquiet : r'.checker.Quiet) (hr : r.Tidy o) :
    r.Known name ty r' := by
  have hfile := hr.collected.file
  cases h with
  | globalVariable hnone =>
      have hdeclared : (r.checker.declareVariable name ty).2.Quiet := hquiet
      have hcurrent : r.checker.symbols.current? = some .file :=
        congrArg List.head? (hr.between hnone)
      rcases Checker.declareVariable_of_quiet hdeclared with ⟨x, hfind, -, hagrees, heq⟩ |
          ⟨hfind, heq⟩
      all_goals rw [SymbolTable.find?, hcurrent, Option.bind_some] at hfind
      · exact .before (congrArg (·.2.symbols) heq) hfind hagrees
      · have htable : (r.declare name ty).table = (r.table.insertIn .file (.fresh name ty)).2 :=
          (congrArg (·.2.symbols) heq).trans (Checker.symbols_insert hcurrent _)
        refine .anew ?_
        rw [htable]
        exact SymbolTable.rebinds_insertIn hfile hfind ty
  | declareFunction =>
      have hdeclared : (r.checker.declareFunction name ty).2.Quiet := hquiet
      have hknown := Checker.declareFunction_of_quiet hdeclared
      rw [Checker.outermost_eq (c := r.checker) hfile] at hknown
      rcases hknown with ⟨x, hfind, hagrees, heq⟩ | ⟨hfind, heq⟩
      · exact .before (congrArg (·.2.symbols) heq) hfind hagrees
      · have htable : (r.setChecker (r.checker.declareFunction name ty).2).table =
            (r.table.insertIn .file (.fresh name ty)).2 := congrArg (·.2.symbols) heq
        refine .anew ?_
        rw [htable]
        exact SymbolTable.rebinds_insertIn hfile hfind ty
  | define hnone hty => exact .anew (hr.rebinds_define hty hquiet)

/-- Every step either declares a name at file level or leaves all names there as they are. -/
theorem Step.file (hstep : r.Step r') (hquiet : r'.checker.Quiet) (hr : r.Tidy o) :
    r'.table.findIn? .file = r.table.findIn? .file ∨
      ∃ name ty, r.Declares name ty r' ∧ r.table.Rebinds r'.table name ty := by
  have hdeclares : ∀ {name ty}, r.Declares name ty r' →
      r'.table.findIn? .file = r.table.findIn? .file ∨
      ∃ name ty, r.Declares name ty r' ∧ r.table.Rebinds r'.table name ty := by
    intro name ty h
    rcases h.known hquiet hr with ⟨hsame, -, -⟩ | hnew
    · exact .inl (by rw [hsame])
    · exact .inr ⟨name, ty, h, hnew⟩
  -- Within a function variables go to an inner scope.
  have hinner : ∀ {d : Draft} {name ty}, r.draft = some d → (r.declare name ty).checker.Quiet →
      (r.declare name ty).table.findIn? .file = r.table.findIn? .file := by
    intro d name ty hd hdeclared
    obtain ⟨p, hcurrent, hencloses⟩ := (hr.within d hd).exists_current
    have hp : p ≠ .file := hencloses.ne_file hr.collected.reachable.tree (hr.within d hd).child
    rcases Checker.declareVariable_of_quiet (c := r.checker) hdeclared with
      ⟨x, -, -, -, heq⟩ | ⟨-, heq⟩
    · rw [show (r.declare name ty).table = r.table from congrArg (·.2.symbols) heq]
    · have htable : (r.declare name ty).table = (r.table.insertIn p (.fresh name ty)).2 :=
        (congrArg (·.2.symbols) heq).trans (Checker.symbols_insert hcurrent _)
      rw [htable]
      exact SymbolTable.findIn?_insertIn_of_scope_ne hp.symm _
  cases hstep with
  | line | closeScope | finish => exact .inl rfl
  | declareFunction name ty => exact hdeclares .declareFunction
  | globalVariable name ty hfile => exact hdeclares (.globalVariable hfile)
  | define name hfile hty => exact hdeclares (.define hfile hty)
  | param name hd => exact .inl (hinner hd hquiet)
  | localVariable name ty hd => exact .inl (hinner hd hquiet)
  | openScope => exact .inl (SymbolTable.findIn?_openScope hr.collected.reachable.tree .file)
  | resolve name hd => exact .inl (by rw [table_resolve hquiet])
  | expr hd hv => exact .inl (by rw [table_addExpr])
  | stmt hd hv => exact .inl (by rw [table_addStmt])

/-! ## What stays -/

/-- Whatever is no function without listed parameters stays at file level. -/
theorem Step.keeps (hstep : r.Step r') (hquiet : r'.checker.Quiet) (hr : r.Tidy o)
    (hfind : r.table.findIn? .file name = some x) (hx : ¬(r.table.symbol x).ty.Unlisted) :
    r'.table.findIn? .file name = some x := by
  rcases hstep.file hquiet hr with hsame | ⟨name', ty, -, hnew⟩
  · rw [hsame, hfind]
  · exact hnew.keeps hfind hx

/-- What the file scope binds is a symbol of the table. -/
theorem Tidy.has (hr : r.Tidy o) (hfind : r.table.findIn? .file name = some x) : r.table.Has x :=
  SymbolTable.lt_of_mem_symbols hr.collected.reachable.bound
    (SymbolTable.mem_symbols_of_findIn? hfind)

theorem Steps.keeps (hreached : Reached o r) (hsteps : Steps r r') (hquiet : r'.checker.Quiet)
    (hfind : r.table.findIn? .file name = some x) (hx : ¬(r.table.symbol x).ty.Unlisted) :
    r'.table.findIn? .file name = some x := by
  -- The type of a symbol never changes, so what keeps the name in one step keeps it in all.
  induction hsteps with
  | refl => exact hfind
  | @tail r₁ r₂ hinit hlast ih =>
      have hbefore := hlast.quiet hquiet
      have htidy : r₁.Tidy o := Reached.tidy (hreached.trans hinit) hbefore
      have hhas := (hreached.tidy (Steps.quiet hinit hbefore)).has hfind
      refine hlast.keeps hquiet htidy (ih hbefore) ?_
      rwa [(hreached.grows hinit hbefore).symbol hhas]

/-! ## Names and declarations -/

/-- At some point the name was declared at file level with the type. -/
def Declared (o : Options) (r : Reading) (name : String) (ty : Ty) : Prop :=
  ∃ before after, Reached o before ∧ before.Declares name ty after ∧ Steps after r

theorem Declared.steps (h : r.Declared o name ty) (hsteps : Steps r r') :
    r'.Declared o name ty := by
  obtain ⟨before, after, hreached, hdeclares, hafter⟩ := h
  exact ⟨before, after, hreached, hdeclares, hafter.trans hsteps⟩

/-- What a name stands for at file level was declared under it. -/
theorem Reached.declared (h : Reached o r) (hquiet : r.checker.Quiet)
    (hfind : r.table.findIn? .file name = some x) : r.Declared o name (r.table.symbol x).ty := by
  -- The last step that bound the name anew is its declaration.
  induction h with
  | refl => cases hfind
  | @tail r r' hinit hlast ih =>
      have hbefore := hlast.quiet hquiet
      have htidy : r.Tidy o := Reached.tidy hinit hbefore
      have hgrows := (hlast.changes hquiet htidy).grows htidy.collected.reachable
      have hold (hfind' : r.table.findIn? .file name = some x) :
          r'.Declared o name (r'.table.symbol x).ty := by
        rw [hgrows.symbol (htidy.has hfind')]
        exact (ih hbefore hfind').steps (.single hlast)
      rcases hlast.file hquiet htidy with hsame | ⟨name', ty', hdeclares, hnew⟩
      · exact hold (hsame ▸ hfind)
      · by_cases heq : name = name'
        · subst heq
          cases hnew.find.symm.trans hfind
          rw [hnew.symbol]
          exact ⟨r, r', hinit, hdeclares, .refl⟩
        · rw [hnew.others name heq] at hfind
          exact hold hfind

/-- A value that was declared stays known at file level, with its type. -/
theorem Declared.found (h : r.Declared o name ty) (hquiet : r.checker.Quiet)
    (hty : ty.isLogical = true) :
    ∃ x, r.table.findIn? .file name = some x ∧ (r.table.symbol x).ty.agrees ty = true := by
  obtain ⟨before, after, hreached, hdeclares, hsteps⟩ := h
  have hafter := Steps.quiet hsteps hquiet
  have htidy : before.Tidy o := hreached.tidy (hdeclares.step.quiet hafter)
  have hreached' : Reached o after := hreached.tail hdeclares.step
  obtain ⟨x, hfind, hagrees⟩ : ∃ x, after.table.findIn? .file name = some x ∧
      (after.table.symbol x).ty.agrees ty = true := by
    rcases hdeclares.known hafter htidy with ⟨hsame, hfind, hagrees⟩ | hnew
    · rw [hsame]
      exact ⟨_, hfind, hagrees⟩
    · refine ⟨_, hnew.find, ?_⟩
      rw [hnew.symbol]
      exact ty.agrees_refl
  have hlogical := Ty.isLogical_of_agrees hagrees hty
  refine ⟨x, Steps.keeps hreached' hsteps hquiet hfind (Ty.not_unlisted_of_isLogical hlogical), ?_⟩
  rwa [(hreached'.grows hsteps hquiet).symbol ((hreached'.tidy hafter).has hfind)]

end

/-! ## Defined functions -/

/-- The functions whose definitions were begun. -/
def defined (r : Reading) : List SymbolId :=
  r.unit.functions.map (·.symbol) ++ (r.draft.map (·.symbol)).toList

/-- Every definition lists its parameters. -/
def Listed (r : Reading) : Prop := ∀ x ∈ r.defined, (r.table.symbol x).ty.params?.isSome = true

/-- No function is defined twice, and all are known at file level. -/
structure Defines (r : Reading) : Prop where
  known : ∀ x ∈ r.defined, r.table.findIn? .file (r.table.symbol x).name = some x
  distinct : r.defined.Nodup

section
variable {o : Options} {r r' : Reading} {x : SymbolId}

/-- A step that begins no definition leaves the functions that were defined. -/
theorem Step.defined (hstep : r.Step r') : r'.defined = r.defined ∨
    ∃ name ty, r.draft = none ∧ ty.isFunction = true ∧ r' = r.define name ty := by
  have hdraft {d : Draft} (hd : r.draft = some d) :
      r.defined = r.unit.functions.map (·.symbol) ++ [d.symbol] := by
    rw [Reading.defined, hd]
    rfl
  cases hstep with
  | line | declareFunction | globalVariable | openScope | closeScope | localVariable =>
      exact .inl rfl
  | define name hfile hty => exact .inr ⟨name, _, hfile, hty, rfl⟩
  | param _ hd | resolve _ hd | expr hd | stmt hd => exact .inl (hdraft hd).symm
  | @finish d body hd =>
      left
      let f : Function := ⟨d.symbol, d.scope, body⟩
      have hfinished : (r.finish d body).defined =
          (r.unit.functions ++ [f]).map (·.symbol) ++ [] := rfl
      rw [hfinished, hdraft hd, List.append_nil, List.map_append]
      rfl

theorem defined_define (hfile : r.draft = none) (hr : r.Tidy o) {name : String} {ty : Ty}
    (hquiet : (r.define name ty).checker.Quiet) :
    (r.define name ty).defined = r.defined ++ [⟨r.table.entries.length⟩] := by
  have hdefined : (r.checker.defineFunction name ty).2.Quiet := hquiet
  have heq := Checker.defineFunction_of_quiet hdefined
  rw [Checker.outermost_eq (c := r.checker) hr.collected.file] at heq
  have hsymbol : (r.checker.defineFunction name ty).1 = ⟨r.table.entries.length⟩ :=
    congrArg Prod.fst heq
  simp [Reading.defined, hfile, define, setDraft, setChecker, hsymbol]

theorem Grounded.has (h : r.Grounded) (hx : x ∈ r.defined) : r.table.Has x := by
  rcases List.mem_append.mp hx with hx | hx
  · obtain ⟨f, hf, rfl⟩ := List.mem_map.mp hx
    exact (h.gathered f hf).has
  · obtain ⟨d, hd, rfl⟩ := Option.map_eq_some_iff.mp (Option.mem_toList.mp hx)
    exact (h.within d hd).has

/-- No definition is taken back. -/
theorem Step.defined_subset (hstep : r.Step r') (hquiet : r'.checker.Quiet) (hr : r.Tidy o)
    (hx : x ∈ r.defined) : x ∈ r'.defined := by
  rcases hstep.defined with hsame | ⟨name, ty, hfile, -, rfl⟩
  · rwa [hsame]
  · rw [defined_define hfile hr hquiet]
    exact List.mem_append_left _ hx

/-- As long as nothing is reported, functions with listed parameters are defined once. -/
theorem Reached.defines (h : Reached o r) (hquiet : r.checker.Quiet) (hlisted : r.Listed) :
    r.Defines := by
  -- No definition is taken back, so parameters were listed at every earlier point as well.
  induction h with
  | refl => exact ⟨fun x hx => absurd hx List.not_mem_nil, List.nodup_nil⟩
  | @tail r r' hinit hlast ih =>
      have hbefore := hlast.quiet hquiet
      have htidy : r.Tidy o := Reached.tidy hinit hbefore
      have hgrows := (hlast.changes hquiet htidy).grows htidy.collected.reachable
      have hhas : ∀ x ∈ r.defined, r.table.Has x := fun x hx =>
        (Reached.grounded hinit hbefore).has hx
      have hlisted' : r.Listed := by
        intro x hx
        rw [← hgrows.symbol (hhas x hx)]
        exact hlisted x (hlast.defined_subset hquiet htidy hx)
      have hdefines := ih hbefore hlisted'
      have hkept : ∀ x ∈ r.defined, r'.table.findIn? .file (r'.table.symbol x).name = some x := by
        intro x hx
        rw [hgrows.symbol (hhas x hx)]
        exact hlast.keeps hquiet htidy (hdefines.known x hx)
          (Ty.not_unlisted_of_params (hlisted' x hx))
      rcases hlast.defined with hsame | ⟨name, ty, hfile, hty, rfl⟩
      · refine ⟨?_, ?_⟩ <;> rw [hsame]
        · exact hkept
        · exact hdefines.distinct
      · have hnew := htidy.rebinds_define hty hquiet
        refine ⟨?_, ?_⟩ <;> rw [defined_define hfile htidy hquiet]
        · refine List.forall_mem_append.mpr ⟨hkept, List.forall_mem_singleton.mpr ?_⟩
          rw [hnew.symbol]
          exact hnew.find
        · refine hdefines.distinct.append (List.nodup_singleton _) fun x hx hlast => ?_
          cases List.mem_singleton.mp hlast
          exact Nat.lt_irrefl _ (hhas _ hx)

end

end Reading

end LittleC
