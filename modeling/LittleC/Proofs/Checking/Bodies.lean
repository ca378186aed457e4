import LittleC.Proofs.Checking.Parameters
import LittleC.Proofs.Typing.Accepted

/-! # Checked bodies

When nothing is reported, the body of every function is made of statements that the rules accept,
over the names of the table as it will be at the end. This needs statements without errors, which
they are when no name has the error type. -/

namespace LittleC

namespace Typing

open LittleC.Expr

section
variable {t u : SymbolTable} {known : SymbolId → Prop} {es : List Expr}
  {ss : List Stmt} {result : Ty}

/-- A rule applied over one table builds what it would over another with the same known names. -/
theorem Rule.built (hknown : ∀ x, known x → (t.symbol x).ty = (u.symbol x).ty)
    (hes : ∀ e ∈ es, e.Built u) {v : Verdict Expr} (hv : Rule t known es v) : v.node.Built u := by
  have hmoved : Rule u known es v := hv.of_types (fun _ hx => hx) hknown
  cases hmoved with
  | @ident x _ => exact .ident x
  | number l => exact .number l
  | text s => exact .text s
  | call _ hargs => exact .call _ fun a ha => hes a (hargs a ha)
  | index hl hr => exact .index (hes _ hl) (hes _ hr)
  | logicalNot he => exact .logicalNot (hes _ he)
  | negate he => exact .negate (hes _ he)
  | deref he => exact .deref (hes _ he)
  | address he => exact .address (hes _ he)
  | sizeOf he => exact .sizeOf (hes _ he)
  | cast target he => exact .cast target (hes _ he)
  | binary op hl hr => exact .binary op (hes _ hl) (hes _ hr)
  | test he => exact .test (hes _ he)

/-- A statement rule without a fault gives an accepted statement, as long as there are no errors in
it. -/
theorem StmtRule.accepted (hes : ∀ e ∈ es, e.Built u)
    (hss : ∀ s ∈ ss, s.hasError = false → s.Accepted u result) {v : Verdict Stmt}
    (hv : StmtRule result es ss v) (h : v.fault = none) (herror : v.node.hasError = false) :
    v.node.Accepted u result := by
  cases hv with
  | expr he => exact .expr (hes _ he) herror
  | assign htarget hvalue =>
      obtain ⟨hsound, hconverted⟩ := Bool.or_eq_false_iff.mp herror
      rw [hasError_convert] at hconverted
      exact .assign (hes _ htarget) (hes _ hvalue) ⟨hsound, hconverted⟩ h
  | ret he => exact .ret (hes _ he) ((hasError_convert _ _).symm.trans herror) h
  | loop hc hbody =>
      obtain ⟨htest, hrest⟩ := Bool.or_eq_false_iff.mp herror
      exact .loop (hes _ hc) ((hasError_promote _).symm.trans htest) h (hss _ hbody hrest)
  | ifThen hc hbody =>
      obtain ⟨htest, hrest⟩ := Bool.or_eq_false_iff.mp herror
      exact .ifThen (hes _ hc) ((hasError_promote _).symm.trans htest) h (hss _ hbody hrest)
  | ifElse hc hbody hother =>
      obtain ⟨hfront, hrest⟩ := Bool.or_eq_false_iff.mp herror
      obtain ⟨htest, hfirst⟩ := Bool.or_eq_false_iff.mp hfront
      exact .ifElse (hes _ hc) ((hasError_promote _).symm.trans htest) h (hss _ hbody hfirst)
        (hss _ hother hrest)
  | block scope hbody =>
      have hsound := Stmt.anyError_eq_false_iff.mp herror
      exact .block scope fun s hs => hss s (hbody s hs) (hsound s hs)

end

end Typing

/-! ## Trees over growing tables -/

/-- A tree that is built over the table and over all that it may grow to, and that has no errors if
no name has. -/
structure Expr.Lasting (t : SymbolTable) (e : Expr) : Prop where
  sound : t.Proper → e.hasError = false
  built : ∀ u : SymbolTable, t.entries <+: u.entries → e.Built u

/-- Accepted over the table and over all that it may grow to. -/
def Stmt.Lasting (t : SymbolTable) (result : Ty) (st : Stmt) : Prop :=
  ∀ u : SymbolTable, t.entries <+: u.entries → st.Accepted u result

/-- A statement that is accepted if it has no errors, which is so if no name has. -/
structure Stmt.Provisional (t : SymbolTable) (result : Ty) (st : Stmt) : Prop where
  sound : t.Proper → st.hasError = false
  accepted : st.hasError = false → st.Lasting t result

section
variable {t u : SymbolTable} {result : Ty} {e : Expr} {st : Stmt}

theorem SymbolTable.Proper.of_prefix (h : u.Proper) (hgrows : t.entries <+: u.entries) : t.Proper :=
  fun s hs => h s (hgrows.mem hs)

theorem Expr.Lasting.mono (h : e.Lasting t) (hgrows : t.entries <+: u.entries) : e.Lasting u :=
  ⟨fun hproper => h.sound (hproper.of_prefix hgrows), fun v hv => h.built v (hgrows.trans hv)⟩

theorem Stmt.Provisional.mono (h : st.Provisional t result) (hgrows : t.entries <+: u.entries) :
    st.Provisional u result :=
  ⟨fun hproper => h.sound (hproper.of_prefix hgrows),
    fun herror v hv => h.accepted herror v (hgrows.trans hv)⟩

end

namespace Reading

open SymbolTable (Has)

/-- What holds of the function that is being read, which was defined as `d.symbol`. -/
structure Checked (r : Reading) (d : Draft) : Prop where
  has : r.table.Has d.symbol
  function : (r.table.symbol d.symbol).ty.isFunction = true
  result : r.checker.returnType = some (r.table.symbol d.symbol).ty.result
  parameters : r.table.Awaits d.symbol d.scope d.awaited
  names : ∀ x ∈ d.names, r.table.Has x
  exprs : ∀ e ∈ d.exprs, e.Lasting r.table
  stmts : ∀ st ∈ d.stmts, st.Provisional r.table (r.table.symbol d.symbol).ty.result

/-- What holds of a function that was collected. -/
structure Gathered (r : Reading) (f : Function) : Prop where
  has : r.table.Has f.symbol
  function : (r.table.symbol f.symbol).ty.isFunction = true
  parameters : r.table.listed f.symbol <+: r.table.types f.scope
  body : ∀ st ∈ f.body, st.Provisional r.table (r.table.symbol f.symbol).ty.result

/-- What holds of a function without errors that was collected. -/
structure Finished (r : Reading) (f : Function) : Prop where
  has : r.table.Has f.symbol
  function : (r.table.symbol f.symbol).ty.isFunction = true
  parameters : r.table.listed f.symbol <+: r.table.types f.scope
  body : ∀ st ∈ f.body, st.Lasting r.table (r.table.symbol f.symbol).ty.result

/-- What holds of the function that is being read and of those before it. -/
structure Grounded (r : Reading) : Prop where
  within : ∀ d, r.draft = some d → r.Checked d
  gathered : ∀ f ∈ r.unit.functions, r.Gathered f

structure Sound (r : Reading) : Prop where
  finished : ∀ f ∈ r.unit.functions, r.Finished f

section
variable {o : Options} {r r' : Reading} {d : Draft} {f : Function}

/-! ## What a step leaves -/

theorem Collected.ne_file (hr : r.Collected o) (hf : f ∈ r.unit.functions) : f.scope ≠ .file :=
  SymbolTable.Encloses.ne_file hr.reachable.tree (hr.child f hf) .refl

theorem Tidy.ne_file (hr : r.Tidy o) (hd : r.draft = some d) : d.scope ≠ .file :=
  SymbolTable.Encloses.ne_file hr.collected.reachable.tree (hr.within d hd).child .refl

theorem Gathered.step (h : r.Gathered f) (hr : r.Collected o) (hgrows : r.table.Grows r'.table)
    (hf : f.scope ≠ .file) : r'.Gathered f := by
  have hsymbol := hgrows.symbol h.has
  refine ⟨h.has.mono hgrows.entries, hsymbol ▸ h.function, ?_, fun st hst => ?_⟩
  · rw [hgrows.listed h.has]
    exact h.parameters.trans (hgrows.types hr.reachable.bound hf)
  · rw [hsymbol]
    exact (h.body st hst).mono hgrows.entries

/-- A step that makes no tree; it may bring in a parameter. -/
theorem Checked.step (h : r.Checked d) (hgrows : r.table.Grows r'.table)
    (hresult : r'.checker.returnType = r.checker.returnType) {awaited : List Ty}
    (hparameters : r'.table.Awaits d.symbol d.scope awaited) :
    r'.Checked { d with awaited := awaited } := by
  have hsymbol := hgrows.symbol h.has
  refine ⟨h.has.mono hgrows.entries, hsymbol ▸ h.function, ?_, hparameters,
    fun x hx => (h.names x hx).mono hgrows.entries,
    fun e he => (h.exprs e he).mono hgrows.entries, fun st hst => ?_⟩
  · rw [hresult, h.result, hsymbol]
  · rw [hsymbol]
    exact (h.stmts st hst).mono hgrows.entries

/-- A step that leaves the table as it is. -/
theorem Checked.of_table (h : r.Checked d) (htable : r'.table = r.table)
    (hresult : r'.checker.returnType = r.checker.returnType) : r'.Checked d where
  has := htable ▸ h.has
  function := htable ▸ h.function
  result := hresult ▸ htable ▸ h.result
  parameters := htable ▸ h.parameters
  names := htable ▸ h.names
  exprs := htable ▸ h.exprs
  stmts := htable ▸ h.stmts

/-- A step that brings in no parameter either. -/
theorem Checked.keep (h : r.Checked d) (hr : r.Tidy o) (hd : r.draft = some d)
    (hgrows : r.table.Grows r'.table) (hresult : r'.checker.returnType = r.checker.returnType)
    (hsame : d.awaited ≠ [] → r'.table.symbols d.scope = r.table.symbols d.scope ∧
      r'.table.current? = r.table.current?) : r'.Checked d :=
  h.step hgrows hresult
    (h.parameters.step hgrows hr.collected.reachable.bound (hr.ne_file hd) h.has hsame)

theorem Grounded.step (h : r.Grounded) (hr : r.Collected o) (hgrows : r.table.Grows r'.table)
    (hfunctions : r'.unit.functions = r.unit.functions)
    (hwithin : ∀ d, r'.draft = some d → r'.Checked d) : r'.Grounded := by
  refine ⟨hwithin, fun f hf => ?_⟩
  rw [hfunctions] at hf
  exact (h.gathered f hf).step hr hgrows (hr.ne_file hf)

theorem Checked.finish (h : r.Checked d) {body : List Stmt} (hbody : d.awaited = [])
    (hstmts : ∀ st ∈ body, st ∈ d.stmts) :
    (r.finish d body).Gathered ⟨d.symbol, d.scope, body⟩ := by
  have hparameters := h.parameters
  rw [hbody] at hparameters
  have hfirst := hparameters.of_nil
  exact ⟨h.has, h.function, hfirst, fun st hst => (h.stmts st (hstmts st hst)).mono List.prefix_rfl⟩

/-- A new body has nothing in it, and all parameters are awaited. -/
theorem checked_define (hr : r.Tidy o) {name : String} {ty : Ty} (hty : ty.isFunction = true)
    (hquiet : (r.define name ty).checker.Quiet) (hd : (r.define name ty).draft = some d) :
    (r.define name ty).Checked d := by
  cases hd
  have hdefined : (r.checker.defineFunction name ty).2.Quiet := hquiet
  have hfile := Checker.outermost_eq (c := r.checker) hr.collected.file
  have hreachable := (Checker.extends_defineFunction hr.collected.file hdefined).1.reachable
    hr.collected.reachable
  have hopened := SymbolTable.grows_openScope hreachable.tree
  obtain ⟨hhas, hsymbol, hresult⟩ :
      (r.checker.defineFunction name ty).2.symbols.Has (r.checker.defineFunction name ty).1 ∧
        (r.checker.defineFunction name ty).2.symbols.symbol (r.checker.defineFunction name ty).1 =
          .fresh name ty ∧
        (r.checker.defineFunction name ty).2.returnType = some ty.result := by
    rw [Checker.defineFunction_of_quiet hdefined, hfile]
    refine ⟨?_, SymbolTable.symbol_insertIn _ _ _, rfl⟩
    show r.table.entries.length < (r.table.entries ++ [Symbol.fresh name ty]).length
    simp
  have hty' : ((r.define name ty).table.symbol (r.checker.defineFunction name ty).1).ty = ty :=
    congrArg Symbol.ty ((hopened.symbol hhas).trans hsymbol)
  have hlisted : (r.define name ty).table.listed (r.checker.defineFunction name ty).1 =
      ty.params?.getD [] := by rw [SymbolTable.listed, hty']
  have hparameters := SymbolTable.awaits_openScope hreachable.tree
    (r.checker.defineFunction name ty).1
  refine ⟨hhas.mono hopened.entries, hty'.symm ▸ hty, ?_, hlisted ▸ hparameters,
    fun x hx => absurd hx List.not_mem_nil, fun e he => absurd he List.not_mem_nil,
    fun st hst => absurd hst List.not_mem_nil⟩
  rw [hty']
  exact hresult

/-- A parameter that is declared is awaited no longer. -/
theorem Checked.param (h : r.Checked d) (hr : r.Tidy o) (hd : r.draft = some d) {name : String}
    {ty : Ty} {rest : List Ty} (hawaited : d.awaited = ty :: rest)
    (hquiet : (r.declare name ty).checker.Quiet)
    (hgrows : r.table.Grows ((r.declare name ty).setDraft { d with awaited := rest }).table)
    {d' : Draft} (hd' : ((r.declare name ty).setDraft { d with awaited := rest }).draft = some d') :
    ((r.declare name ty).setDraft { d with awaited := rest }).Checked d' := by
  cases hd'
  have hdeclared : (r.checker.declareVariable name ty).2.Quiet := hquiet
  have hchild := (hr.within d hd).child
  have hparameters := h.parameters
  rw [hawaited] at hparameters
  have hcurrent := hparameters.current (List.cons_ne_nil _ _)
  obtain ⟨hnew, htable⟩ := Checker.declareVariable_inner hcurrent hchild.2 hdeclared
  refine h.step hgrows (r.checker.returnType_declareVariable name ty) ?_
  show (r.checker.declareVariable name ty).2.symbols.Awaits d.symbol d.scope rest
  rw [htable]
  exact hparameters.insertIn hr.collected.reachable.bound h.has hchild.1 hnew

/-- A name that is found is one of the table. -/
theorem Checked.resolve (h : r.Checked d) (hr : r.Tidy o) {name : String}
    (hquiet : (r.resolve d name).checker.Quiet) {d' : Draft}
    (hd' : (r.resolve d name).draft = some d') : (r.resolve d name).Checked d' := by
  cases hd'
  obtain ⟨x, hlookup, heq⟩ := Checker.resolve_of_quiet (c := r.checker) hquiet
  obtain ⟨p, -, hx⟩ := SymbolTable.mem_symbols_of_lookup? hlookup
  have hhas : r.table.Has x := SymbolTable.lt_of_mem_symbols hr.collected.reachable.bound hx
  have hsame := table_resolve (d := d) hquiet
  have hkept : (r.resolve d name).Checked d :=
    h.of_table hsame (r.checker.returnType_resolve name)
  refine { hkept with names := List.forall_mem_cons.mpr ⟨?_, hkept.names⟩ }
  rw [hsame, heq]
  exact hhas

/-- A tree over lasting trees lasts. -/
theorem Checked.addExpr (h : r.Checked d) {v : Verdict Expr}
    (hv : Typing.Rule r.table (· ∈ d.names) d.exprs v) (hquiet : (r.addExpr d v).checker.Quiet)
    {d' : Draft} (hd' : (r.addExpr d v).draft = some d') : (r.addExpr d v).Checked d' := by
  cases hd'
  have hfault := (Checker.quiet_reportAny.mp hquiet).2
  have hsame := r.table_addExpr d v
  have hkept : (r.addExpr d v).Checked d :=
    h.of_table hsame (r.checker.returnType_reportAny v.fault)
  have hlasting : v.node.Lasting r.table := by
    refine ⟨fun hproper => ?_, fun u hu => ?_⟩
    · exact hv.hasError (fun x hx => hproper.isError (h.names x hx))
        (fun e he => (h.exprs e he).sound hproper) hfault
    · refine hv.built (fun x hx => ?_) fun e he => (h.exprs e he).built u hu
      rw [SymbolTable.symbol_of_prefix hu (h.names x hx)]
  refine { hkept with exprs := List.forall_mem_cons.mpr ⟨?_, hkept.exprs⟩ }
  rw [hsame]
  exact hlasting

/-- A statement over lasting trees and provisional statements is provisional. -/
theorem Checked.addStmt (h : r.Checked d) {v : Verdict Stmt}
    (hv : Typing.StmtRule (r.checker.returnType.getD .error) d.exprs d.stmts v)
    (hquiet : (r.addStmt d v).checker.Quiet) {d' : Draft}
    (hd' : (r.addStmt d v).draft = some d') : (r.addStmt d v).Checked d' := by
  cases hd'
  have hfault := (Checker.quiet_reportAny.mp hquiet).2
  have hsame := r.table_addStmt d v
  have hkept : (r.addStmt d v).Checked d :=
    h.of_table hsame (r.checker.returnType_reportAny v.fault)
  rw [h.result, Option.getD_some] at hv
  have hprovisional : v.node.Provisional r.table (r.table.symbol d.symbol).ty.result := by
    refine ⟨fun hproper => ?_, fun herror u hu => ?_⟩
    · exact hv.hasError (fun e he => (h.exprs e he).sound hproper)
        fun st hst => (h.stmts st hst).sound hproper
    · exact hv.accepted (fun e he => (h.exprs e he).built u hu)
        (fun st hst hsound => (h.stmts st hst).accepted hsound u hu) hfault herror
  refine { hkept with stmts := List.forall_mem_cons.mpr ⟨?_, hkept.stmts⟩ }
  rw [hsame]
  exact hprovisional

/-! ## Every step -/

theorem Step.grounded (hstep : r.Step r') (hquiet : r'.checker.Quiet) (hr : r.Tidy o)
    (h : r.Grounded) : r'.Grounded := by
  have hgrows := (hstep.changes hquiet hr).grows hr.collected.reachable
  cases hstep with
  | line n =>
      exact h.step hr.collected hgrows rfl fun d hd =>
        (h.within d hd).of_table rfl rfl
  | declareFunction name ty =>
      have hdeclared : (r.checker.declareFunction name ty).2.Quiet := hquiet
      have hchain := (Checker.extends_declareFunction hr.collected.file hdeclared).2
      refine h.step hr.collected hgrows rfl fun d hd => (h.within d hd).keep hr hd hgrows
        (r.checker.returnType_declareFunction name ty) fun _ => ⟨?_, congrArg List.head? hchain⟩
      exact Checker.symbols_declareFunction hr.collected.file hdeclared (hr.ne_file hd)
  | globalVariable name ty hfile =>
      exact h.step hr.collected hgrows rfl fun d hd => nomatch hfile.symm.trans hd
  | define name hfile hty =>
      exact h.step hr.collected hgrows rfl fun d hd => checked_define hr hty hquiet hd
  | @param d name ty rest hd hawaited =>
      exact h.step hr.collected hgrows rfl fun d' hd' =>
        (h.within d hd).param hr hd hawaited hquiet hgrows hd'
  | @localVariable d name ty hd hbody =>
      refine h.step hr.collected hgrows rfl fun d' hd' => ?_
      cases hd.symm.trans hd'
      exact (h.within d hd).keep hr hd hgrows (r.checker.returnType_declareVariable name ty)
        fun hne => absurd hbody hne
  | @openScope d hd hbody =>
      refine h.step hr.collected hgrows rfl fun d' hd' => ?_
      cases hd.symm.trans hd'
      exact (h.within d hd).keep hr hd hgrows rfl fun hne => absurd hbody hne
  | @closeScope d hd hinner =>
      refine h.step hr.collected hgrows rfl fun d' hd' => ?_
      cases hd.symm.trans hd'
      exact (h.within d hd).keep hr hd hgrows rfl fun hne =>
        absurd ((h.within d hd).parameters.current hne) hinner
  | @resolve d name hd =>
      exact h.step hr.collected hgrows rfl fun d' hd' => (h.within d hd).resolve hr hquiet hd'
  | @expr d v hd hv =>
      exact h.step hr.collected hgrows rfl fun d' hd' => (h.within d hd).addExpr hv hquiet hd'
  | @stmt d v hd hv =>
      exact h.step hr.collected hgrows rfl fun d' hd' => (h.within d hd).addStmt hv hquiet hd'
  | @finish d body hd hbody houter hstmts =>
      refine ⟨nofun, List.forall_mem_append.mpr ⟨fun f hf => ?_, ?_⟩⟩
      · exact (h.gathered f hf).step hr.collected hgrows (hr.collected.ne_file hf)
      · exact List.forall_mem_singleton.mpr ((h.within d hd).finish hbody hstmts)

theorem grounded_start (o : Options) : (start o).Grounded :=
  ⟨nofun, fun _ hf => absurd hf List.not_mem_nil⟩

/-- As long as nothing is reported, all statements without errors are accepted. -/
theorem Reached.grounded (h : Reached o r) (hquiet : r.checker.Quiet) : r.Grounded := by
  induction h with
  | refl => exact grounded_start o
  | @tail r r' hinit hlast ih =>
      have hbefore := hlast.quiet hquiet
      exact hlast.grounded hquiet (Reached.tidy hinit hbefore) (ih hbefore)

theorem Gathered.finished (h : r.Gathered f) (herror : f.hasError = false) : r.Finished f := by
  have hbody := Stmt.anyError_eq_false_iff.mp herror
  exact ⟨h.has, h.function, h.parameters, fun st hst => (h.body st hst).accepted (hbody st hst)⟩

theorem Gathered.hasError (h : r.Gathered f) (hproper : r.table.Proper) : f.hasError = false :=
  Stmt.anyError_eq_false_iff.mpr fun st hst => (h.body st hst).sound hproper

/-- As long as nothing is reported and no name has the error type, all bodies are accepted. -/
theorem Reached.sound (h : Reached o r) (hquiet : r.checker.Quiet) (hproper : r.table.Proper) :
    r.Sound := by
  refine ⟨fun f hf => ?_⟩
  have hgathered := (h.grounded hquiet).gathered f hf
  exact hgathered.finished (hgathered.hasError hproper)

end

end Reading

end LittleC
