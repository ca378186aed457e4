import LittleC.Proofs.Checking.File
import LittleC.Proofs.Encoding.Unit

/-! # Global names

In the assembly of a unit whose definitions list their parameters, every global name is defined
once, as the label of a function or as the storage of a variable. Code reads and writes by name only
variables that have their storage here, and functions. -/

namespace LittleC

open Lowering (State)

/-- An operand that stands for a file-level name is one of those that are known. -/
theorem Instr.Linked.stored {labels : List Label} {P : Naming} {i : Instr} (hi : i.Linked labels P)
    {p : Operand × String} (hp : p ∈ i.accesses) {name : String}
    (hname : p.1 = .mem (.global name)) : P.stored name := by
  have hoperand {x : Operand} (hx : x.Linked labels P) (heq : x = .mem (.global name)) :
      P.stored name := by
    subst heq
    exact hx
  cases i with
  | mov n source target =>
      rcases List.mem_pair.mp hp with rfl | rfl
      · exact hoperand hi.1 hname
      · exact hoperand hi.2 hname
  | lea source r | alu _ _ source r | cmp _ source r =>
      rcases List.mem_pair.mp hp with rfl | rfl
      · exact hoperand hi hname
      · cases hname
  | push source =>
      cases List.mem_singleton.mp hp
      exact hoperand hi hname
  | movs | movzb => rcases List.mem_pair.mp hp with rfl | rfl <;> cases hname
  | neg | idiv | set | reserve | discard =>
      cases List.mem_singleton.mp hp
      cases hname
  | _ => cases hp

/-! ## What is written for a unit -/

/-- Functions are written in their order, each under its name. -/
theorem Function.names_lowerAll (t : SymbolTable) : ∀ (fs : List (Function × Layout)) (s : State),
    (lowerAll t fs s).1.map (·.name) = fs.map fun p => (t.symbol p.1.symbol).name
  | [], _ => rfl
  | (f, l) :: rest, s => congrArg (List.cons _) (names_lowerAll t rest (f.lower t l s).2)

namespace Assembly

variable {t : SymbolTable} {fs : List Function}

theorem names_ofFunctions (notes : Bool) (t : SymbolTable) (fs : List Function) :
    (ofFunctions notes t fs).routines.map (·.name) =
      fs.map fun f => (t.symbol f.symbol).name := by
  refine (Function.names_lowerAll _ _ (.start notes)).trans ?_
  rw [SymbolTable.allocateAll_eq, ← List.map_prod_left_eq_zip, List.map_map,
    ← SymbolTable.allocateAll_eq]
  exact List.map_congr_left fun f _ => SymbolTable.name_allocateAll t fs f.symbol

theorem commons_ofFunctions (notes : Bool) (t : SymbolTable) (fs : List Function) :
    (ofFunctions notes t fs).commons =
      (globals (t.allocateAll fs).2).map fun s => (s.name, s.ty.size) := rfl

/-- Code refers to names as its trees do. -/
theorem linked_ofFunctions (notes : Bool) {P : Naming}
    (h : ∀ f ∈ fs, f.Refers (t.allocateAll fs).2 P) :
    ∃ labels, ∀ r ∈ (ofFunctions notes t fs).routines, ∀ l ∈ r.code, l.Linked labels P := by
  have hlinkage := Function.linkage_lowerAll (fs.zip (t.allocateAll fs).1) (.start notes)
    fun p hp => h p.1 (List.of_mem_zip hp).1
  exact ⟨_, hlinkage.lines⟩

end Assembly

namespace Reading

/-- What the assembly of a unit says of global names. -/
structure DefinesNames (o : Options) (r : Reading) (a : Assembly) : Prop where
  /-- No two labels of functions or pieces of storage have the same name. -/
  distinct : (a.routines.map (·.name) ++ a.commons.map (·.1)).Nodup
  /-- Storage is for the names that were declared at file level as single values or arrays, each in
  the size of its type. -/
  storage : ∀ name size, (name, size) ∈ a.commons ↔
    ∃ ty, r.Declared o name ty ∧ ty.isLogical = true ∧ ty.size = size
  /-- An operand that is addressed by name is a function or is stored. -/
  operands : ∀ routine ∈ a.routines, ∀ i, .instr i ∈ routine.code → ∀ p ∈ i.accesses, ∀ name,
    p.1 = .mem (.global name) →
      (∃ ty, r.Declared o name ty ∧ ty.isFunction = true) ∨ ∃ size, (name, size) ∈ a.commons

section
variable {o : Options} {r : Reading} {f : Function} {x : SymbolId} {name : String} {text : String}

/-! ## Storage -/

theorem Tidy.reachable_placed (hr : r.Tidy o) :
    r.placed.2.Reachable ∧ 0 < r.placed.2.scopes.length := by
  have hclosed : r.closed.Reachable := hr.collected.reachable.closeScope
  refine ⟨hclosed.allocateAll r.unit.functions, ?_⟩
  rw [placed, SymbolTable.scopes_allocateAll]
  exact hr.collected.file

theorem findIn?_placed (r : Reading) (p : ScopeId) : r.placed.2.findIn? p = r.table.findIn? p := by
  have hscopes : r.placed.2.scopes = r.table.scopes :=
    SymbolTable.scopes_allocateAll r.closed r.unit.functions
  funext name
  simp only [SymbolTable.findIn?, SymbolTable.scope, hscopes]

theorem name_placed (r : Reading) (x : SymbolId) :
    (r.placed.2.symbol x).name = (r.table.symbol x).name :=
  SymbolTable.name_allocateAll r.closed r.unit.functions x

theorem Tidy.mem_commons (hr : r.Tidy o) {size : Nat} : (name, size) ∈ r.assembly.commons ↔
    ∃ x, r.table.findIn? .file name = some x ∧ (r.table.symbol x).ty.isLogical = true ∧
      (r.table.symbol x).ty.size = size := by
  obtain ⟨hreachable, hfile⟩ := hr.reachable_placed
  rw [assembly, Assembly.commons_ofFunctions, List.mem_map]
  constructor
  · rintro ⟨s, hs, heq⟩
    cases heq
    obtain ⟨x, hfind, rfl, hty⟩ := (Assembly.mem_globals hreachable hfile).mp hs
    rw [findIn?_placed] at hfind
    rw [ty_placed] at hty ⊢
    exact ⟨x, hfind, hty, rfl⟩
  · rintro ⟨x, hfind, hty, rfl⟩
    have hplaced := hfind
    rw [← findIn?_placed] at hplaced
    have hname : (r.placed.2.symbol x).name = name := (hreachable.findIn?_eq_some_iff.mp hplaced).2
    refine ⟨r.placed.2.symbol x, (Assembly.mem_globals hreachable hfile).mpr ⟨x, ?_, rfl, ?_⟩, ?_⟩
    · rw [hname, hplaced]
    · rw [ty_placed, hty]
    · rw [hname, ty_placed]

/-- Of a value that was declared the storage has the size. -/
theorem Declared.mem_commons {ty : Ty} (h : r.Declared o name ty) (hr : r.Tidy o)
    (hquiet : r.checker.Quiet) (hty : ty.isLogical = true) :
    (name, ty.size) ∈ r.assembly.commons := by
  obtain ⟨x, hfind, hagrees⟩ := h.found hquiet hty
  exact hr.mem_commons.mpr ⟨x, hfind, Ty.isLogical_of_agrees hagrees hty, Ty.size_of_agrees hagrees⟩

/-! ## Names -/

theorem Reached.distinct (h : Reached o r) (hquiet : r.checker.Quiet) (hlisted : r.Listed) :
    (r.assembly.routines.map (·.name) ++ r.assembly.commons.map (·.1)).Nodup := by
  have htidy := h.tidy hquiet
  have hgrounded := h.grounded hquiet
  have hdefines := h.defines hquiet hlisted
  obtain ⟨hreachable, hfile⟩ := htidy.reachable_placed
  have hknown : ∀ f ∈ r.unit.functions,
      r.table.findIn? .file (r.table.symbol f.symbol).name = some f.symbol := fun f hf =>
    hdefines.known f.symbol (List.mem_append_left _ (List.mem_map_of_mem hf))
  have hnames : r.assembly.routines.map (·.name) =
      (r.unit.functions.map (·.symbol)).map fun x => (r.table.symbol x).name := by
    rw [assembly, Assembly.names_ofFunctions, List.map_map]
    rfl
  refine List.Nodup.append ?_ ?_ fun name hroutine hcommon => ?_
  · rw [hnames]
    refine hdefines.distinct.of_append_left.map_on fun x hx y hy heq => ?_
    obtain ⟨f, hf, rfl⟩ := List.mem_map.mp hx
    obtain ⟨g, hg, rfl⟩ := List.mem_map.mp hy
    exact Option.some.inj ((hknown f hf).symm.trans ((congrArg _ heq).trans (hknown g hg)))
  · rw [assembly, Assembly.commons_ofFunctions, List.map_map]
    exact Assembly.nodup_globals hreachable hfile
  · -- Under the name of a function there is no value.
    rw [hnames, List.map_map] at hroutine
    obtain ⟨f, hf, rfl⟩ := List.mem_map.mp hroutine
    obtain ⟨⟨name, size⟩, hc, heq⟩ := List.mem_map.mp hcommon
    obtain ⟨x, hfind, hty, -⟩ := htidy.mem_commons.mp hc
    have hsame : x = f.symbol := by
      have hf' := hknown f hf
      rw [show (r.table.symbol f.symbol).name = name from heq.symm, hfind] at hf'
      exact Option.some.inj hf'
    have hfunction := (hgrounded.gathered f hf).function
    rw [← hsame] at hfunction
    rw [Ty.isLogical_eq, hfunction] at hty
    cases hty

/-! ## Operands -/

/-- A file-level name that a proper tree uses is that of a function or of a stored value. -/
theorem Filed.global (hx : r.Filed o x) (hquiet : r.checker.Quiet)
    (hproper : (r.table.symbol x).ty.isError = false) :
    (∃ ty, r.Declared o (r.table.symbol x).name ty ∧ ty.isFunction = true) ∨
      ∃ size, ((r.table.symbol x).name, size) ∈ r.assembly.commons := by
  obtain ⟨earlier, hreached, hsteps, hmem⟩ := hx
  have hbefore := Steps.quiet hsteps hquiet
  have htidy := hreached.tidy hbefore
  have hfind : earlier.table.findIn? .file (earlier.table.symbol x).name = some x :=
    htidy.collected.reachable.findIn?_eq_some_iff.mpr ⟨hmem, rfl⟩
  have hdeclared := (hreached.declared hbefore hfind).steps hsteps
  rw [← (hreached.grows hsteps hquiet).symbol (htidy.has hfind)] at hdeclared
  cases hfunction : (r.table.symbol x).ty.isFunction with
  | true => exact .inl ⟨_, hdeclared, hfunction⟩
  | false =>
      have hlogical : (r.table.symbol x).ty.isLogical = true := by
        rw [Ty.isLogical_eq, hfunction, hproper]
        rfl
      have hr : r.Tidy o := Reached.tidy (hreached.trans hsteps) hquiet
      exact .inr ⟨_, hdeclared.mem_commons hr hquiet hlogical⟩

/-- The names that operands of a unit may stand for. -/
def naming (o : Options) (r : Reading) : Naming where
  stored name := (∃ ty, r.Declared o name ty ∧ ty.isFunction = true) ∨
    ∃ size, (name, size) ∈ r.assembly.commons
  called _ := True

theorem Finished.refers (h : r.Finished f) (hr : r.Tidy o) (hquiet : r.checker.Quiet)
    (hf : f ∈ r.unit.functions) : f.Refers r.placed.2 (r.naming o) := by
  refine ⟨trivial, fun e he n hn => ?_⟩
  cases n with
  | ident x i =>
      intro hoffset
      obtain ⟨st, hst, hmem⟩ := Stmt.mem_exprsAll.mp he
      obtain ⟨hbuilt, herror⟩ := (h.accepted st hst).exprs e hmem
      have hty : i.ty = (r.placed.2.symbol x).ty := (hbuilt.every_wellFormed herror _ hn).1
      have hproper : i.ty.isError = false := (Expr.hasError_eq_false_iff e).mp herror _ hn
      rw [hty, ty_placed] at hproper
      show (r.naming o).stored _
      rw [name_placed]
      rcases hr.collected.placed f hf e he _ hn x i rfl with hdeclared | hfiled
      · have hstored := (hr.collected.stored_of_declaredIn hf hdeclared).offset.mpr hdeclared
        rw [hoffset] at hstored
        cases hstored
      · exact hfiled.global hquiet hproper
  | call f args i => exact trivial
  | _ => trivial

end

/-- When a unit is finished whose definitions list their parameters, its text is that of an assembly
which defines every global name once: functions and file-level variables have different names, there
is storage for exactly these variables, each in the size of its type, and what code addresses by
name is a function or one of these variables. -/
theorem defines_names_of_finish {o : Options} {r : Reading} {text : String} (h : Reached o r)
    (hfinish : r.unit.finish = .ok text) (hlisted : r.Listed) :
    ∃ target, Target.ofTriple? o.triple = some target ∧ text = r.assembly.text target ∧
      r.DefinesNames o r.assembly := by
  obtain ⟨target, htarget, htext⟩ := h.text_of_finish hfinish
  have hquiet := h.quiet_of_finish hfinish
  have htidy := h.tidy hquiet
  refine ⟨target, htarget, htext, h.distinct hquiet hlisted, fun name size => ⟨?_, ?_⟩, ?_⟩
  · intro hcommon
    obtain ⟨x, hfind, hty, hsize⟩ := htidy.mem_commons.mp hcommon
    exact ⟨_, h.declared hquiet hfind, hty, hsize⟩
  · rintro ⟨ty, hdeclared, hty, rfl⟩
    exact hdeclared.mem_commons htidy hquiet hty
  · intro routine hroutine i hi p hp name hname
    obtain ⟨labels, hlinked⟩ := Assembly.linked_ofFunctions r.unit.options.notes fun f hf =>
      (h.finished hfinish hf).refers htidy hquiet hf
    exact Instr.Linked.stored (hlinked routine hroutine _ hi) hp hname

open Adding in
/-- The function `add` has its label and the variable `total` its four bytes. -/
theorem defines_names_of_finish_sum :
    let r : Reading := read
    Reached options r ∧ r.unit.finish = .ok (r.assembly.text .elf) ∧ r.Listed ∧
      r.assembly.routines.map (·.name) = ["add"] ∧ r.Declared options "total" .int ∧
      ("total", 4) ∈ r.assembly.commons ∧ r.DefinesNames options r.assembly := by
  intro r
  have htarget : Target.ofTriple? options.triple = some .elf := by decide
  have hfinish : r.unit.finish = .ok (r.assembly.text .elf) :=
    reached_read.finish_of_quiet rfl (List.forall_mem_singleton.mpr rfl) htarget
  have hlisted : r.Listed := List.forall_mem_singleton.mpr rfl
  have hnames : r.assembly.routines.map (·.name) = ["add"] := Assembly.names_ofFunctions _ _ _
  have hfind : r.table.findIn? .file "total" = some ⟨0⟩ := by decide
  have hdeclared : r.Declared options "total" .int := reached_read.declared rfl hfind
  obtain ⟨target, -, -, hdefines⟩ := defines_names_of_finish reached_read hfinish hlisted
  have hcommon := (hdefines.storage "total" 4).mpr ⟨.int, hdeclared, rfl, rfl⟩
  exact ⟨reached_read, hfinish, hlisted, hnames, hdeclared, hcommon, hdefines⟩

end Reading

end LittleC
