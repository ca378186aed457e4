import LittleC.Proofs.Symbols.Growth

/-! # Checking that reports nothing

Every operation of a checker reports at most one mistake. Where nothing was reported afterwards,
nothing was before, and the operation did what it is for. -/

namespace LittleC

namespace Log

/-- What one operation does to a log. -/
inductive Next (log : Log) : Log → Prop where
  | same : Next log log
  | report (e : CheckError) : Next log (log.report e)
  | line (n : Nat) : Next log (log.setLine n)

/-- Every diagnostic is an error. -/
def AllErrors (log : Log) : Prop := ∀ d ∈ log.entries, d.severity = .error

section
variable {log log' : Log}

theorem Next.allErrors (h : log.Next log') (hlog : log.AllErrors) : log'.AllErrors := by
  cases h with
  | same | line => exact hlog
  | report e =>
      intro d hd
      rcases List.mem_append.mp hd with hd | hd
      · exact hlog d hd
      · rw [List.mem_singleton.mp hd]

/-- Diagnostics are never taken back. -/
theorem Next.entries_eq_nil (h : log.Next log') (hlog : log'.entries = []) : log.entries = [] := by
  cases h with
  | same | line => exact hlog
  | report e => simp [Log.report] at hlog

theorem AllErrors.errorCount (h : log.AllErrors) : log.errorCount = log.entries.length :=
  List.countP_eq_length.mpr fun d hd => beq_iff_eq.mpr (h d hd)

end

end Log

namespace Checker

/-- Nothing was reported. -/
def Quiet (c : Checker) : Prop := c.log.entries = []

section
variable {c : Checker} {name : String} {ty : Ty} {fault : Option CheckError}

/-! ## Reports -/

theorem symbols_reportAny (c : Checker) (fault : Option CheckError) :
    (c.reportAny fault).symbols = c.symbols := by cases fault <;> rfl

theorem returnType_reportAny (c : Checker) (fault : Option CheckError) :
    (c.reportAny fault).returnType = c.returnType := by cases fault <;> rfl

theorem next_reportAny (c : Checker) (fault : Option CheckError) :
    c.log.Next (c.reportAny fault).log := by
  cases fault with
  | none => exact .same
  | some e => exact .report e

theorem quiet_reportAny : (c.reportAny fault).Quiet ↔ c.Quiet ∧ fault = none := by
  cases fault <;> simp [reportAny, report, Log.report, Quiet]

theorem not_quiet_report (e : CheckError) : ¬(c.report e).Quiet := by
  simp [report, Log.report, Quiet]

theorem log_outermost (c : Checker) : c.outermost.2.log = c.log := by
  unfold outermost
  split <;> rfl

/-! ## Declarations -/

theorem next_defineFunction (c : Checker) (name : String) (ty : Ty) :
    c.log.Next (c.defineFunction name ty).2.log := by
  rw [← log_outermost c]
  exact next_reportAny ({ c.outermost.2 with returnType := some ty.result } : Checker) _

/-- What a name stood for, if anything, may be defined. -/
theorem definitionFault_of_quiet (h : (c.defineFunction name ty).2.Quiet) :
    ((c.outermost.2.symbols.findIn? c.outermost.1 name).bind fun id =>
      definitionFault name (c.outermost.2.symbols.symbol id).ty ty) = none := by
  have hquiet : (({ c.outermost.2 with returnType := some ty.result } : Checker).reportAny
      ((c.outermost.2.symbols.findIn? c.outermost.1 name).bind fun id =>
        definitionFault name (c.outermost.2.symbols.symbol id).ty ty)).Quiet := h
  exact (quiet_reportAny.mp hquiet).2

/-- A definition puts a new symbol of its name into the outermost scope. -/
theorem defineFunction_of_quiet (h : (c.defineFunction name ty).2.Quiet) :
    c.defineFunction name ty =
      ({ c.outermost.2 with returnType := some ty.result } : Checker).replaceIn c.outermost.1
        (.fresh name ty) := by
  unfold defineFunction
  dsimp only
  rw [definitionFault_of_quiet h]
  rfl

theorem agrees_of_declarationFault {prior : Ty} (h : declarationFault name prior ty = none) :
    prior.agrees ty = true := by
  unfold declarationFault at h
  split at h
  · next hagrees => exact hagrees
  · cases h

theorem next_declareFunction (c : Checker) (name : String) (ty : Ty) :
    c.log.Next (c.declareFunction name ty).2.log := by
  rw [← log_outermost c]
  unfold declareFunction
  dsimp only
  split
  · exact next_reportAny _ _
  · exact .same

/-- A declaration finds the symbol of its name in the outermost scope or puts a new one there. -/
theorem declareFunction_of_quiet (h : (c.declareFunction name ty).2.Quiet) :
    (∃ id, c.outermost.2.symbols.findIn? c.outermost.1 name = some id ∧
        (c.outermost.2.symbols.symbol id).ty.agrees ty = true ∧
        c.declareFunction name ty = (id, c.outermost.2)) ∨
      c.outermost.2.symbols.findIn? c.outermost.1 name = none ∧
        c.declareFunction name ty = c.outermost.2.insertIn c.outermost.1 (.fresh name ty) := by
  unfold declareFunction at h ⊢
  dsimp only at h ⊢
  split at h
  · next id hfind =>
      have hfault := (quiet_reportAny.mp h).2
      refine Or.inl ⟨id, hfind, agrees_of_declarationFault hfault, ?_⟩
      rw [hfault]
      rfl
  · next hfind => exact Or.inr ⟨hfind, rfl⟩

theorem next_declareVariable (c : Checker) (name : String) (ty : Ty) :
    c.log.Next (c.declareVariable name ty).2.log := by
  unfold declareVariable
  split
  · split
    · exact next_reportAny _ _
    · exact .report _
  · exact .same

/-- A variable is new in its scope, unless it was declared at file level before. -/
theorem declareVariable_of_quiet (h : (c.declareVariable name ty).2.Quiet) :
    (∃ id, c.symbols.find? name = some id ∧ c.symbols.atOutermost = true ∧
        (c.symbols.symbol id).ty.agrees ty = true ∧ c.declareVariable name ty = (id, c)) ∨
      c.symbols.find? name = none ∧ c.declareVariable name ty = c.insert (.fresh name ty) := by
  unfold declareVariable at h ⊢
  split at h
  · next id hfind =>
      refine Or.inl ⟨id, hfind, ?_⟩
      split at h
      · next hfile =>
          have hfault := (quiet_reportAny.mp h).2
          rw [if_pos hfile, hfault]
          exact ⟨hfile, agrees_of_declarationFault hfault, rfl⟩
      · exact absurd h (not_quiet_report _)
  · next hfind => exact Or.inr ⟨hfind, rfl⟩

theorem next_resolve (c : Checker) (name : String) : c.log.Next (c.resolve name).2.log := by
  unfold resolve
  split
  · exact .same
  · exact .report _

/-- A name stands for a symbol of an open scope. -/
theorem resolve_of_quiet (h : (c.resolve name).2.Quiet) :
    ∃ id, c.symbols.lookup? name = some id ∧ c.resolve name = (id, c) := by
  unfold resolve at h ⊢
  split at h
  · next id hlookup => exact ⟨id, hlookup, rfl⟩
  · exact absurd h (not_quiet_report _)

/-! ## What declarations do to the table -/

theorem symbols_insert {id : ScopeId} (h : c.symbols.current? = some id) (s : Symbol) :
    (c.insert s).2.symbols = (c.symbols.insertIn id s).2 := by
  rw [insert, SymbolTable.insert, h]

/-- Once a scope was opened, the first one is the outermost. -/
theorem outermost_eq (h : 0 < c.symbols.scopes.length) : c.outermost = (.file, c) := by
  have hfile : c.symbols.outermost? = some .file := by
    rw [SymbolTable.outermost?, if_neg (by simpa [List.length_pos_iff] using h)]
    rfl
  rw [outermost, hfile]

theorem extends_defineFunction (h : 0 < c.symbols.scopes.length)
    (hquiet : (c.defineFunction name ty).2.Quiet) :
    c.symbols.Extends (c.defineFunction name ty).2.symbols := by
  rw [defineFunction_of_quiet hquiet, outermost_eq h]
  exact ⟨.single (.replaceIn name ty), rfl⟩

theorem extends_declareFunction (h : 0 < c.symbols.scopes.length)
    (hquiet : (c.declareFunction name ty).2.Quiet) :
    c.symbols.Extends (c.declareFunction name ty).2.symbols := by
  rcases declareFunction_of_quiet hquiet with ⟨id, -, -, heq⟩ | ⟨-, heq⟩
  · rw [heq, outermost_eq h]
    exact .refl _
  · rw [heq, outermost_eq h]
    exact ⟨.single (.insertIn ty (.inl rfl)), rfl⟩

theorem extends_declareVariable {id : ScopeId} (h : c.symbols.current? = some id)
    (hquiet : (c.declareVariable name ty).2.Quiet) :
    c.symbols.Extends (c.declareVariable name ty).2.symbols := by
  rcases declareVariable_of_quiet hquiet with ⟨x, -, -, -, heq⟩ | ⟨hfind, heq⟩
  · rw [heq]
    exact .refl _
  · have hnew : c.symbols.findIn? id name = none := by
      rwa [SymbolTable.find?, h, Option.bind_some] at hfind
    rw [heq, symbols_insert h]
    exact ⟨.single (.insertIn ty (.inr hnew)), rfl⟩

end

end Checker

end LittleC
