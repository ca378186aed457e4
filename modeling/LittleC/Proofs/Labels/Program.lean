import LittleC.Proofs.Labels.Trees
import LittleC.Proofs.Lowering.Function

/-! # Labels of a program

One counter gives out all labels, and functions are lowered one after the other. So the labels that
the functions define and those of the texts are all that were taken, each once. -/

namespace LittleC

open Lowering (State)

/-- Lowering went from `s` to `s'` and wrote the routines: each jumps within itself, and all labels
that were taken are defined once, in a routine or with the new texts. -/
structure Linkage (P : Naming) (s : State) (routines : List Routine) (s' : State) : Prop where
  names : ∀ r ∈ routines, P.called r.name
  lines : ∀ r ∈ routines, ∀ l ∈ r.code, l.Linked (textLabels s'.texts) P
  targets : ∀ r ∈ routines, ∀ l ∈ targetsOf r.code, l ∈ labelsOf r.code
  le : s.nextLabel ≤ s'.nextLabel
  taken : ∃ texts, s'.texts = s.texts ++ texts ∧
    ((routines.flatMap fun r => labelsOf r.code) ++ textLabels texts).Perm
      (labelsBetween s.nextLabel s'.nextLabel)

section
variable {P : Naming} {s s' s'' : State} {t : SymbolTable}

theorem Linkage.nil (s : State) : Linkage P s [] s where
  names _ hr := absurd hr List.not_mem_nil
  lines _ hr := absurd hr List.not_mem_nil
  targets _ hr := absurd hr List.not_mem_nil
  le := Nat.le_refl _
  taken := ⟨[], (List.append_nil _).symm, .of_eq (labelsBetween_self _).symm⟩

theorem Linkage.append {routines routines' : List Routine} (h : Linkage P s routines s')
    (h' : Linkage P s' routines' s'') : Linkage P s (routines ++ routines') s'' := by
  obtain ⟨texts, htexts, htaken⟩ := h.taken
  obtain ⟨texts', htexts', htaken'⟩ := h'.taken
  have hsubset : ∀ l ∈ textLabels s'.texts, l ∈ textLabels s''.texts := fun l hl => by
    rw [htexts', textLabels_append]
    exact List.mem_append_left _ hl
  refine ⟨List.forall_mem_append.mpr ⟨h.names, h'.names⟩,
    List.forall_mem_append.mpr ⟨fun r hr l hl => (h.lines r hr l hl).mono hsubset, h'.lines⟩,
    List.forall_mem_append.mpr ⟨h.targets, h'.targets⟩, Nat.le_trans h.le h'.le, texts ++ texts',
    by rw [htexts', htexts, List.append_assoc], ?_⟩
  rw [List.flatMap_append, textLabels_append, ← labelsBetween_append h.le h'.le]
  refine List.Perm.trans ?_ (htaken.append htaken')
  rw [List.append_assoc, List.append_assoc]
  refine List.Perm.append_left _ ?_
  rw [← List.append_assoc, ← List.append_assoc]
  exact List.perm_append_comm.append_right _

/-! ## Functions -/

theorem Routine.linked_prologue (labels : List Label) (P : Naming) (f : Function)
    (frame : Int) : ∀ l ∈ prologue t f frame, l.Linked labels P := by
  unfold prologue
  simp only [List.forall_mem_append]
  refine ⟨⟨?_, ?_⟩, fun l hl => ?_⟩
  · simp [Line.Linked, Instr.Linked]
  · split <;> simp [Line.Linked, Instr.Linked]
  · obtain ⟨i, hi, rfl⟩ := List.mem_iff_getElem.mp hl
    rw [List.getElem_zipWith]
    exact ⟨trivial, trivial⟩

/-- A prologue neither defines labels nor jumps. -/
theorem Routine.plain_prologue (f : Function) (frame : Int) :
    labelsOf (prologue t f frame) = [] ∧ targetsOf (prologue t f frame) = [] := by
  have hplain : ∀ l ∈ prologue t f frame, l.label? = none ∧ l.target? = none := by
    unfold prologue
    simp only [List.forall_mem_append]
    refine ⟨⟨?_, ?_⟩, fun l hl => ?_⟩
    · simp [Line.label?, Line.target?]
    · split <;> simp [Line.label?, Line.target?]
    · obtain ⟨i, hi, rfl⟩ := List.mem_iff_getElem.mp hl
      rw [List.getElem_zipWith]
      exact ⟨rfl, rfl⟩
  constructor
  · exact List.filterMap_eq_nil_iff.mpr fun l hl => (hplain l hl).1
  · exact List.filterMap_eq_nil_iff.mpr fun l hl => (hplain l hl).2

theorem Routine.labelsOf_code (f : Function) (t : SymbolTable) (l : Layout) (s : State) :
    labelsOf (f.lower t l s).1.code =
      labelsOf (Stmt.lowerAll t ⟨s.nextLabel⟩ f.body (Function.bodyStart s l)).code ++
        [⟨s.nextLabel⟩] := by
  rw [Function.code_lower, labelsOf_append, labelsOf_append, (plain_prologue f _).1]
  rfl

theorem Routine.targetsOf_code (f : Function) (t : SymbolTable) (l : Layout) (s : State) :
    targetsOf (f.lower t l s).1.code =
      targetsOf (Stmt.lowerAll t ⟨s.nextLabel⟩ f.body (Function.bodyStart s l)).code := by
  rw [Function.code_lower, targetsOf_append, targetsOf_append, (plain_prologue f _).2]
  exact List.append_nil _

/-- All names in a function are as `P` says. -/
structure Function.Refers (t : SymbolTable) (P : Naming) (f : Function) : Prop where
  name : P.called (t.symbol f.symbol).name
  body : ∀ e ∈ Stmt.exprsAll f.body, e.Every (Expr.Refers t P)

theorem Function.linkage_lower {f : Function} (hf : f.Refers t P) (l : Layout) (s : State) :
    Linkage P s [(f.lower t l s).1] (f.lower t l s).2 := by
  have hjoins : Lowering.Joins P [] [⟨s.nextLabel⟩] [] (Stmt.lowerAll t ⟨s.nextLabel⟩ f.body) :=
    Stmt.joins_lowerAll f.body hf.body List.mem_cons_self
  have hbody := hjoins (bodyStart s l) (fun _ => trivial) fun _ hx => absurd hx List.not_mem_nil
  obtain ⟨inner, texts, htexts, hlabels, htaken⟩ := hbody.taken
  have hcode := Routine.labelsOf_code f t l s
  refine ⟨List.forall_mem_singleton.mpr hf.name, List.forall_mem_singleton.mpr fun line hline => ?_,
    List.forall_mem_singleton.mpr fun target htarget => ?_,
    Nat.le_of_succ_le hbody.le, texts, htexts, ?_⟩
  · rw [code_lower] at hline
    rcases List.mem_append.mp hline with hline | hline
    · rcases List.mem_append.mp hline with hline | hline
      · exact Routine.linked_prologue _ P f _ line hline
      · exact hbody.lines line hline
    · simp only [Routine.epilogue, List.mem_cons, List.not_mem_nil, or_false] at hline
      rcases hline with rfl | rfl | rfl | rfl <;> trivial
  · have hown : target ∈ targetsOf (Stmt.lowerAll t ⟨s.nextLabel⟩ f.body (bodyStart s l)).code := by
      rwa [← Routine.targetsOf_code]
    rw [hcode, List.mem_append]
    exact hbody.targets target hown
  · -- The label of the epilogue is the first that was taken and the last that is defined.
    simp only [List.flatMap_cons, List.flatMap_nil, List.append_nil, hcode, List.append_assoc,
      List.singleton_append]
    refine List.perm_middle.trans ?_
    have hall : ⟨s.nextLabel⟩ :: labelsBetween (s.nextLabel + 1) (f.lower t l s).2.nextLabel =
        labelsBetween s.nextLabel (f.lower t l s).2.nextLabel := labelsBetween_cons hbody.le
    rw [← hall]
    exact .cons _ ((hlabels.append_right _).trans htaken)

theorem Function.linkage_lowerAll : ∀ (fs : List (Function × Layout)) (s : State),
    (∀ p ∈ fs, p.1.Refers t P) → Linkage P s (lowerAll t fs s).1 (lowerAll t fs s).2
  | [], s, _ => .nil s
  | (f, l) :: rest, s, h =>
      have ⟨hf, hrest⟩ := List.forall_mem_cons.mp h
      (linkage_lower hf l s).append (linkage_lowerAll rest (f.lower t l s).2 hrest)

end

end LittleC
