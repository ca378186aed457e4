import LittleC.Proofs.Checking.Reading
import LittleC.Proofs.Frame.Storage
import LittleC.Proofs.Labels.Consistent

/-! # Finished units

A unit gives a text only when nothing was reported and no function has errors, and the text is that
of the assembly of its functions. -/

namespace LittleC

/-- What has to be so for a unit to give a text. -/
structure Compilation.Finishes (u : Compilation) (text : String) : Prop where
  count : u.checker.log.errorCount = 0
  sound : ∀ f ∈ u.functions, f.hasError = false
  text : ∃ target, Target.ofTriple? u.options.triple = some target ∧
    text = (Assembly.ofFunctions u.options.notes u.checker.closeScope.2.symbols
      u.functions).text target

theorem Compilation.finishes {u : Compilation} {text : String} (h : u.finish = .ok text) :
    u.Finishes text := by
  unfold finish generate at h
  dsimp only at h
  split at h
  · cases h
  next hcount =>
    split at h
    · cases h
    next target htarget =>
      split at h
      · cases h
      next hfind =>
        refine ⟨Nat.eq_zero_of_not_pos hcount, ?_, target, htarget, ?_⟩
        · intro f hf
          exact Bool.eq_false_of_not_eq_true (List.find?_eq_none.mp hfind f hf)
        · exact (Except.ok.inj h).symm

namespace Reading

section
variable {o : Options} {r r' : Reading} {text : String}

theorem Step.options (h : r.Step r') : r'.unit.options = r.unit.options := by cases h <;> rfl

theorem Reached.options (h : Reached o r) : r.unit.options = o := by
  induction h with
  | refl => rfl
  | tail _ hstep ih => exact hstep.options.trans ih

theorem Reached.allErrors (h : Reached o r) : r.checker.log.AllErrors := by
  induction h with
  | refl => exact fun d hd => absurd hd List.not_mem_nil
  | tail _ hstep ih => exact hstep.next.allErrors ih

/-- Nothing was reported in a unit that gives a text. -/
theorem Reached.quiet_of_finish (h : Reached o r) (hfinish : r.unit.finish = .ok text) :
    r.checker.Quiet := by
  have hcount : r.checker.log.entries.length = 0 :=
    h.allErrors.errorCount.symm.trans (Compilation.finishes hfinish).count
  exact List.length_eq_zero_iff.mp hcount

theorem Reached.text_of_finish (h : Reached o r) (hfinish : r.unit.finish = .ok text) :
    ∃ target, Target.ofTriple? o.triple = some target ∧ text = r.assembly.text target := by
  obtain ⟨target, htarget, htext⟩ := (Compilation.finishes hfinish).text
  rw [h.options] at htarget
  exact ⟨target, htarget, htext⟩

/-- A unit gives a text when nothing was reported, no function has errors and there is a target. -/
theorem Reached.finish_of_quiet (h : Reached o r) (hquiet : r.checker.Quiet)
    (hsound : ∀ f ∈ r.unit.functions, f.hasError = false) {target : Target}
    (htarget : Target.ofTriple? o.triple = some target) :
    r.unit.finish = .ok (r.assembly.text target) := by
  have hcount : r.unit.checker.log.errorCount = 0 := by
    have hentries : r.unit.checker.log.entries = [] := hquiet
    rw [Log.errorCount, hentries]
    rfl
  rw [Compilation.finish, hcount, assembly, h.options]
  exact Assembly.generate_ofFunctions htarget hsound

end

end Reading

end LittleC
