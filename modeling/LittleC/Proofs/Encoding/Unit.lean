import LittleC.Proofs.Checking.Finish
import LittleC.Proofs.Widths.Access
import Mathlib.Data.List.Infix

/-! # All instructions are well-formed

In the text of a unit every instruction of a function whose frame stays below 2 GiB is one that an
assembler takes, whatever is passed in calls and however the parameters are listed. -/

namespace LittleC

open Lowering (State)

namespace Reading

section
variable {o : Options} {r : Reading} {f : Function} {text : String} {target : Target}

/-! ## Functions of a unit -/

/-- Code of any sizes has the known forms. -/
theorem Finished.forms (h : r.Finished f) (l : Layout) (s : State) :
    ∀ line ∈ (f.lower r.placed.2 l s).1.code, line.Form fun _ => True := by
  refine f.forms_lower (fun _ _ => trivial) ?_ (fun _ _ => trivial) h.accepted ?_ l s
  · rw [ty_placed]
    exact h.function
  · intro e _ n _
    cases n with
    | call => exact fun _ _ => trivial
    | _ => trivial

/-- All functions of a unit that gives a text are finished. -/
theorem Reached.finished (h : Reached o r) (hfinish : r.unit.finish = .ok text)
    (hf : f ∈ r.unit.functions) : r.Finished f :=
  ((h.grounded (h.quiet_of_finish hfinish)).gathered f hf).finished
    ((Compilation.finishes hfinish).sound f hf)

theorem Reached.assembles (h : Reached o r) (hfinish : r.unit.finish = .ok text) {routine : Routine}
    (hroutine : routine ∈ r.assembly.routines) (hframe : routine.FrameBelow 0x80000000) {i : Instr}
    (hi : .instr i ∈ routine.code) : i.Assembles target := by
  obtain ⟨⟨f, l⟩, hp, s, rfl⟩ := Function.exists_of_mem_lowerAll _ _ hroutine
  have hf : f ∈ r.unit.functions := (List.of_mem_zip hp).1
  exact Function.assembles_lower ((h.finished hfinish hf).forms l s) hframe hi

end

/-- When a unit is finished, its text is that of an assembly in which every instruction of a routine
is well-formed, as long as less than 2 GiB lie below the frame base at every line of the routine. -/
theorem assembles_of_finish {o : Options} {r : Reading} {text : String} (h : Reached o r)
    (hfinish : r.unit.finish = .ok text) :
    ∃ target, Target.ofTriple? o.triple = some target ∧ text = r.assembly.text target ∧
      ∀ routine ∈ r.assembly.routines, routine.FrameBelow 0x80000000 →
        ∀ i, .instr i ∈ routine.code → i.Assembles target := by
  obtain ⟨target, htarget, htext⟩ := h.text_of_finish hfinish
  refine ⟨target, htarget, htext, ?_⟩
  intro routine hroutine hframe i hi
  exact h.assembles hfinish hroutine hframe hi

open Forwarding in
/-- A `char` is widened in a register and passed on, in a frame of sixteen bytes. -/
theorem assembles_of_finish_forward :
    let r := read .char ⟨2⟩
    let forward : Routine := ⟨"forward",
      [.instr .saveFrame, .instr .enterFrame, .instr (.reserve 16),
      .instr (.mov 1 (.reg .rdi 1) (.mem (.frame (-1)))),
      .instr (.mov 1 (.mem (.frame (-1))) (.reg .rax 1)), .instr (.movs 1 4 .rax),
      .instr (.mov 4 (.reg .rax 4) (.mem (.frame (-8)))),
      .instr (.mov 4 (.mem (.frame (-8))) (.reg .rdi 4)), .instr (.mov 4 (.imm 0) (.reg .rax 4)),
      .instr (.call "apply"), .label ⟨0⟩, .instr .leaveFrame, .instr .restoreFrame, .instr .ret]⟩
    Reached options r ∧ r.unit.finish = .ok (r.assembly.text .elf) ∧
      r.assembly.routines = [forward] ∧ forward.FrameBelow 0x80000000 ∧
      ∀ i, .instr i ∈ forward.code → i.Assembles .elf := by
  intro r forward
  have hreached : Reached options r := reached_read "a" rfl
  have htarget : Target.ofTriple? options.triple = some .elf := by decide
  have hfinish : r.unit.finish = .ok (r.assembly.text .elf) :=
    hreached.finish_of_quiet rfl (List.forall_mem_singleton.mpr rfl) htarget
  have hroutines : r.assembly.routines = [forward] := by
    rw [routines_read]
    decide
  have hframe : forward.FrameBelow 0x80000000 := by
    have hdepths : ∀ front ∈ forward.code.inits, -rise front < 0x80000000 := by decide
    intro front hfront
    exact hdepths front ((List.mem_inits _ _).mpr hfront)
  obtain ⟨target, htarget', -, hall⟩ := assembles_of_finish hreached hfinish
  cases htarget.symm.trans htarget'
  exact ⟨hreached, hfinish, hroutines, hframe, hall forward (hroutines ▸ List.mem_cons_self) hframe⟩

end Reading

end LittleC
