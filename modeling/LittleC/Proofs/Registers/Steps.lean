import LittleC.Proofs.Frame.Areas
import LittleC.Proofs.Lowering.Effect

/-! # Lowering step by step

All lowering is made of a few elementary actions. If each of them takes care of the state it is run
in, what the registers are said to hold is there after every one of them, older values stay or are
saved, and every temporary lies below all before it. -/

namespace LittleC.Lowering

open State

/-! ## Elementary actions -/

/-- The actions that all lowering is made of. -/
inductive Primitive : {α : Type} → Lowering α → Prop where
  | write (l : Line) : Primitive (write l)
  | inspect {α : Type} (f : State → α) : Primitive (inspect f)
  | newLabel : Primitive newLabel
  | internText (text : String) : Primitive (internText text)
  | newValue (l : Location) (size : Nat) : Primitive (newValue l size)
  | unbind (v : ValueId) : Primitive (unbind v)
  | assign (v : ValueId) (r : Reg) : Primitive (update (·.assign v r))
  | evict (r : Reg) : Primitive (evict r)
  | release : Primitive release

/-- Run from `s`, the action is made of actions that are in `G` with the states they are run
from. -/
inductive Through (G : State → {α : Type} → Lowering α → Prop) :
    {α : Type} → Lowering α → State → Prop where
  | pure {α : Type} (x : α) (s : State) : Through G (pure x) s
  | act {α : Type} {a : Lowering α} {s : State} (ha : G s a) : Through G a s
  | bind {α β : Type} {a : Lowering α} {f : α → Lowering β} {s : State} (ha : Through G a s)
      (hf : Through G (f (a s).result) (a s).state) : Through G (a >>= f) s

/-- An elementary action that leaves the values before number `b` where they are or saves them: only
a free register is given to a value, and only younger values are moved or given up. -/
inductive Careful (b : Nat) (s : State) : {α : Type} → Lowering α → Prop where
  | write {l : Line} (hl : l ≠ .note "spill") : Careful b s (write l)
  | inspect {α : Type} (f : State → α) : Careful b s (inspect f)
  | newLabel : Careful b s newLabel
  | internText (text : String) : Careful b s (internText text)
  | newValue {l : Location} {n : Nat} (hb : b ≤ s.nextValue)
      (hfree : ∀ r, l = .reg r → s.pool r = none ∧ Width n) : Careful b s (newValue l n)
  | unbind {v : ValueId} (hv : b ≤ v.index) : Careful b s (unbind v)
  | assign {v : ValueId} {r : Reg} (hv : b ≤ v.index) (hknown : v.index < s.nextValue)
      (hn : Width (s.values v).size) (hr : s.pool r = none) :
      Careful b s (update (·.assign v r))
  | evict (r : Reg) : Careful b s (evict r)
  | release (hb : b = 0) : Careful b s release

/-! ## Temporaries -/

/-- The temporaries that code saves registers into, with their sizes. -/
def spills : List Line → List Area
  | .instr (.mov n (.reg _ _) (.mem (.frame offset))) :: .note text :: rest =>
    if text = "spill" then ⟨offset, n⟩ :: spills rest else spills rest
  | _ :: rest => spills rest
  | [] => []

/-- The line that saves a register into a temporary. -/
def saveLine (r : Reg) (n : Nat) (offset : Int) : Line :=
  .instr (.mov n (.reg r n) (.mem (.frame offset)))

/-- Only a note can make a save of the line before it. -/
theorem spills_cons (l : Line) {rest : List Line} (h : rest.head? ≠ some (.note "spill")) :
    spills (l :: rest) = spills rest := by
  cases rest with
  | nil => cases l <;> simp [spills]
  | cons l' rest =>
      by_cases hnote : ∃ text, l' = .note text
      · obtain ⟨text, rfl⟩ := hnote
        have htext : text ≠ "spill" := by
          rintro rfl
          exact h rfl
        rw [spills.eq_def]
        split
        case h_1 heq =>
            cases heq
            rw [if_neg htext]
            simp [spills]
        case h_2 heq => cases heq; rfl
        case h_3 heq => cases heq
      · rw [spills]
        exact fun _ _ _ _ text _ _ heq => hnote ⟨text, (List.cons.inj heq).1⟩

theorem spills_append {rest : List Line} (h : rest.head? ≠ some (.note "spill"))
    (code : List Line) : spills (code ++ rest) = spills code ++ spills rest := by
  fun_induction spills code with
  | case1 n r k offset code ih => simp [spills, ih]
  | case2 n r k offset text code hne ih => simp [spills, hne, ih]
  | case3 l code hl ih =>
      cases code with
      | nil => exact spills_cons l h
      | cons l' code =>
          rw [← ih, List.cons_append, List.cons_append, spills]
          exact fun n r k offset text _ hl' heq =>
            hl n r k offset text code hl' (by rw [(List.cons.inj heq).1])
  | case4 => rfl

/-! ## What careful actions leave -/

/-- Between the states the code leaves the values before `b` where they are or saves them, each by a
store of its register, and its temporaries lead from one lowest offset to the other. -/
structure Leaves (b : Nat) (s : State) (code : List Line) (s' : State) : Prop where
  evolves : Evolves (Before b) s s'
  stores : ∀ r u, Before b u → s.pool r = some u → s'.pool r = some u ∨ ∃ offset,
    s'.values u = ⟨.mem (.frame offset), (s.values u).size⟩ ∧
      saveLine r (s.values u).size offset ∈ code
  notes : s'.notes = s.notes
  /-- Temporaries are told from the notes at their stores. -/
  spills : s.notes = true → Descends s.lowest s'.lowest (spills code)
  head : code.head? ≠ some (.note "spill")

section
variable {s s₁ s' : State} {b k : Nat} {code rest : List Line} {r : Reg} {u v : ValueId}

/-- A value that a register holds behind is one that it held before. -/
theorem State.Evolves.pool_of {K : ValueId → Prop} (h : Evolves K s s') (hu : K u)
    (hr : s'.pool r = some u) : s.pool r = some u := by
  rcases h.kept u hu with hkept | ⟨_, _, _, _, hfree, _⟩
  · exact (hkept.2 r).mp hr
  · exact absurd hr (hfree r)

theorem Leaves.trans (h : Leaves b s code s₁) (h' : Leaves b s₁ rest s') :
    Leaves b s (code ++ rest) s' := by
  refine ⟨h.evolves.trans h'.evolves, ?_, h'.notes.trans h.notes, fun hnotes => ?_, ?_⟩
  · intro r u hu hr
    rcases h.stores r u hu hr with hr₁ | ⟨offset, hvalue, hline⟩
    · have hsame : s₁.values u = s.values u := by
        rcases h.evolves.kept u hu with hkept | ⟨_, _, _, _, hfree, _⟩
        · exact hkept.1
        · exact absurd hr₁ (hfree r)
      rcases h'.stores r u hu hr₁ with hr' | ⟨offset, hvalue, hline⟩
      · exact .inl hr'
      · rw [hsame] at hvalue hline
        exact .inr ⟨offset, hvalue, List.mem_append_right _ hline⟩
    · -- A saved value is in no register, so it stays where it is.
      have hunheld : s₁.Unheld u := by
        intro q hq
        have hlocation := h.evolves.sound.location hq
        rw [hvalue] at hlocation
        cases hlocation
      refine .inr ⟨offset, ?_, List.mem_append_left _ hline⟩
      rw [(h'.evolves.unmoved hu hunheld).1, hvalue]
  · rw [spills_append h'.head]
    exact (h.spills hnotes).append (h'.spills (h.notes.trans hnotes))
  · cases code with
    | nil => exact h'.head
    | cons l code => exact h.head

/-- What moves no value before `b` out of its register and writes nothing. -/
theorem leaves_nil (h : Evolves (Before b) s s') (hlow : s'.lowest = s.lowest)
    (hnotes : s'.notes = s.notes)
    (hpool : ∀ r u, Before b u → s.pool r = some u → s'.pool r = some u) : Leaves b s [] s' :=
  ⟨h, fun r u hu hr => .inl (hpool r u hu hr), hnotes, fun _ => hlow, by simp⟩

theorem leaves_line (hs : s.Sound) {l : Line} (hl : l ≠ .note "spill") (b : Nat) :
    Leaves b s [l] s := by
  refine ⟨.refl hs _, fun r u _ hr => .inl hr, rfl, fun _ => ?_, fun h => hl (Option.some.inj h)⟩
  rw [spills_cons l (by simp)]
  exact rfl

theorem leaves_evict (hs : s.Sound) (r : Reg) (b : Nat) :
    Leaves b s (evict r s).code (evict r s).state := by
  cases hr : s.pool r with
  | none =>
      rw [evict_of_none hr]
      exact leaves_nil (.refl hs _) rfl rfl fun _ _ _ h => h
  | some v =>
      have hwidth := hs.width hr
      rw [evict_of_some hr]
      refine ⟨(evolves_spill hs hr).mono fun _ _ => trivial, ?_, rfl, fun hnotes => ?_, nofun⟩
      · intro q u _ hq
        by_cases hu : u = v
        · subst hu
          cases hs.injective hr hq
          exact .inr ⟨_, if_pos rfl, List.mem_cons_self⟩
        · exact .inl (((unmoved_spill hs hr hu).2 q).mpr hq)
      · simp only [noted, if_pos hnotes, Lowering.spills, if_true]
        exact ⟨s.temporary_add_le hwidth, rfl⟩

theorem leaves_unbind (hs : s.Sound) (hv : b ≤ v.index) : Leaves b s [] (s.unbind v) := by
  refine leaves_nil ((evolves_unbind hs v).mono (ne_of_fresh hv)) (by rw [unbind_eq])
    (by rw [unbind_eq]) ?_
  exact fun r u hu hr => ((unmoved_unbind hs (ne_of_fresh hv u hu)).2 r).mpr hr

theorem leaves_newValue (hs : s.Sound) {l : Location} {n : Nat} (hb : b ≤ s.nextValue)
    (hfree : ∀ r, l = .reg r → s.pool r = none ∧ Width n) : Leaves b s [] (s.addValue ⟨l, n⟩) := by
  obtain ⟨-, hlow, -, hnotes⟩ := rest_addValue s ⟨l, n⟩
  refine leaves_nil ((evolves_addValue hs hfree).mono fun v hv => Nat.lt_of_lt_of_le hv hb) hlow
    hnotes ?_
  intro r u hu hr
  exact ((unmoved_addValue (fun q hq => (hfree q hq).1) (Nat.lt_of_lt_of_le hu hb)).2 r).mpr hr

theorem leaves_assign (hs : s.Sound) (hv : b ≤ v.index) (hknown : v.index < s.nextValue)
    (hn : Width (s.values v).size) (hr : s.pool r = none) : Leaves b s [] (s.assign v r) := by
  refine leaves_nil ((evolves_assign hs hr hknown hn).mono (ne_of_fresh hv)) (by rw [assign_eq])
    (by rw [assign_eq]) ?_
  exact fun q u hu hq => ((unmoved_assign hs hr (ne_of_fresh hv u hu)).2 q).mpr hq

theorem Careful.leaves {α : Type} {a : Lowering α} (h : Careful b s a) (hs : s.Sound) :
    Leaves b s (a s).code (a s).state := by
  cases h with
  | write hl => exact leaves_line hs hl b
  | inspect f => exact leaves_nil (.refl hs _) rfl rfl fun _ _ _ h => h
  | newLabel => exact leaves_nil (evolves_labelled hs _) rfl rfl fun _ _ _ h => h
  | internText text => exact leaves_nil (evolves_interned hs text _) rfl rfl fun _ _ _ h => h
  | newValue hb hfree => exact leaves_newValue hs hb hfree
  | unbind hv => exact leaves_unbind hs hv
  | assign hv hknown hn hr => exact leaves_assign hs hv hknown hn hr
  | evict r => exact leaves_evict hs r b
  | release hb =>
      subst hb
      exact leaves_nil (passes_released s).toEvolves rfl rfl
        fun _ _ hu => absurd hu (Nat.not_lt_zero _)

theorem Careful.primitive {α : Type} {a : Lowering α} (h : Careful b s a) : Primitive a := by
  cases h <;> constructor

theorem Careful.mono {α : Type} {a : Lowering α} (h : Careful b s a) (hk : k ≤ b) :
    Careful k s a := by
  cases h with
  | write hl => exact .write hl
  | inspect f => exact .inspect f
  | newLabel => exact .newLabel
  | internText text => exact .internText text
  | newValue hb hfree => exact .newValue (Nat.le_trans hk hb) hfree
  | unbind hv => exact .unbind (Nat.le_trans hk hv)
  | assign hv hknown hn hr => exact .assign (Nat.le_trans hk hv) hknown hn hr
  | evict r => exact .evict r
  | release hb => exact .release (by omega)

/-! ## Runs of careful actions -/

/-- What the registers are said to hold is there, in one register only. -/
structure State.Tracked (s : State) : Prop extends Sound s where
  injective : ∀ r q v, s.pool r = some v → s.pool q = some v → r = q

theorem State.Sound.tracked (h : s.Sound) : s.Tracked := ⟨h, fun _ _ _ => h.injective⟩

/-- The action is made of elementary actions that each leave a state whose registers are tracked. -/
abbrev Tracks {α : Type} (a : Lowering α) (s : State) : Prop :=
  Through (fun s _ a => Primitive a ∧ (a s).state.Tracked) a s

theorem Through.mono {G H : State → {α : Type} → Lowering α → Prop} {α : Type} {a : Lowering α}
    (h : Through G a s) (hG : ∀ {α : Type} (s : State) (a : Lowering α), G s a → H s a) :
    Through H a s := by
  induction h with
  | pure x s => exact .pure x s
  | act ha => exact .act (hG _ _ ha)
  | bind _ _ ih ih' => exact ih.bind ih'

/-- What one careful action leaves, a run of them leaves. -/
theorem Through.leaves {α : Type} {a : Lowering α} (h : Through (Careful b) a s) (hs : s.Sound) :
    Leaves b s (a s).code (a s).state := by
  induction h with
  | pure x s => exact leaves_nil (.refl hs _) rfl rfl fun _ _ _ h => h
  | act ha => exact ha.leaves hs
  | bind _ _ ih ih' =>
      have hfirst := ih hs
      exact hfirst.trans (ih' hfirst.evolves.sound)

theorem Through.tracks {α : Type} {a : Lowering α} (h : Through (Careful b) a s) (hs : s.Sound) :
    Tracks a s := by
  induction h with
  | pure x s => exact .pure x s
  | act ha => exact .act ⟨ha.primitive, (ha.leaves hs).evolves.sound.tracked⟩
  | bind h _ ih ih' => exact (ih hs).bind (ih' (h.leaves hs).evolves.sound)

end

end LittleC.Lowering
