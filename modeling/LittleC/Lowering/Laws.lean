import LittleC.Lowering.State

/-! # Laws of lowering actions

Actions form a lawful monad, so code may be regrouped freely. Each elementary action is an equation
on what it leaves, and each change of the state an equation on the values and the pool. -/

namespace LittleC.Lowering

instance : LawfulMonad Lowering :=
  LawfulMonad.mk' _
    (fun m => by
      funext s
      show Lowered.mk (m s).result ((m s).code ++ []) (m s).state = m s
      rw [List.append_nil])
    (fun a f => rfl)
    (fun m f g => by
      funext s
      simp only [bind_apply, List.append_assoc])

/-! ## Elementary actions -/

theorem emit_apply (i : Instr) (s : State) : emit i s = ⟨(), [.instr i], s⟩ := rfl

theorem mark_apply (l : Label) (s : State) : mark l s = ⟨(), [.label l], s⟩ := rfl

theorem inspect_apply {α : Type} (f : State → α) (s : State) : inspect f s = ⟨f s, [], s⟩ := rfl

theorem update_apply (f : State → State) (s : State) : update f s = ⟨(), [], f s⟩ := rfl

/-- What stands in the code for a note: the note, or nothing where notes are not wanted. -/
def State.noted (s : State) (text : String) : List Line := if s.notes then [.note text] else []

theorem note_apply (text : String) (s : State) : note text s = ⟨(), s.noted text, s⟩ := by
  obtain ⟨_, _, _, _, _, _, _ | _⟩ := s <;> rfl

theorem note_bind_apply {α : Type} (text : String) (f : Unit → Lowering α) (s : State) :
    (note text >>= f) s =
      ⟨(f () s).result, s.noted text ++ (f () s).code, (f () s).state⟩ := by
  rw [bind_apply, note_apply]

theorem newLabel_apply (s : State) :
    newLabel s = ⟨⟨s.nextLabel⟩, [], { s with nextLabel := s.nextLabel + 1 }⟩ := rfl

theorem newValue_apply (location : Location) (size : Nat) (s : State) :
    newValue location size s = ⟨⟨s.nextValue⟩, [], s.addValue ⟨location, size⟩⟩ := rfl

/-! ## Registers -/

namespace State

theorem pool_hold (s : State) (r q : Reg) (v : Option ValueId) :
    (s.hold r v).pool q = if q = r then v else s.pool q := rfl

theorem values_hold (s : State) (r : Reg) (v : Option ValueId) : (s.hold r v).values = s.values :=
  rfl

theorem values_setLocation_self (s : State) (v : ValueId) (l : Location) :
    (s.setLocation v l).values v = ⟨l, (s.values v).size⟩ := if_pos rfl

theorem values_setLocation_of_ne (s : State) {v w : ValueId} (h : w ≠ v) (l : Location) :
    (s.setLocation v l).values w = s.values w := if_neg h

/-- A free register holds nothing and is not excluded. -/
theorem pool_of_freeReg? {s : State} {exclude : List Reg} {r : Reg}
    (h : s.freeReg? exclude = some r) : s.pool r = none ∧ r ∉ exclude := by
  have found := List.find?_some h
  simpa using found

/-- Without a free register every register holds a value or is excluded. -/
theorem freeReg?_eq_none_iff {s : State} {exclude : List Reg} :
    s.freeReg? exclude = none ↔ ∀ r, s.pool r = none → r ∈ exclude := by
  simp [freeReg?, List.find?_eq_none, Reg.mem_all]

/-! ## New values -/

section
variable (s : State) (value : Value)

theorem values_addValue_apply (u : ValueId) :
    (s.addValue value).values u = if u = ⟨s.nextValue⟩ then value else s.values u := by
  unfold addValue
  dsimp only
  split <;> rfl

theorem values_addValue : (s.addValue value).values ⟨s.nextValue⟩ = value := by
  rw [values_addValue_apply, if_pos rfl]

theorem values_addValue_of_lt {u : ValueId} (hu : u.index < s.nextValue) :
    (s.addValue value).values u = s.values u := by
  have hne : u ≠ ⟨s.nextValue⟩ := by
    rintro rfl
    exact Nat.lt_irrefl _ hu
  rw [values_addValue_apply, if_neg hne]

theorem nextValue_addValue : (s.addValue value).nextValue = s.nextValue + 1 := by
  unfold addValue
  dsimp only
  split <;> rfl

/-- A new value leaves the labels, the frame, the texts and the switch for notes alone. -/
theorem rest_addValue : (s.addValue value).nextLabel = s.nextLabel ∧
    (s.addValue value).lowest = s.lowest ∧ (s.addValue value).texts = s.texts ∧
    (s.addValue value).notes = s.notes := by
  unfold addValue
  dsimp only
  split <;> exact ⟨rfl, rfl, rfl, rfl⟩

end

end State

end LittleC.Lowering
