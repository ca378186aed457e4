import LittleC.Proofs.Lowering.Simulation

/-! # What an action does

One statement for an action in a state: how the state evolves, which labels the code has, and what
the code does to every machine that agrees with the state. Actions in sequence compose by
`Does.bind`. -/

namespace LittleC.Lowering

open State

/-- The values handed out before number `b`. -/
abbrev Before (b : Nat) (v : ValueId) : Prop := v.index < b

theorem ne_of_fresh {b : Nat} {v : ValueId} (hv : b ≤ v.index) : ∀ u, Before b u → u ≠ v := by
  rintro u hu rfl
  exact Nat.not_lt_of_le hv hu

/-- In state `s` the action keeps the values before `b` and gives what `T` says. Its code takes a
machine of `P` through to one of `R`, and keeps what the machine holds of those values. -/
structure Does (S : Scene) (M : Memory) {α : Type} (b : Nat) (a : Lowering α) (s : State)
    (T : α → State → Prop) (P : Machine → Prop) (R : α → State → Machine → Prop) : Prop where
  evolves : Evolves (Before b) s (a s).state
  labels : LabelsIn s.nextLabel (a s).state.nextLabel (a s).code
  gives : T (a s).result (a s).state
  runs : ∀ m, S.Agrees M s m → S.Fits (a s).state → P m →
    ∃ m', S.world.Reaches s.nextLabel (a s).code m .next m' ∧
      S.Stays (Before b) s m (a s).state m' ∧ R (a s).result (a s).state m'

namespace Does

variable {S : Scene} {M : Memory} {α β : Type} {b : Nat} {s : State}
  {T : α → State → Prop} {U : β → State → Prop} {P P' : Machine → Prop}
  {Q : α → State → Machine → Prop} {R : β → State → Machine → Prop}

theorem bind {a : Lowering α} {f : α → Lowering β} (ha : Does S M b a s T P Q)
    (hf : ∀ v s', T v s' → Does S M b (f v) s' U (Q v s') R) : Does S M b (a >>= f) s U P R := by
  have hthen := hf _ _ ha.gives
  refine ⟨ha.evolves.trans hthen.evolves,
    ha.labels.append hthen.labels ha.evolves.label hthen.evolves.label, hthen.gives, ?_⟩
  intro m hm hfits hP
  have hmid := hfits.before hthen.evolves
  obtain ⟨m', hrun, hstays, hQ⟩ := ha.runs m hm hmid hP
  obtain ⟨m'', hrun', hstays', hR⟩ :=
    hthen.runs m' (hm.after ha.evolves hstays hmid.lowest) hfits hQ
  exact ⟨m'', hrun.append ha.labels ha.evolves.label hrun',
    hstays.trans hstays' ha.evolves.lowest hthen.evolves.lowest, hR⟩

/-- What follows from what an action does. -/
theorem weaken {a : Lowering α} {k : Nat} {T' : α → State → Prop}
    {Q' : α → State → Machine → Prop} (h : Does S M k a s T P Q) (hb : b ≤ k)
    (hT : ∀ v s', T v s' → T' v s') (hP : ∀ m, P' m → P m)
    (hQ : ∀ v s' m, T v s' → Q v s' m → Q' v s' m) : Does S M b a s T' P' Q' := by
  have hmono : ∀ v : ValueId, Before b v → Before k v := fun _ hv => Nat.lt_of_lt_of_le hv hb
  refine ⟨h.evolves.mono hmono, h.labels, hT _ _ h.gives, ?_⟩
  intro m hm hfits hm'
  obtain ⟨m', hrun, hstays, hQm⟩ := h.runs m hm hfits (hP m hm')
  exact ⟨m', hrun, hstays.mono hmono, hQ _ _ _ h.gives hQm⟩

/-- What holds of every choice holds of the one that the machine makes. -/
theorem exists_pre {ι : Type} [Nonempty ι] {a : Lowering α} {P : ι → Machine → Prop}
    {Q : ι → α → State → Machine → Prop} (h : ∀ i, Does S M b a s T (P i) (Q i)) :
    Does S M b a s T (fun m => ∃ i, P i m) (fun v s' m => ∃ i, Q i v s' m) := by
  obtain ⟨i⟩ := ‹Nonempty ι›
  refine ⟨(h i).evolves, (h i).labels, (h i).gives, ?_⟩
  rintro m hm hfits ⟨j, hP⟩
  obtain ⟨m', hrun, hstays, hQ⟩ := (h j).runs m hm hfits hP
  exact ⟨m', hrun, hstays, j, hQ⟩

/-- A fact that is not about machines stays. -/
theorem given {a : Lowering α} {φ : Prop} (h : Does S M b a s T P Q) :
    Does S M b a s T (fun m => φ ∧ P m) (fun v s' m => φ ∧ Q v s' m) := by
  refine ⟨h.evolves, h.labels, h.gives, ?_⟩
  rintro m hm hfits ⟨hφ, hP⟩
  obtain ⟨m', hrun, hstays, hQ⟩ := h.runs m hm hfits hP
  exact ⟨m', hrun, hstays, hφ, hQ⟩

/-! ## Actions that write or read -/

theorem pure {v : α} (hs : s.Sound) (hT : T v s) (hQ : ∀ m, P m → Q v s m) :
    Does S M b (pure v) s T P Q :=
  ⟨.refl hs _, labelsIn_nil _ _, hT,
    fun m _ _ hP => ⟨m, World.reaches_nil _ _ m, .refl s m _, hQ m hP⟩⟩

theorem note_bind {f : Unit → Lowering β} (text : String) (h : Does S M b (f ()) s U P R) :
    Does S M b (note text >>= f) s U P R := by
  have hnote := note_bind_apply text f s
  refine ⟨?_, ?_, ?_, ?_⟩
  all_goals rw [hnote]
  · exact h.evolves
  · exact (s.labelsIn_noted text _ _).append h.labels (Nat.le_refl _) h.evolves.label
  · exact h.gives
  · intro m hm hfits hP
    obtain ⟨m', hrun, hrest⟩ := h.runs m hm hfits hP
    exact ⟨m', (s.reaches_noted text _ _ m).append (s.labelsIn_noted text 0 _) (Nat.le_refl _) hrun,
      hrest⟩

theorem inspect_bind {f : α → Lowering β} {g : State → α} (h : Does S M b (f (g s)) s U P R) :
    Does S M b (inspect g >>= f) s U P R :=
  ⟨h.evolves, h.labels, h.gives, h.runs⟩

theorem update {g : State → State} {T : Unit → State → Prop} {Q : Unit → State → Machine → Prop}
    (hevolves : Evolves (Before b) s (g s)) (hstays : ∀ m, S.Stays (Before b) s m (g s) m)
    (hT : T () (g s)) (hQ : ∀ m, P m → Q () (g s) m) : Does S M b (update g) s T P Q :=
  ⟨hevolves, labelsIn_nil _ _, hT, fun m _ _ hP => ⟨m, fun _ _ _ => .refl, hstays m, hQ m hP⟩⟩

theorem update_bind {f : Unit → Lowering β} {g : State → State}
    (hevolves : Evolves (Before b) s (g s)) (hstays : ∀ m, S.Stays (Before b) s m (g s) m)
    (h : Does S M b (f ()) (g s) U P R) : Does S M b (Lowering.update g >>= f) s U P R := by
  have hfirst : Does S M b (Lowering.update g) s (fun _ s' => s' = g s) P (fun _ _ => P) :=
    update hevolves hstays rfl fun _ hP => hP
  refine hfirst.bind fun _ s' hs' => ?_
  rw [hs']
  exact h

/-- An instruction runs on every machine that may come to it. -/
theorem emit {i : Instr} {Q : Machine → Prop} (hs : s.Sound)
    (hi : ∀ m, S.Agrees M s m → P m → i.encodable = true ∧
      ∃ m', m.exec S.world i = some m' ∧ S.Stays (Before b) s m s m' ∧ Q m') :
    Does S M b (emit i) s (fun _ s' => s' = s) P (fun _ _ => Q) := by
  refine ⟨.refl hs _, labelsIn_instr _ _ i, rfl, ?_⟩
  intro m hm _ hP
  obtain ⟨hencodable, m', hexec, hrest⟩ := hi m hm hP
  exact ⟨m', World.reaches_instr hencodable hexec _, hrest⟩

theorem emit_bind {f : Unit → Lowering β} {i : Instr} {Q : Machine → Prop} (hs : s.Sound)
    (hi : ∀ m, S.Agrees M s m → P m → i.encodable = true ∧
      ∃ m', m.exec S.world i = some m' ∧ S.Stays (Before b) s m s m' ∧ Q m')
    (h : Does S M b (f ()) s U Q R) : Does S M b (Lowering.emit i >>= f) s U P R := by
  refine (emit hs hi).bind fun _ s' hs' => ?_
  rw [hs']
  exact h

/-! ## Values -/

theorem unbind_bind {f : Unit → Lowering β} {v : ValueId} (hs : s.Sound) (hv : b ≤ v.index)
    (h : Does S M b (f ()) (s.unbind v) U P R) : Does S M b (unbind v >>= f) s U P R := by
  have hne := ne_of_fresh hv
  have hlow : (s.unbind v).lowest = s.lowest := by rw [unbind_eq]
  exact update_bind ((evolves_unbind hs v).mono hne)
    (Scene.stays_of_state hlow fun u hu => unmoved_unbind hs (hne u hu)) h

theorem newValue {l : Location} {n : Nat} {T : ValueId → State → Prop}
    {Q : ValueId → State → Machine → Prop} (hs : s.Sound) (hb : b ≤ s.nextValue)
    (hfree : ∀ r, l = .reg r → s.pool r = none ∧ Width n)
    (hT : T ⟨s.nextValue⟩ (s.addValue ⟨l, n⟩))
    (hQ : ∀ m, S.Agrees M s m → P m → Q ⟨s.nextValue⟩ (s.addValue ⟨l, n⟩) m) :
    Does S M b (newValue l n) s T P Q := by
  have hevolves := evolves_addValue hs hfree
  have hlow := (State.rest_addValue s ⟨l, n⟩).2.1
  have hmono : ∀ v : ValueId, Before b v → v.index < s.nextValue :=
    fun _ hv => Nat.lt_of_lt_of_le hv hb
  refine ⟨hevolves.mono hmono, labelsIn_nil _ _, hT, ?_⟩
  intro m hm _ hP
  exact ⟨m, fun _ _ _ => .refl, Scene.stays_of_state hlow
    (fun v hv => unmoved_addValue (fun r hr => (hfree r hr).1) (hmono v hv)) m, hQ m hm hP⟩

end Does

end LittleC.Lowering
