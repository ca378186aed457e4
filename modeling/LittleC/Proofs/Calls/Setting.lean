import LittleC.Proofs.Lowering.Condition
import LittleC.Proofs.Semantics.Run

/-! # Code that calls

A called function may write what the program owns, but neither the temporaries of its caller nor the
variables that are spared. So values in registers, in temporaries and in spared variables last
across a call. -/

namespace LittleC

open Lowering (State Before)

/-- The setting of a function that calls others: what they do, and the bytes of its frame. Below the
frame, down to the floor, arguments are pushed. -/
structure Setting extends Scene where
  callees : Callees
  frame : Int

namespace Setting

variable (S : Setting)

/-- Called functions leave what is at the location: it is a constant, in a register, a spared
variable, or in the frame and not the program's. -/
def Firm (n : Nat) : Location → Prop
  | .mem p => ∀ a, S.world.fixed? S.base p = some a →
      ((a, n) ∈ S.callees.spared ∧ S.env.owns a n = true) ∨
        ∀ b, Covers a n b → S.env.owned b = false ∧ Zone S.base (-S.frame) 0 b
  | _ => True

/-- The machine holds `x` as the value `v` of `n` bytes, and calls leave it. -/
structure Lasts (s : State) (m : Machine) (v : ValueId) (n : Nat) (x : Int) : Prop where
  holds : S.Holds s m v n x
  firm : S.Firm n (s.values v).location

/-- The machine agrees with the state, and nothing is pushed. -/
structure Stands (M : Memory) (s : State) (m : Machine) : Prop extends S.Agrees M s m where
  stack : m.stack = S.base + .ofInt 64 (-S.frame)
  below : s.lowest ≤ 0

/-- The frame has room for all temporaries. -/
structure Contains (s : State) : Prop extends S.Fits s where
  frame : -S.frame ≤ s.lowest

/-- Between two machines the values in `K` last. -/
structure Survives (K : ValueId → Prop) (s : State) (m : Machine) (s' : State) (m' : Machine) :
    Prop where
  base : m'.base = m.base
  stack : m'.stack = m.stack
  lasts : ∀ v n x, K v → n ≤ 8 → S.Lasts s m v n x → S.Lasts s' m' v n x

section
variable {S} {s s' s'' : State} {m m' m'' : Machine} {v : ValueId} {n : Nat} {x : Int}
  {K L : ValueId → Prop} {M : Memory}

theorem Contains.before (h : S.Contains s') (hs : State.Evolves K s s') : S.Contains s :=
  ⟨h.toFits.before hs, Int.le_trans h.frame hs.lowest⟩

theorem Survives.trans (h : S.Survives K s m s' m') (h' : S.Survives K s' m' s'' m'') :
    S.Survives K s m s'' m'' :=
  ⟨h'.base.trans h.base, h'.stack.trans h.stack,
    fun v n x hv hn hx => h'.lasts v n x hv hn (h.lasts v n x hv hn hx)⟩

theorem Survives.mono (h : S.Survives K s m s' m') (hL : ∀ v, L v → K v) :
    S.Survives L s m s' m' :=
  { h with lasts := fun v n x hv => h.lasts v n x (hL v hv) }

/-- A temporary of the frame is firm. -/
theorem Stands.firm_frame (h : S.Stands M s m) (hc : S.Contains s') {o : Int}
    (hlo : s'.lowest ≤ o) (hhi : o + n ≤ s.lowest) : S.Firm n (.mem (.frame o)) := by
  rintro a ha
  obtain rfl : S.base + .ofInt 64 o = a := Option.some.inj ha
  refine Or.inr fun b hb => ?_
  have hzone := zone_of_covers hb
  have hfloor := hc.lowest
  have hframe := hc.frame
  have hbelow := h.below
  refine ⟨?_, hzone.mono (by omega) (by omega)⟩
  cases howned : S.env.owned b with
  | false => rfl
  | true => exact absurd (hzone.mono (by omega) hhi) (h.apart b howned)

/-- Values that are moved stay firm, as they are moved into temporaries only. -/
theorem Lasts.firm_of_evolves (h : S.Lasts s m v n x) (hm : S.Stands M s m)
    (hs : State.Evolves K s s') (hv : K v) (hc : S.Contains s') :
    S.Firm n (s'.values v).location := by
  rcases hs.kept v hv with hkept | ⟨_, o, -, hvalue, -, hlo, hhi⟩
  · rw [hkept.1]
    exact h.firm
  · rw [h.holds.1] at hhi
    rw [hvalue]
    exact hm.firm_frame hc hlo hhi

theorem survives_of_stays (h : S.Stays K s m s' m') (hm : S.Stands M s m)
    (hs : State.Evolves K s s') (hc : S.Contains s') : S.Survives K s m s' m' :=
  ⟨h.base, h.stack, fun v n x hv hn hx =>
    ⟨h.holds v n x hv hn hx.holds, hx.firm_of_evolves hm hs hv hc⟩⟩

theorem Stands.after (h : S.Stands M s m) (hs : State.Evolves L s s') (hm : S.Stays K s m s' m')
    (hc : S.Contains s') : S.Stands M s' m' :=
  ⟨h.toAgrees.after hs hm hc.lowest, hm.stack.trans h.stack, Int.le_trans hs.lowest h.below⟩

end

end Setting

namespace Lowering

open State

/-! ## What an action does among calls -/

/-- In state `s` the action keeps the values before `b` and gives what `T` says. Its code takes a
memory and a machine of `P` through to those of `R`, and the values before `b` that are firm
last. -/
structure Drives (S : Setting) {α : Type} (b : Nat) (a : Lowering α) (s : State)
    (T : α → State → Prop) (P : Memory → Machine → Prop)
    (R : α → State → Memory → Machine → Prop) : Prop where
  evolves : Evolves (Before b) s (a s).state
  labels : LabelsIn s.nextLabel (a s).state.nextLabel (a s).code
  gives : T (a s).result (a s).state
  runs : ∀ M m, S.Stands M s m → S.Contains (a s).state → P M m →
    ∃ M' m', S.world.Reaches s.nextLabel (a s).code m .next m' ∧ S.Stands M' (a s).state m' ∧
      S.Survives (Before b) s m (a s).state m' ∧ R (a s).result (a s).state M' m'

section
variable {S : Setting} {α β : Type} {b k : Nat} {s : State} {a : Lowering α}
  {T : α → State → Prop} {U : β → State → Prop} {P P' : Memory → Machine → Prop}
  {Q : α → State → Memory → Machine → Prop} {R : β → State → Memory → Machine → Prop}

/-- What calls nothing leaves the memory of the program. -/
theorem Does.drives (h : ∀ M, Does S.toScene M b a s T (P M) (fun v s' m => Q v s' M m)) :
    Drives S b a s T P Q := by
  have hany := h fun _ => 0
  refine ⟨hany.evolves, hany.labels, hany.gives, fun M m hm hc hP => ?_⟩
  obtain ⟨m', hrun, hstays, hQ⟩ := (h M).runs m hm.toAgrees hc.toFits hP
  exact ⟨M, m', hrun, hm.after hany.evolves hstays hc,
    Setting.survives_of_stays hstays hm hany.evolves hc, hQ⟩

namespace Drives

theorem bind {f : α → Lowering β} (ha : Drives S b a s T P Q)
    (hf : ∀ v s', T v s' → Drives S b (f v) s' U (Q v s') R) :
    Drives S b (a >>= f) s U P R := by
  have hthen := hf _ _ ha.gives
  refine ⟨ha.evolves.trans hthen.evolves,
    ha.labels.append hthen.labels ha.evolves.label hthen.evolves.label, hthen.gives, ?_⟩
  intro M m hm hc hP
  obtain ⟨M₁, m₁, hrun, hm₁, hlasts, hQ⟩ := ha.runs M m hm (hc.before hthen.evolves) hP
  obtain ⟨M₂, m₂, hrun', hm₂, hlasts', hR⟩ := hthen.runs M₁ m₁ hm₁ hc hQ
  exact ⟨M₂, m₂, hrun.append ha.labels ha.evolves.label hrun', hm₂, hlasts.trans hlasts', hR⟩

theorem weaken {T' : α → State → Prop} {Q' : α → State → Memory → Machine → Prop}
    (h : Drives S k a s T P Q) (hb : b ≤ k) (hT : ∀ v s', T v s' → T' v s')
    (hP : ∀ M m, P' M m → P M m) (hQ : ∀ v s' M m, T v s' → Q v s' M m → Q' v s' M m) :
    Drives S b a s T' P' Q' := by
  have hmono : ∀ v : ValueId, Before b v → Before k v := fun _ hv => Nat.lt_of_lt_of_le hv hb
  refine ⟨h.evolves.mono hmono, h.labels, hT _ _ h.gives, fun M m hm hc hP' => ?_⟩
  obtain ⟨M', m', hrun, hm', hlasts, hQm⟩ := h.runs M m hm hc (hP M m hP')
  exact ⟨M', m', hrun, hm', hlasts.mono hmono, hQ _ _ _ _ h.gives hQm⟩

/-- Behind an action it is still known what it started from, and that all values before `k` last. -/
theorem keeping (h : Drives S k a s T P Q) (hb : b ≤ k) :
    Drives S b a s T P fun v s' M m => Q v s' M m ∧
      ∃ M₀ m₀, P M₀ m₀ ∧ S.Survives (Before k) s m₀ s' m := by
  have hmono : ∀ v : ValueId, Before b v → Before k v := fun _ hv => Nat.lt_of_lt_of_le hv hb
  refine ⟨h.evolves.mono hmono, h.labels, h.gives, fun M m hm hc hP => ?_⟩
  obtain ⟨M', m', hrun, hm', hlasts, hQ⟩ := h.runs M m hm hc hP
  exact ⟨M', m', hrun, hm', hlasts.mono hmono, hQ, M, m, hP, hlasts⟩

theorem exists_pre {ι : Type} [Nonempty ι] {P : ι → Memory → Machine → Prop}
    (h : ∀ i, Drives S b a s T (P i) Q) : Drives S b a s T (fun M m => ∃ i, P i M m) Q := by
  obtain ⟨i⟩ := ‹Nonempty ι›
  refine ⟨(h i).evolves, (h i).labels, (h i).gives, ?_⟩
  rintro M m hm hc ⟨j, hP⟩
  exact (h j).runs M m hm hc hP

theorem note_bind {f : Unit → Lowering β} (text : String) (h : Drives S b (f ()) s U P R) :
    Drives S b (note text >>= f) s U P R := by
  have hnote := note_bind_apply text f s
  refine ⟨?_, ?_, ?_, ?_⟩
  all_goals rw [hnote]
  · exact h.evolves
  · exact (s.labelsIn_noted text _ _).append h.labels (Nat.le_refl _) h.evolves.label
  · exact h.gives
  · intro M m hm hc hP
    obtain ⟨M', m', hrun, hrest⟩ := h.runs M m hm hc hP
    exact ⟨M', m', (s.reaches_noted text _ _ m).append (s.labelsIn_noted text 0 _) (Nat.le_refl _)
      hrun, hrest⟩

theorem pure {v : α} (hs : s.Sound) (hT : T v s) (hQ : ∀ M m, P M m → Q v s M m) :
    Drives S b (pure v) s T P Q := Does.drives fun M => Does.pure hs hT (hQ M)

theorem given {φ : Prop} (h : Drives S b a s T P Q) :
    Drives S b a s T (fun M m => φ ∧ P M m) fun v s' M m => φ ∧ Q v s' M m := by
  refine ⟨h.evolves, h.labels, h.gives, ?_⟩
  rintro M m hm hc ⟨hφ, hP⟩
  obtain ⟨M', m', hrun, hm', hlasts, hQ⟩ := h.runs M m hm hc hP
  exact ⟨M', m', hrun, hm', hlasts, hφ, hQ⟩

/-- What else an action gives. -/
theorem also {T' : α → State → Prop} (h : Drives S b a s T P Q) (hT : T' (a s).result (a s).state) :
    Drives S b a s (fun v s' => T v s' ∧ T' v s') P Q :=
  ⟨h.evolves, h.labels, ⟨h.gives, hT⟩, h.runs⟩

end Drives

end

end Lowering

end LittleC
