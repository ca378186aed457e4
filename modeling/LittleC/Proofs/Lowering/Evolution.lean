import LittleC.Lowering.Laws
import LittleC.Proofs.Machine.Word

/-! # How the state of lowering evolves

What a register is said to hold is there, at a width of the machine. Counters only grow, the frame
only reaches further down, and a value that an action does not use stays where it is or is saved
into a new temporary. -/

namespace LittleC.Lowering.State

/-- The register that is said to hold a value is the location of that value. -/
structure Sound (s : State) : Prop where
  location : ∀ {r v}, s.pool r = some v → (s.values v).location = .reg r
  width : ∀ {r v}, s.pool r = some v → Width (s.values v).size
  known : ∀ {r v}, s.pool r = some v → v.index < s.nextValue

/-- The value is where it was. -/
def Unmoved (s s' : State) (v : ValueId) : Prop :=
  s'.values v = s.values v ∧ ∀ r, s'.pool r = some v ↔ s.pool r = some v

/-- The value was in a register and is now in a temporary below everything that was in use. -/
def Saved (s s' : State) (v : ValueId) : Prop :=
  ∃ r offset, s.pool r = some v ∧ s'.values v = ⟨.mem (.frame offset), (s.values v).size⟩ ∧
    (∀ q, s'.pool q ≠ some v) ∧ s'.lowest ≤ offset ∧ offset + (s.values v).size ≤ s.lowest

/-- From `s` to `s'` the values in `K` are kept. -/
structure Evolves (K : ValueId → Prop) (s s' : State) : Prop where
  sound : s'.Sound
  value : s.nextValue ≤ s'.nextValue
  label : s.nextLabel ≤ s'.nextLabel
  lowest : s'.lowest ≤ s.lowest
  texts : s.texts <+: s'.texts
  kept : ∀ v, K v → Unmoved s s' v ∨ Saved s s' v

/-- A value that was handed out, of `n` bytes; if it is in a register, the register holds it. -/
structure Ready (s : State) (v : ValueId) (n : Nat) : Prop where
  known : v.index < s.nextValue
  size : (s.values v).size = n
  held : ∀ r, (s.values v).location = .reg r → s.pool r = some v

/-- No register holds the value. -/
def Unheld (s : State) (v : ValueId) : Prop := ∀ r, s.pool r ≠ some v

section
variable {s s' s'' : State} {v : ValueId} {K L : ValueId → Prop}

/-- Two registers do not hold the same value. -/
theorem Sound.injective (h : s.Sound) {r q : Reg} (hr : s.pool r = some v)
    (hq : s.pool q = some v) : r = q := by
  have heq := (h.location hr).symm.trans (h.location hq)
  cases heq
  rfl

theorem sound_of_empty (h : ∀ r, s.pool r = none) : s.Sound := by
  refine ⟨?_, ?_, ?_⟩
  all_goals
    intro r v hr
    cases (h r).symm.trans hr

theorem Unmoved.refl (s : State) (v : ValueId) : Unmoved s s v := ⟨rfl, fun _ => Iff.rfl⟩

theorem Unmoved.trans (h : Unmoved s s' v) (h' : Unmoved s' s'' v) : Unmoved s s'' v :=
  ⟨h'.1.trans h.1, fun r => (h'.2 r).trans (h.2 r)⟩

theorem Unmoved.unheld (h : Unmoved s s' v) (hv : s.Unheld v) : s'.Unheld v :=
  fun r hr => hv r ((h.2 r).mp hr)

theorem Evolves.refl (hs : s.Sound) (K : ValueId → Prop) : Evolves K s s :=
  ⟨hs, Nat.le_refl _, Nat.le_refl _, Int.le_refl _, List.prefix_refl _,
    fun v _ => Or.inl (Unmoved.refl s v)⟩

/-- A value that no register holds is not moved. -/
theorem Evolves.unmoved (h : Evolves K s s') (hK : K v) (hv : s.Unheld v) : Unmoved s s' v := by
  rcases h.kept v hK with hkept | ⟨r, _, hr, _⟩
  · exact hkept
  · exact absurd hr (hv r)

theorem Evolves.mono (h : Evolves K s s') (hL : ∀ v, L v → K v) : Evolves L s s' :=
  { h with kept := fun v hv => h.kept v (hL v hv) }

theorem Evolves.trans (h : Evolves K s s') (h' : Evolves K s' s'') : Evolves K s s'' := by
  refine ⟨h'.sound, Nat.le_trans h.value h'.value, Nat.le_trans h.label h'.label,
    Int.le_trans h'.lowest h.lowest, h.texts.trans h'.texts, ?_⟩
  intro v hv
  rcases h.kept v hv with hfirst | ⟨r, offset, hr, hvalue, hfree, hlow, hhigh⟩
  · rcases h'.kept v hv with hthen | ⟨r, offset, hr, hvalue, hfree, hlow, hhigh⟩
    · exact Or.inl (hfirst.trans hthen)
    · rw [hfirst.1] at hvalue hhigh
      exact Or.inr ⟨r, offset, (hfirst.2 r).mp hr, hvalue, hfree, hlow,
        Int.le_trans hhigh h.lowest⟩
  -- A value that was saved on the first way is in no register, so the second leaves it there.
  · have hthen := h'.unmoved hv hfree
    exact Or.inr ⟨r, offset, hr, hthen.1.trans hvalue, hthen.unheld hfree,
      Int.le_trans h'.lowest hlow, hhigh⟩

theorem Evolves.ready {n : Nat} (h : Evolves K s s') (hK : K v) (hv : s.Ready v n) :
    s'.Ready v n := by
  have hknown := Nat.lt_of_lt_of_le hv.known h.value
  rcases h.kept v hK with hkept | ⟨_, _, _, hvalue, _, _, _⟩
  · refine ⟨hknown, by rw [hkept.1, hv.size], ?_⟩
    intro r hr
    rw [hkept.1] at hr
    exact (hkept.2 r).mpr (hv.held r hr)
  · refine ⟨hknown, by rw [hvalue, hv.size], ?_⟩
    intro r hr
    rw [hvalue] at hr
    cases hr

end

/-! ## Elementary changes -/

section
variable {s : State} {v : ValueId} {r : Reg}

theorem pool_unbind (s : State) (v : ValueId) (hs : s.Sound) (q : Reg) :
    (s.unbind v).pool q = if s.pool q = some v then none else s.pool q := by
  unfold unbind Value.reg?
  cases hloc : (s.values v).location with
  | reg r =>
      dsimp only
      by_cases hr : s.pool r = some v
      · rw [if_pos hr, pool_hold]
        by_cases hq : q = r
        · rw [if_pos hq, hq, if_pos hr]
        · rw [if_neg hq, if_neg fun h => hq (hs.injective h hr)]
      · rw [if_neg hr]
        split
        · next h =>
            have heq := (hs.location h).symm.trans hloc
            cases heq
            exact absurd h hr
        · rfl
  | _ =>
      dsimp only
      split
      · next h =>
          have heq := (hs.location h).symm.trans hloc
          cases heq
      · rfl

theorem unbind_eq (s : State) (v : ValueId) :
    s.unbind v = { s with pool := (s.unbind v).pool } := by
  unfold unbind
  split
  · split <;> rfl
  · rfl

theorem values_unbind (s : State) (v : ValueId) : (s.unbind v).values = s.values := by
  rw [unbind_eq]

theorem unheld_unbind (hs : s.Sound) (v : ValueId) : (s.unbind v).Unheld v := by
  intro r
  rw [pool_unbind s v hs]
  split
  · exact fun h => nomatch h
  · next h => exact h

theorem pool_of_unbind (hs : s.Sound) {u : ValueId} (h : (s.unbind v).pool r = some u) :
    s.pool r = some u := by
  rw [pool_unbind s v hs] at h
  split at h
  · cases h
  · exact h

theorem unmoved_unbind (hs : s.Sound) {u : ValueId} (hu : u ≠ v) : Unmoved s (s.unbind v) u := by
  refine ⟨by rw [values_unbind], fun q => ⟨pool_of_unbind hs, fun hq => ?_⟩⟩
  rw [pool_unbind s v hs, hq, if_neg fun h => hu (Option.some.inj h)]

theorem evolves_unbind (hs : s.Sound) (v : ValueId) : Evolves (· ≠ v) s (s.unbind v) := by
  have hkept := fun u (hu : u ≠ v) => Or.inl (b := Saved s (s.unbind v) u) (unmoved_unbind hs hu)
  have hpool := fun r u => pool_of_unbind (v := v) (r := r) (u := u) hs
  rw [unbind_eq] at hkept hpool ⊢
  exact ⟨⟨fun h => hs.location (hpool _ _ h), fun h => hs.width (hpool _ _ h),
    fun h => hs.known (hpool _ _ h)⟩, Nat.le_refl _, Nat.le_refl _, Int.le_refl _,
    List.prefix_refl _, hkept⟩

end

section
variable {s : State} {v : ValueId} {r : Reg} {n : Nat}

theorem pool_of_addValue {l : Location} {q : Reg} {u : ValueId}
    (hq : (s.addValue ⟨l, n⟩).pool q = some u) :
    (l = .reg q ∧ u = ⟨s.nextValue⟩) ∨ s.pool q = some u := by
  cases l with
  | reg r =>
      have hpool : (s.addValue ⟨.reg r, n⟩).pool q =
          if q = r then some ⟨s.nextValue⟩ else s.pool q := rfl
      rw [hpool] at hq
      split at hq
      · next h => exact Or.inl ⟨by rw [h], (Option.some.inj hq).symm⟩
      · exact Or.inr hq
  | _ => exact Or.inr hq

/-- A new value moves no other if its register was free. -/
theorem unmoved_addValue {l : Location} (hfree : ∀ r, l = .reg r → s.pool r = none) {u : ValueId}
    (hu : u.index < s.nextValue) : Unmoved s (s.addValue ⟨l, n⟩) u := by
  refine ⟨values_addValue_of_lt s _ hu, fun q => ⟨fun hq => ?_, fun hq => ?_⟩⟩
  · rcases pool_of_addValue hq with ⟨_, rfl⟩ | hq
    · exact absurd hu (Nat.lt_irrefl _)
    · exact hq
  · cases l with
    | reg r =>
        have hne : q ≠ r := by
          rintro rfl
          rw [hfree q rfl] at hq
          cases hq
        exact (if_neg hne).trans hq
    | _ => exact hq

theorem evolves_addValue (hs : s.Sound) {l : Location}
    (hfree : ∀ r, l = .reg r → s.pool r = none ∧ Width n) :
    Evolves (·.index < s.nextValue) s (s.addValue ⟨l, n⟩) := by
  have hnew := values_addValue s ⟨l, n⟩
  have hold : ∀ {q u}, s.pool q = some u → (s.addValue ⟨l, n⟩).values u = s.values u :=
    fun hq => values_addValue_of_lt s _ (hs.known hq)
  have hvalue := nextValue_addValue s ⟨l, n⟩
  obtain ⟨hlabel, hlowest, htexts, -⟩ := rest_addValue s ⟨l, n⟩
  refine ⟨⟨?_, ?_, ?_⟩, by omega, by omega, by omega, ?_,
    fun u hu => Or.inl (unmoved_addValue (fun r hr => (hfree r hr).1) hu)⟩
  · intro q u hq
    rcases pool_of_addValue hq with ⟨rfl, rfl⟩ | hq
    · rw [hnew]
    · rw [hold hq, hs.location hq]
  · intro q u hq
    rcases pool_of_addValue hq with ⟨rfl, rfl⟩ | hq
    · rw [hnew]
      exact (hfree q rfl).2
    · rw [hold hq]
      exact hs.width hq
  · intro q u hq
    rcases pool_of_addValue hq with ⟨_, rfl⟩ | hq
    · exact hvalue ▸ Nat.lt_succ_self _
    · exact hvalue ▸ Nat.lt_succ_of_lt (hs.known hq)
  · exact htexts ▸ List.prefix_refl _

theorem ready_addValue (s : State) (l : Location) (n : Nat) :
    (s.addValue ⟨l, n⟩).Ready ⟨s.nextValue⟩ n := by
  refine ⟨?_, by rw [values_addValue], ?_⟩
  · rw [nextValue_addValue]
    exact Nat.lt_succ_self _
  · intro r hr
    rw [values_addValue] at hr
    cases hr
    exact if_pos rfl

theorem temporary_add_le (s : State) (hn : Width n) : s.temporary n + n ≤ s.lowest := by
  have hbytes : Ty.signedBytes (max n 1) = n := by
    rcases hn with rfl | rfl | rfl <;> rfl
  have hpos := hn.pos
  -- Alignment moves the place further down, never up.
  have hrest := Int.emod_nonneg (s.lowest - (n : Int)) (b := (n : Int)) (by omega)
  simp only [temporary, hbytes]
  omega

/-- What is left when the value in a register has been saved into a new temporary. -/
def spill (s : State) (r : Reg) (v : ValueId) : State :=
  let offset := s.temporary (s.values v).size
  (({ s with lowest := offset }).setLocation v (.mem (.frame offset))).hold r none

theorem pool_of_spill (hs : s.Sound) (hr : s.pool r = some v) {q : Reg} {u : ValueId}
    (hq : (s.spill r v).pool q = some u) : u ≠ v ∧ s.pool q = some u := by
  have hpool : (s.spill r v).pool q = if q = r then none else s.pool q := rfl
  rw [hpool] at hq
  split at hq
  · cases hq
  · next h =>
      refine ⟨?_, hq⟩
      rintro rfl
      exact h (hs.injective hq hr)

theorem unmoved_spill (hs : s.Sound) (hr : s.pool r = some v) {u : ValueId} (hu : u ≠ v) :
    Unmoved s (s.spill r v) u := by
  refine ⟨if_neg hu, fun q => ⟨fun hq => (pool_of_spill hs hr hq).2, fun hq => ?_⟩⟩
  have hne : q ≠ r := by
    rintro rfl
    exact hu (Option.some.inj (hq.symm.trans hr))
  exact (if_neg hne).trans hq

theorem evolves_spill (hs : s.Sound) (hr : s.pool r = some v) :
    Evolves (fun _ => True) s (s.spill r v) := by
  have hold : ∀ {q u}, (s.spill r v).pool q = some u → (s.spill r v).values u = s.values u :=
    fun hq => (unmoved_spill hs hr (pool_of_spill hs hr hq).1).1
  have hlow := s.temporary_add_le (hs.width hr)
  have hlowest : (s.spill r v).lowest = s.temporary (s.values v).size := rfl
  refine ⟨⟨?_, ?_, fun h => hs.known (pool_of_spill hs hr h).2⟩, Nat.le_refl _, Nat.le_refl _,
    by omega, List.prefix_refl _, ?_⟩
  · intro q u hq
    rw [hold hq]
    exact hs.location (pool_of_spill hs hr hq).2
  · intro q u hq
    rw [hold hq]
    exact hs.width (pool_of_spill hs hr hq).2
  · intro u _
    by_cases hu : u = v
    · subst hu
      exact Or.inr ⟨r, _, hr, if_pos rfl, fun q hq => (pool_of_spill hs hr hq).1 rfl,
        Int.le_refl _, hlow⟩
    · exact Or.inl (unmoved_spill hs hr hu)

theorem pool_of_assign {q : Reg} {u : ValueId} (hq : (s.assign v r).pool q = some u) :
    (q = r ∧ u = v) ∨ (s.unbind v).pool q = some u := by
  have hpool : (s.assign v r).pool q = if q = r then some v else (s.unbind v).pool q := rfl
  rw [hpool] at hq
  split at hq
  · next h => exact Or.inl ⟨h, (Option.some.inj hq).symm⟩
  · exact Or.inr hq

theorem values_assign_self (s : State) (v : ValueId) (r : Reg) :
    (s.assign v r).values v = ⟨.reg r, (s.values v).size⟩ := by
  rw [← values_unbind s v]
  exact if_pos rfl

theorem values_assign_of_ne {u : ValueId} (hu : u ≠ v) :
    (s.assign v r).values u = s.values u := by
  rw [← values_unbind s v]
  exact if_neg hu

/-- A value moves into a free register. -/
theorem unmoved_assign (hs : s.Sound) (hr : s.pool r = none) {u : ValueId} (hu : u ≠ v) :
    Unmoved s (s.assign v r) u := by
  refine ⟨values_assign_of_ne hu, fun q => ⟨fun hq => ?_, fun hq => ?_⟩⟩
  · rcases pool_of_assign hq with ⟨_, rfl⟩ | hq
    · exact absurd rfl hu
    · exact pool_of_unbind hs hq
  · have hne : q ≠ r := by
      rintro rfl
      rw [hr] at hq
      cases hq
    exact (if_neg hne).trans (((unmoved_unbind hs hu).2 q).mpr hq)

theorem pool_assign_of_ne (hs : s.Sound) {q : Reg} (hq : q ≠ r) (hv : s.pool q ≠ some v) :
    (s.assign v r).pool q = s.pool q := by
  have hpool : (s.assign v r).pool q = (s.unbind v).pool q := if_neg hq
  rw [hpool, pool_unbind s v hs, if_neg hv]

theorem assign_eq (s : State) (v : ValueId) (r : Reg) :
    s.assign v r = { s with values := (s.assign v r).values, pool := (s.assign v r).pool } := by
  unfold assign setLocation hold
  rw [unbind_eq]

theorem evolves_assign (hs : s.Sound) (hr : s.pool r = none) (hv : v.index < s.nextValue)
    (hn : Width (s.values v).size) : Evolves (· ≠ v) s (s.assign v r) := by
  have hunbind := evolves_unbind hs v
  have hkept := fun u (hu : u ≠ v) =>
    Or.inl (b := Saved s (s.assign v r) u) (unmoved_assign hs hr hu)
  -- Behind the move `v` is in `r` only, and every other value is where it was.
  have hnew : ∀ {q u}, (s.assign v r).pool q = some u →
      (q = r ∧ u = v) ∨ (u ≠ v ∧ s.pool q = some u) := by
    intro q u hq
    rcases pool_of_assign hq with h | hq
    · exact Or.inl h
    · refine Or.inr ⟨?_, pool_of_unbind hs hq⟩
      rintro rfl
      exact unheld_unbind hs u q hq
  have hsound : ∀ {q u}, (s.assign v r).pool q = some u →
      ((s.assign v r).values u).location = .reg q ∧ Width ((s.assign v r).values u).size ∧
        u.index < s.nextValue := by
    intro q u hq
    rcases hnew hq with ⟨rfl, rfl⟩ | ⟨hu, hq⟩
    · rw [values_assign_self]
      exact ⟨rfl, hn, hv⟩
    · rw [values_assign_of_ne hu]
      exact ⟨hs.location hq, hs.width hq, hs.known hq⟩
  rw [assign_eq] at hkept ⊢
  exact ⟨⟨fun h => (hsound h).1, fun h => (hsound h).2.1, fun h => (hsound h).2.2⟩, Nat.le_refl _,
    Nat.le_refl _, Int.le_refl _, List.prefix_refl _, hkept⟩

theorem ready_assign (hv : s.Ready v n) (r : Reg) : (s.assign v r).Ready v n := by
  refine ⟨?_, by rw [values_assign_self, hv.size], ?_⟩
  · rw [assign_eq]
    exact hv.known
  · intro q hq
    rw [values_assign_self] at hq
    cases hq
    exact if_pos rfl

end

end LittleC.Lowering.State
