import LittleC.Proofs.Calls.Setting

/-! # Operators over operands that call

What an operator does behind its operands calls nothing. So it is enough that the result of the left
operand lasts while the right one is computed, and that the results of operators last. -/

namespace LittleC.Lowering

open State

/-- After `k` string literals the action, with `c` of its own, computes what `f` does in `n` bytes,
and the result lasts. -/
def Computes (S : Setting) (a : Lowering ValueId) (k n c : Nat) (f : StateT Memory Option Int) :
    Prop :=
  ∀ s : State, s.Sound → s.texts.length = k → ∀ (x : Int) (M' : Memory),
    Drives S s.nextValue a s (fun v s' => Yields s s' v n c) (fun M _ => f M = some (x, M'))
      fun v s' M m => M = M' ∧ S.Lasts s' m v n x

/-- Calls leave the result where it is. -/
def EndsFirm (S : Setting) (n : Nat) (a : Lowering ValueId) (s : State) : Prop :=
  S.Firm n ((a s).state.values (a s).result).location

/-- The result is in a register. -/
def EndsInReg (a : Lowering ValueId) : Prop :=
  ∀ s : State, ∃ r, ((a s).state.values (a s).result).location = .reg r

section
variable {S : Setting} {s s' : State} {b c d k n w w' : Nat} {a : Lowering ValueId}
  {f g : StateT Memory Option Int} {P : Memory → Machine → Prop}

/-! ## Results that last -/

theorem EndsInReg.bind {α : Type} {a : Lowering α} {f : α → Lowering ValueId}
    (h : ∀ v, EndsInReg (f v)) : EndsInReg (a >>= f) := fun s => h (a s).result (a s).state

theorem endsInReg_newValue (r : Reg) (n : Nat) : EndsInReg (newValue (.reg r) n) :=
  fun s => ⟨r, congrArg Value.location (values_addValue s ⟨.reg r, n⟩)⟩

theorem endsInReg_rebind (v : ValueId) (r : Reg) (n : Nat) : EndsInReg (rebind v r n) :=
  .bind fun _ => endsInReg_newValue r n

theorem EndsInReg.firm (h : EndsInReg a) (s : State) (n : Nat) : EndsFirm S n a s := by
  obtain ⟨r, hr⟩ := h s
  unfold EndsFirm
  rw [hr]
  trivial

theorem endsFirm_newValue {l : Location} (h : S.Firm n l) (s : State) :
    EndsFirm S n (newValue l n) s := by
  have hlocation : ((newValue l n s).state.values (newValue l n s).result).location = l :=
    congrArg Value.location (values_addValue s ⟨l, n⟩)
  unfold EndsFirm
  rw [hlocation]
  exact h

/-! ## Operands -/

/-- What computes a number and calls nothing. -/
theorem Computes.of_evaluates {g : Memory → Option Int}
    (h : ∀ M, Evaluates S.toScene M a k n c (g M))
    (hfirm : ∀ s M x, g M = some x → EndsFirm S n a s) :
    Computes S a k n c (reading g) := by
  intro s hs hk x M'
  have hdoes := fun M => h M s hs hk
  have hany := hdoes M'
  refine ⟨hany.evolves, hany.labels, hany.gives, fun M m hm hc hP => ?_⟩
  obtain ⟨hx, rfl⟩ := reading_eq_some hP
  obtain ⟨m', hrun, hstays, y, hy, hholds⟩ := (hdoes M').runs m hm.toAgrees hc.toFits
      (by rw [hx]; rfl)
  cases hx.symm.trans hy
  exact ⟨M', m', hrun, hm.after hany.evolves hstays hc,
    Setting.survives_of_stays hstays hm hany.evolves hc, rfl, hholds, hfirm s M' x hx⟩

theorem Computes.note (h : Computes S a k n c f) (text : String) :
    Computes S (note text >>= fun _ => a) k n c f :=
  fun s hs hk x M' => Drives.note_bind text (h s hs hk x M')

theorem Computes.drives (h : Computes S a k n c f) (hs : s.Sound) (hk : s.texts.length = k)
    (hb : b ≤ s.nextValue) (x : Int) (M' : Memory)
    (hP : ∀ M m, P M m → f M = some (x, M')) :
    Drives S b a s (fun v s' => Yields s s' v n c) P fun v s' M m => (M = M' ∧ S.Lasts s' m v n x) ∧
      ∃ M₀ m₀, P M₀ m₀ ∧ S.Survives (Before s.nextValue) s m₀ s' m :=
  ((h s hs hk x M').weaken (Nat.le_refl _) (fun _ _ h => h) hP fun _ _ _ _ _ h => h).keeping hb

/-- An operator over an operand. -/
theorem Computes.turn {tail : ValueId → Lowering ValueId} {g : Int → Memory → Option Int}
    (ha : Computes S a k w c f) (htail : ∀ M, Turns S.toScene M tail w n (g · M))
    (hfirm : ∀ v (s : State), (s.values v).size = w → S.Firm w (s.values v).location →
      EndsFirm S n (tail v) s) :
    Computes S (a >>= tail) k n c (f >>= fun y => reading (g y)) := by
  intro s hs hk z M'
  have hstart : ∀ M, (f >>= fun y => reading (g y)) M = some (z, M') →
      ∃ y, f M = some (y, M') ∧ g y M' = some z := by
    intro M h
    obtain ⟨y, M₁, hy, hz⟩ := bind_eq_some h
    obtain ⟨hz, rfl⟩ := reading_eq_some hz
    exact ⟨y, hy, hz⟩
  refine (Drives.exists_pre (P := fun y M _ => f M = some (y, M') ∧ g y M' = some z)
    fun y => ?_).weaken (Nat.le_refl _) (fun _ _ h => h) (fun M _ h => hstart M h)
    fun _ _ _ _ _ h => h
  refine (ha.drives hs hk (Nat.le_refl _) y M' fun _ _ h => h.1).bind fun v s₁ hv => ?_
  have hdrives : Drives S s.nextValue (tail v) s₁ (fun u s₂ => Yields s s₂ u n c ∧
        (S.Firm w (s₁.values v).location → S.Firm n (s₂.values u).location))
      (fun M m => M = M' ∧ (g y M).isSome = true ∧ S.Holds s₁ m v w y)
      fun u s₂ M m => M = M' ∧ ∃ x, g y M = some x ∧ S.Holds s₂ m u n x :=
    (Does.drives fun M => (htail M s s₁ v c hv y).given).also (hfirm v s₁ hv.ready.size)
  refine (hdrives.given (φ := S.Firm w (s₁.values v).location ∧ g y M' = some z)).weaken
    (Nat.le_refl _) (fun _ _ h => h.1) ?_ ?_
  · rintro M m ⟨⟨rfl, hy⟩, _, _, ⟨-, hz⟩, -⟩
    exact ⟨⟨hy.firm, hz⟩, rfl, by rw [hz]; rfl, hy.holds⟩
  · rintro u s₂ M m ⟨-, hlasts⟩ ⟨⟨hv, hz⟩, rfl, x, hx, hholds⟩
    cases hx.symm.trans hz
    exact ⟨rfl, hholds, hlasts hv⟩

/-- The left result lasts while the right operand is computed. -/
theorem drives_operands {α : Type} {b : Lowering ValueId} {tail : ValueId → ValueId → Lowering α}
    {T : α → State → Prop} {R : α → State → Memory → Machine → Prop} {x y : Int} {M₁ M' : Memory}
    {φ : Prop} (hw : Width w) (ha : Computes S a k w c f) (hb : Computes S b (k + c) w' d g)
    (hs : s.Sound) (hk : s.texts.length = k)
    (hP : ∀ M m, P M m → φ ∧ f M = some (x, M₁) ∧ g M₁ = some (y, M'))
    (hf : ∀ l r s', Operands s s' l r w w' (c + d) → Drives S s.nextValue (tail l r) s' T
      (fun M m => φ ∧ M = M' ∧ S.Lasts s' m l w x ∧ S.Lasts s' m r w' y) R) :
    Drives S s.nextValue (a >>= fun l => b >>= fun r => tail l r) s T P R := by
  refine (ha.drives hs hk (Nat.le_refl _) x M₁ fun M m h => (hP M m h).2.1).bind fun l s₁ hl => ?_
  refine (hb.drives hl.sound (by rw [hl.count, hk]) hl.value y M' ?_).bind fun r s₂ hr => ?_
  · rintro M m ⟨⟨rfl, -⟩, M₀, m₀, hstart, -⟩
    exact (hP M₀ m₀ hstart).2.2
  refine (hf l r s₂ ⟨hl.toReached.trans hr.toReached, ?_, hr.ready, hl.fresh, ?_⟩).weaken
    (Nat.le_refl _) (fun _ _ h => h) ?_ fun _ _ _ _ _ h => h
  · exact hr.toEvolves.ready hl.ready.known hl.ready
  · exact Nat.lt_of_lt_of_le hl.ready.known hr.fresh
  · rintro M m ⟨⟨rfl, hy⟩, M₂, m₂, ⟨⟨-, hx⟩, M₀, m₀, hstart, -⟩, hsurvives⟩
    exact ⟨(hP M₀ m₀ hstart).1, rfl, hsurvives.lasts l w x hl.ready.known hw.le hx, hy⟩

/-- An operator over two operands. -/
theorem Computes.merge {b : Lowering ValueId} {tail : ValueId → ValueId → Lowering ValueId}
    {h : Int → Int → Option Int} (hw : Width w) (ha : Computes S a k w c f)
    (hb : Computes S b (k + c) w' d g) (htail : ∀ M, Merges S.toScene M tail w w' n h)
    (hreg : ∀ l r, EndsInReg (tail l r)) :
    Computes S (a >>= fun l => b >>= fun r => tail l r) k n (c + d)
      (f >>= fun x => g >>= fun y => reading fun _ => h x y) := by
  intro s hs hk z M'
  refine (Drives.exists_pre (P := fun (i : Int × Int × Memory) M _ => h i.1 i.2.1 = some z ∧
    f M = some (i.1, i.2.2) ∧ g i.2.2 = some (i.2.1, M'))
      fun ⟨x, y, M₁⟩ => ?_).weaken (Nat.le_refl _) (fun _ _ h => h) ?_ fun _ _ _ _ _ h => h
  · refine drives_operands hw ha hb hs hk (fun M m hstart => hstart) fun l r s₂ hlr => ?_
    have hdrives : Drives S s.nextValue (tail l r) s₂ (fun u s₃ => Yields s s₃ u n (c + d) ∧
          S.Firm n (s₃.values u).location)
        (fun M m => M = M' ∧ (h x y).isSome = true ∧ S.Holds s₂ m l w x ∧ S.Holds s₂ m r w' y)
        fun u s₃ M m => M = M' ∧ ∃ v, h x y = some v ∧ S.Holds s₃ m u n v :=
      (Does.drives fun M => (htail M s s₂ l r _ hlr x y).given).also ((hreg l r).firm s₂ n)
    refine (hdrives.given (φ := h x y = some z)).weaken (Nat.le_refl _) (fun _ _ h => h.1) ?_ ?_
    · rintro M m ⟨hz, rfl, hx, hy⟩
      exact ⟨hz, rfl, by rw [hz]; rfl, hx.holds, hy.holds⟩
    · rintro u s₃ M m ⟨-, hfirm⟩ ⟨hz, rfl, v, hv, hholds⟩
      cases hv.symm.trans hz
      exact ⟨rfl, hholds, hfirm⟩
  · intro M _ hstart
    obtain ⟨x, M₁, hx, hstart⟩ := bind_eq_some hstart
    obtain ⟨y, M₂, hy, hstart⟩ := bind_eq_some hstart
    obtain ⟨hz, rfl⟩ := reading_eq_some hstart
    exact ⟨(x, y, M₁), hz, hx, hy⟩

/-! ## Short circuits -/

theorem drives_test {φ : Prop} (x : Int) (M₁ : Memory) (hw : Width w) (ha : Computes S a k w c f)
    (hs : s.Sound) (hk : s.texts.length = k) (hP : ∀ M m, P M m → φ ∧ f M = some (x, M₁)) :
    Drives S s.nextValue (test a) s (fun _ s' => Reached s s' c) P
      fun _ _ M m => ∃ q, m.flags = some q ∧ φ ∧ M = M₁ ∧ Tells q x 0 := by
  refine (ha.drives hs hk (Nat.le_refl _) x M₁ fun M m h => (hP M m h).2).bind fun v s₁ hv => ?_
  have hdrives : Drives S s.nextValue (compareZero v) s₁ (fun _ s₂ => Reached s s₂ c)
      (fun M m => (φ ∧ M = M₁) ∧ S.Holds s₁ m v w x)
      fun _ _ M m => (φ ∧ M = M₁) ∧ ∃ q, m.flags = some q ∧ Tells q x 0 :=
    Does.drives fun M => (does_compareZero hv hw x).given
  refine hdrives.weaken (Nat.le_refl _) (fun _ _ h => h) ?_ ?_
  · rintro M m ⟨⟨hM, hx⟩, M₀, m₀, hstart, -⟩
    exact ⟨⟨(hP M₀ m₀ hstart).1, hM⟩, hx.holds⟩
  · rintro _ s₂ M m - ⟨⟨hφ, hM⟩, q, hq, htells⟩
    exact ⟨q, hq, hφ, hM, htells⟩

/-- Both paths of a short circuit meet behind the label, each with a memory of its own. -/
theorem drives_skipping {first second : Lowering Unit} {skip : Comparison} {T U : State → Prop}
    {Q R : Memory → Flags → Prop} (hs : s.Sound)
    (hfirst : Drives S b first s.labelled (fun _ s₁ => T s₁) P
      fun _ _ M m => ∃ q, m.flags = some q ∧ Q M q)
    (hsecond : ∀ s₁, T s₁ → Drives S b second s₁ (fun _ s₂ => U s₂)
      (fun M m => ∃ q, m.flags = some q ∧ Q M q ∧ skip.holds q = false)
      fun _ _ M m => ∃ q, m.flags = some q ∧ R M q)
    (hunheld : ∀ s₁, T s₁ → ∀ v, Before b v → s₁.Unheld v)
    (hskip : ∀ M q, Q M q → skip.holds q = true → R M q) :
    Drives S b (skipping first skip second) s (fun _ s' => U s') P
      fun _ _ M m => ∃ q, m.flags = some q ∧ R M q := by
  have hthen := hsecond _ hfirst.gives
  have hlabelled := evolves_labelled hs (Before b)
  refine ⟨(hlabelled.trans hfirst.evolves).trans hthen.evolves,
    labelsIn_skipping rfl hfirst.evolves.label hthen.evolves.label hfirst.labels hthen.labels,
    hthen.gives, ?_⟩
  rw [state_skipping]
  intro M m hm hc hP
  have hmid := hc.before hthen.evolves
  have hstart := hmid.before hfirst.evolves
  have hstays₀ := stays_labelled (S := S.toScene) s m (Before b)
  have hm₀ := hm.after hlabelled hstays₀ hstart
  have hsurvives₀ := Setting.survives_of_stays hstays₀ hm hlabelled hstart
  obtain ⟨M₁, m₁, hrun, hm₁, hsurvives₁, q, hq, hQ⟩ := hfirst.runs M m hm₀ hmid hP
  have hsurvives := hsurvives₀.trans hsurvives₁
  cases htaken : skip.holds q with
  | true =>
      -- No value from before is in a register, so the code that is skipped moves none.
      have hskipped := stays_of_skipped (S := S.toScene) hthen.evolves (hunheld _ hfirst.gives) m₁
      exact ⟨M₁, m₁, reaches_skipping rfl hfirst.evolves.label hthen.evolves.label hfirst.labels
        hthen.labels hrun hq (Or.inl ⟨htaken, rfl⟩), hm₁.after hthen.evolves hskipped hc,
        hsurvives.trans (Setting.survives_of_stays hskipped hm₁ hthen.evolves hc), q, hq,
        hskip M₁ q hQ htaken⟩
  | false =>
      obtain ⟨M₂, m₂, hrun', hm₂, hsurvives₂, hR⟩ :=
        hthen.runs M₁ m₁ hm₁ hc ⟨q, hq, hQ, htaken⟩
      exact ⟨M₂, m₂, reaches_skipping rfl hfirst.evolves.label hthen.evolves.label hfirst.labels
        hthen.labels hrun hq (Or.inr ⟨htaken, hrun'⟩), hm₂, hsurvives.trans hsurvives₂, hR⟩

/-- How a short circuit over the left number `x` comes to `z`: the left operand decides, or the
right one does, whose number is `y`. -/
def Concludes (op : BinaryOp) (g : StateT Memory Option Int) (x y z : Int)
    (M₁ M' : Memory) : Prop :=
  (op.skips x = true ∧ z = truth (x != 0) ∧ M₁ = M') ∨
    (op.skips x = false ∧ g M₁ = some (y, M') ∧ z = truth (y != 0))

/-- Behind the label the flags tell about the operand that decided. -/
theorem drives_decision {b : Lowering ValueId} {op : BinaryOp} {skip : Comparison} (x y z : Int)
    (M₁ M' : Memory) (hop : (op = .land ∧ skip = .eq) ∨ (op = .lor ∧ skip = .ne)) (hw : Width w)
    (hw' : Width w') (ha : Computes S a k w c f) (hb : Computes S b (k + c) w' d g) (hs : s.Sound)
    (hk : s.texts.length = k) (hpool : ∀ r, s.pool r = none)
    (hP : ∀ M m, P M m → Concludes op g x y z M₁ M' ∧ f M = some (x, M₁)) :
    Drives S s.nextValue (skipping (test a) skip (test b)) s
      (fun _ s' => Reached s.labelled s' (c + d)) P
      fun _ _ M m => ∃ q, m.flags = some q ∧ M = M' ∧ ∃ v, z = truth (v != 0) ∧ Tells q v 0 := by
  have hlabelled := evolves_labelled hs (Before s.nextValue)
  have hunheld : ∀ s₁, Reached s.labelled s₁ c → ∀ v, Before s.nextValue v → s₁.Unheld v := by
    intro s₁ h₁ v hv
    have hstart : s.labelled.Unheld v := fun r hr => nomatch (hpool r).symm.trans hr
    exact (h₁.unmoved hv hstart).unheld hstart
  refine drives_skipping (T := fun s₁ => Reached s.labelled s₁ c)
    (Q := fun M q => Concludes op g x y z M₁ M' ∧ M = M₁ ∧ Tells q x 0)
    (R := fun M q => M = M' ∧ ∃ v, z = truth (v != 0) ∧ Tells q v 0) hs
    (drives_test x M₁ hw ha hlabelled.sound hk hP) ?_ hunheld ?_
  · intro s₁ h₁
    refine (drives_test (φ := z = truth (y != 0)) y M' hw' hb h₁.sound
      (by rw [h₁.count]; exact congrArg (· + c) hk) ?_).weaken h₁.value
      (fun _ s₂ h₂ => h₁.trans h₂) (fun _ _ h => h) ?_
    · rintro M m ⟨q, -, ⟨hconcludes, rfl, htells⟩, hgo⟩
      rw [htells, ← skips_eq hop] at hgo
      rcases hconcludes with ⟨hskips, -⟩ | ⟨-, hy, hz⟩
      · rw [hgo] at hskips
        cases hskips
      · exact ⟨hz, hy⟩
    · rintro _ s₂ M m - ⟨q, hq, hz, hM, htells⟩
      exact ⟨q, hq, hM, y, hz, htells⟩
  · rintro M q ⟨hconcludes, rfl, htells⟩ hskip
    have hskips := hskip
    rw [htells, ← skips_eq hop] at hskips
    rcases hconcludes with ⟨-, hz, hM⟩ | ⟨hgo, -⟩
    · exact ⟨hM, x, hz, htells⟩
    · rw [hgo] at hskips
      cases hskips

/-- A short circuit that has a number comes to it in one of the two ways. -/
theorem concludes_of_eq_some {op : BinaryOp} {skip : Comparison} {M M' : Memory} {z : Int}
    (hop : (op = .land ∧ skip = .eq) ∨ (op = .lor ∧ skip = .ne))
    (h : (f >>= fun x => if op.skips x then pure (truth (x != 0))
      else g >>= fun y => reading fun _ => op.apply n x y) M = some (z, M')) :
    ∃ x y M₁, Concludes op g x y z M₁ M' ∧ f M = some (x, M₁) := by
  obtain ⟨x, M₁, hx, h⟩ := bind_eq_some h
  cases hskips : op.skips x with
  | true =>
      rw [hskips, if_pos rfl] at h
      cases h
      exact ⟨x, 0, M', Or.inl ⟨hskips, rfl, rfl⟩, hx⟩
  | false =>
      rw [hskips, if_neg Bool.false_ne_true] at h
      obtain ⟨y, M₂, hy, h⟩ := bind_eq_some h
      obtain ⟨hz, rfl⟩ := reading_eq_some h
      rw [apply_eq hop] at hz
      exact ⟨x, y, M₁, Or.inr ⟨hskips, hy, (Option.some.inj hz).symm⟩, hx⟩

/-- The truth value of what the flags tell about is put into a register. -/
theorem drives_truth {s₃ : State} (h₃ : Reached s s₃ c) (hn : Width n) (z : Int) (M' : Memory) :
    Drives S s.nextValue (takeReg [] >>= fun target => materialize .ne target >>= fun _ =>
        newValue (.reg target) n) s₃ (fun u s₄ => Yields s s₄ u n c)
      (fun M m => ∃ q, m.flags = some q ∧ M = M' ∧ ∃ v, z = truth (v != 0) ∧ Tells q v 0)
      fun u s₄ M m => M = M' ∧ S.Lasts s₄ m u n z := by
  have hreg : EndsInReg (takeReg [] >>= fun target => materialize .ne target >>= fun _ =>
      newValue (.reg target) n) := .bind fun r => .bind fun _ => endsInReg_newValue r n
  refine (Drives.exists_pre (P := fun v M m => (M = M' ∧ z = truth (v != 0)) ∧
    ∃ q, m.flags = some q ∧ Tells q v 0) fun v => ?_).weaken (Nat.le_refl _) (fun _ _ h => h) ?_
      fun _ _ _ _ _ h => h
  · have hdrives : Drives S s.nextValue _ s₃
        (fun u s₄ => Yields s s₄ u n c ∧ S.Firm n (s₄.values u).location)
        (fun M m => (M = M' ∧ z = truth (v != 0)) ∧ ∃ q, m.flags = some q ∧ Tells q v 0)
        fun u s₄ M m => (M = M' ∧ z = truth (v != 0)) ∧ S.Holds s₄ m u n (truth (v != 0)) :=
      (Does.drives fun M => (does_truth h₃ hn v).given).also (hreg.firm s₃ n)
    refine hdrives.weaken (Nat.le_refl _) (fun _ _ h => h.1) (fun _ _ h => h) ?_
    rintro u s₄ M m ⟨-, hfirm⟩ ⟨⟨hM, rfl⟩, hholds⟩
    exact ⟨hM, hholds, hfirm⟩
  · rintro M m ⟨q, hq, hM, v, hz, htells⟩
    exact ⟨v, ⟨hM, hz⟩, q, hq, htells⟩

/-- A short circuit skips its right operand with all calls in it. -/
theorem computes_logical {title : String} {b : Lowering ValueId} {op : BinaryOp} {skip : Comparison}
    (hop : (op = .land ∧ skip = .eq) ∨ (op = .lor ∧ skip = .ne)) (hn : Width n) (hw : Width w)
    (hw' : Width w') (ha : Computes S a k w c f) (hb : Computes S b (k + c) w' d g) :
    Computes S (logical title skip n a b) k n (c + d)
      (f >>= fun x => if op.skips x then pure (truth (x != 0))
        else g >>= fun y => reading fun _ => op.apply n x y) := by
  intro s hs hk z M'
  rw [logical_eq]
  refine (Drives.exists_pre (P := fun (i : Int × Int × Memory) M _ =>
    Concludes op g i.1 i.2.1 z i.2.2 M' ∧ f M = some (i.1, i.2.2)) fun ⟨x, y, M₁⟩ => ?_).weaken
      (Nat.le_refl _) (fun _ _ h => h) ?_ fun _ _ _ _ _ h => h
  · refine Drives.note_bind _ ((Does.drives fun M => does_spillAll hs _ _).bind fun _ s₁ h₁ => ?_)
    obtain ⟨hshifts, hpool⟩ := h₁
    have hle : s.nextValue ≤ s₁.nextValue := Nat.le_of_eq hshifts.nextValue_eq.symm
    have hk₁ : s₁.texts.length = k := (congrArg List.length hshifts.texts_eq).trans hk
    refine ((drives_decision x y z M₁ M' hop hw hw' ha hb
      hshifts.sound hk₁ hpool ?_).weaken hle (fun _ _ h => h) (fun _ _ h => h)
      fun _ _ _ _ _ h => h).bind fun _ s₃ h₃ => ?_
    · rintro M m ⟨_, hstart, -⟩
      exact hstart
    have hsaved : Reached s s₁.labelled 0 := by
      have h := (Reached.refl hs).shifts hshifts fun _ _ => trivial
      exact ⟨h.toEvolves.trans (evolves_labelled hshifts.sound _), h.count⟩
    have hreached := hsaved.trans h₃
    rw [Nat.zero_add] at hreached
    exact drives_truth hreached hn z M'
  · intro M _ hstart
    obtain ⟨x, y, M₁, hconcludes, hx⟩ := concludes_of_eq_some hop hstart
    exact ⟨(x, y, M₁), hconcludes, hx⟩

end

end LittleC.Lowering
