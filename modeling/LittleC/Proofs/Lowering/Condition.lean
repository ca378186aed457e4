import LittleC.Proofs.Lowering.Operator

/-! # Comparisons and short circuits

A comparison leaves flags that tell about both operands. Where an operand is skipped, both paths
meet in one state: all older values were saved before the paths parted, and saved values do not
move. -/

namespace LittleC.Lowering

open State

section
variable {S : Scene} {M : Memory} {s s' : State} {b c d k n : Nat} {v : ValueId} {r : Reg}
  {x y : Option Int} {P : Machine → Prop}

/-- The flags tell how `u` compares with `v`. -/
def Tells (f : Flags) (u v : Int) : Prop := ∀ q : Comparison, q.holds f = q.eval u v

/-! ## Comparisons -/

/-- Compares two computed values and gives up the left one. -/
def comparing (l r : ValueId) : Lowering (Reg × ValueId) := do
  let width ← sizeOf l
  let target ← inRegister l []
  let source ← operand r
  emit (.cmp width source target)
  unbind l
  pure (target, r)

theorem does_comparing {l r : ValueId} (hn : Width n) (h : Operands s s' l r n n c) (u v : Int) :
    Does S M s.nextValue (comparing l r) s'
      (fun sides s'' => Reached s s'' c ∧ s''.pool sides.1 = none ∧ s.nextValue ≤ sides.2.index)
      (fun m => S.Holds s' m l n u ∧ S.Holds s' m r n v)
      (fun _ _ m => ∃ f, m.flags = some f ∧ Tells f u v) := by
  refine Does.inspect_bind ?_
  rw [h.left.size]
  refine (does_inRegister h.reached.sound h.left hn h.fresh ⟨.rax, List.not_mem_nil⟩
    fun m hm => ⟨u, hm.1⟩).bind fun target s3 ht => Does.inspect_bind ?_
  have hreached := h.reached.shifts ht.shifts (ne_of_fresh h.fresh)
  refine Does.emit_bind (Q := fun m => ∃ f, m.flags = some f ∧ Tells f u v) hreached.sound ?_
    (Does.unbind_bind hreached.sound h.fresh (Does.pure ?_ ?_ fun _ h => h))
  · rintro m3 hm3 ⟨m2, ⟨hu, hv⟩, hstays, -⟩
    have hu3 := (hstays.holds l n u trivial hn.le hu).content
      (ht.shifts.sound.location ht.held)
    have hv3 := hstays.holds r n v trivial hn.le hv
    refine ⟨by simp [Instr.encodable, hn, hv3.isSource], _, rfl,
      Scene.stays_of_regs rfl rfl rfl fun _ _ _ _ => rfl, _, rfl, fun q => ?_⟩
    rw [hu3, hv3.read hn.le hm3.base, Comparison.holds_ofCompare hn hu.wrap_eq hv.wrap_eq]
  · exact (hreached.unbind h.fresh).sound
  · refine ⟨hreached.unbind h.fresh, ?_, Nat.le_trans h.fresh (Nat.le_of_lt h.lt)⟩
    rw [pool_unbind _ _ hreached.sound, ht.held, if_pos rfl]

theorem does_comparison {a b : Lowering ValueId} (hn : Width n) (ha : Evaluates S M a k n c x)
    (hb : Evaluates S M b (k + c) n d y) (hs : s.Sound) (hk : s.texts.length = k)
    (hP : ∀ m, P m → ∃ u v, x = some u ∧ y = some v) :
    Does S M s.nextValue (comparison a b) s
      (fun sides s' => Reached s s' (c + d) ∧ s'.pool sides.1 = none ∧
        s.nextValue ≤ sides.2.index) P
      (fun _ _ m => ∃ f, m.flags = some f ∧ ∃ u v, x = some u ∧ y = some v ∧ Tells f u v) := by
  refine does_operands hn ha hb hs hk hP fun l r s2 h => ?_
  refine (Does.exists_pre fun uv : Int × Int => (does_comparing hn h uv.1 uv.2).given
    (φ := x = some uv.1 ∧ y = some uv.2)).weaken (Nat.le_refl _) (fun _ _ h => h) ?_ ?_
  · rintro m ⟨_, u, v, -, hx, hy, hu, hv⟩
    exact ⟨(u, v), ⟨hx, hy⟩, hu, hv⟩
  · rintro sides s3 m - ⟨uv, ⟨hx, hy⟩, f, hf, htells⟩
    exact ⟨f, hf, uv.1, uv.2, hx, hy, htells⟩

theorem compare_eq (q : Comparison) (size : Nat) (left right : Lowering ValueId) :
    compare q size left right = (do
      note q.symbol
      let l ← left
      let r ← right
      let sides ← comparing l r
      materialize q sides.1
      unbind sides.2
      newValue (.reg sides.1) size) := by
  simp only [compare, comparison, comparing, bind_assoc]

theorem merges_compare {q : Comparison} {w : Nat} (hn : Width n) (hw : Width w) :
    Merges S M (fun l r => do
      let sides ← comparing l r
      materialize q sides.1
      unbind sides.2
      newValue (.reg sides.1) n) w w n (fun u v => some (truth (q.eval u v))) := by
  intro s s2 l r c h u v
  refine (does_comparing hw h u v).given.bind fun sides s3 h3 => ?_
  obtain ⟨hreached, hfree, hfresh⟩ := h3
  refine ((does_materialize hreached.sound (fun u _ hu => ?_) q (Tells · u v)).weaken
    (Nat.le_refl _) (fun _ _ h => h) (fun _ h => h.2) fun _ _ _ _ h => h).bind fun _ s4 h4 => ?_
  · rw [hfree] at hu
    cases hu
  subst h4
  refine Does.unbind_bind hreached.sound hfresh (does_result (hreached.unbind hfresh) ?_ hn ?_)
  · rw [pool_unbind _ _ hreached.sound, hfree, if_neg fun heq => nomatch heq]
  · rintro m ⟨f, htells, hm⟩
    exact ⟨_, rfl, by rw [hm, signed_truth hn, htells q]⟩

theorem evaluates_compare {q : Comparison} {a b : Lowering ValueId} {w : Nat} (hn : Width n)
    (hw : Width w) (ha : Evaluates S M a k w c x) (hb : Evaluates S M b (k + c) w d y) :
    Evaluates S M (compare q n a b) k n (c + d)
      (x.bind fun u => y.bind fun v => some (truth (q.eval u v))) := by
  rw [compare_eq]
  exact (ha.merge hw hb (merges_compare hn hw)).note q.symbol

/-- Comparing a value with zero uses it up. -/
theorem does_compareZero (hv : Yields s s' v n c) (hn : Width n) (y : Int) :
    Does S M s.nextValue (compareZero v) s' (fun _ s'' => Reached s s'' c)
      (fun m => S.Holds s' m v n y) (fun _ _ m => ∃ f, m.flags = some f ∧ Tells f y 0) := by
  refine Does.inspect_bind ?_
  rw [hv.ready.size]
  refine (does_content hv hn y).bind fun r s2 hr => ?_
  have hreached := hv.toReached.shifts hr.shifts (ne_of_fresh hv.fresh)
  have hunbind := hreached.unbind hv.fresh
  have hlow : (s2.unbind v).lowest = s2.lowest := by rw [unbind_eq]
  refine Does.emit_bind (Q := fun m => ∃ f, m.flags = some f ∧ Tells f y 0) hreached.sound ?_
    (Does.update ?_ ?_ hunbind fun _ h => h)
  · rintro m2 - rfl
    exact ⟨encodable_cmp_zero hn r, _, rfl, Scene.stays_of_regs rfl rfl rfl fun _ _ _ _ => rfl, _,
      rfl, fun q => holds_cmp_zero hn _ q⟩
  · exact (evolves_unbind hreached.sound v).mono (ne_of_fresh hv.fresh)
  · exact Scene.stays_of_state hlow
      fun u hu => unmoved_unbind hreached.sound (ne_of_fresh hv.fresh u hu)

/-- Computes an operand and compares it with zero. -/
def test (a : Lowering ValueId) : Lowering Unit := do
  let v ← a
  compareZero v

theorem does_test {a : Lowering ValueId} (hn : Width n) (ha : Evaluates S M a k n c x)
    (hs : s.Sound) (hk : s.texts.length = k) (hP : ∀ m, P m → x.isSome = true) :
    Does S M s.nextValue (test a) s (fun _ s' => Reached s s' c) P
      (fun _ _ m => ∃ f, m.flags = some f ∧ ∃ m₀ y, P m₀ ∧ x = some y ∧ Tells f y 0) := by
  refine (ha.does hs hk (Nat.le_refl _) P hP).bind fun v s1 hv => ?_
  refine (Does.exists_pre fun y => (does_compareZero hv hn y).given
    (φ := (∃ m₀, P m₀) ∧ x = some y)).weaken (Nat.le_refl _) (fun _ _ h => h) ?_ ?_
  · rintro m ⟨m₀, y, hm₀, -, hx, hy⟩
    exact ⟨y, ⟨⟨m₀, hm₀⟩, hx⟩, hy⟩
  · rintro _ s2 m - ⟨y, ⟨⟨m₀, hm₀⟩, hx⟩, f, hf, htells⟩
    exact ⟨f, hf, m₀, y, hm₀, hx, htells⟩

/-! ## Short circuits -/

/-- Runs the second action unless a condition on what the first leaves skips it. -/
def skipping (first : Lowering Unit) (skip : Comparison) (second : Lowering Unit) :
    Lowering Unit := do
  let merge ← newLabel
  first
  emit (.jcc skip merge)
  second
  mark merge

theorem logical_eq (title : String) (skip : Comparison) (size : Nat)
    (left right : Lowering ValueId) :
    logical title skip size left right = (do
      note title
      spillAll
      skipping (test left) skip (test right)
      let target ← takeReg []
      materialize .ne target
      newValue (.reg target) size) := by
  simp only [logical, skipping, test, bind_assoc]

/-- A state that has handed out one more label. -/
def State.labelled (s : State) : State := { s with nextLabel := s.nextLabel + 1 }

theorem State.evolves_labelled (hs : s.Sound) (K : ValueId → Prop) : Evolves K s s.labelled :=
  ⟨⟨hs.location, hs.width, hs.known⟩, Nat.le_refl _, Nat.le_succ _, Int.le_refl _,
    List.prefix_refl _, fun v _ => Or.inl (Unmoved.refl s v)⟩

theorem Reached.labelled (h : Reached s s' c) : Reached s s'.labelled c :=
  ⟨h.toEvolves.trans (evolves_labelled h.sound _), h.count⟩

theorem stays_labelled (s : State) (m : Machine) (K : ValueId → Prop) :
    S.Stays K s m s.labelled m := by
  refine Scene.stays_of_state ?_ ?_ m
  · rfl
  · exact fun v _ => Unmoved.refl s v

/-- Values that no register holds stay while a piece of code is skipped. -/
theorem stays_of_skipped {K : ValueId → Prop} (h : Evolves K s s')
    (hK : ∀ v, K v → s.Unheld v) (m : Machine) : S.Stays K s m s' m := by
  refine ⟨rfl, rfl, fun _ _ => rfl, ?_⟩
  intro v n x hv hn hx
  exact hx.transfer hn (h.unmoved hv (hK v hv)) h.lowest (fun _ _ => rfl) fun _ _ => rfl

theorem code_skipping (first second : Lowering Unit) (skip : Comparison) (s : State) :
    (skipping first skip second s).code =
      (first s.labelled).code ++ ([.instr (.jcc skip ⟨s.nextLabel⟩)] ++
        (second (first s.labelled).state).code) ++ [.label ⟨s.nextLabel⟩] := by
  simp [skipping, bind_apply, newLabel_apply, emit_apply, mark_apply, labelled]

theorem state_skipping (first second : Lowering Unit) (skip : Comparison) (s : State) :
    (skipping first skip second s).state = (second (first s.labelled).state).state := rfl

section
variable {w : World} {first second : Lowering Unit} {skip : Comparison} {s₁ s₂ : State}

theorem labelsIn_passed (skip : Comparison) (hlabel₁ : s.nextLabel + 1 ≤ s₁.nextLabel)
    (hlabel₂ : s₁.nextLabel ≤ s₂.nextLabel)
    (hfirst : LabelsIn (s.nextLabel + 1) s₁.nextLabel (first s.labelled).code)
    (hsecond : LabelsIn s₁.nextLabel s₂.nextLabel (second s₁).code) :
    LabelsIn (s.nextLabel + 1) s₂.nextLabel
      ((first s.labelled).code ++ ([.instr (.jcc skip ⟨s.nextLabel⟩)] ++ (second s₁).code)) :=
  hfirst.append ((labelsIn_instr s₁.nextLabel s₁.nextLabel _).append hsecond (Nat.le_refl _)
    hlabel₂) hlabel₁ hlabel₂

theorem labelsIn_skipping (h₁ : (first s.labelled).state = s₁)
    (hlabel₁ : s.nextLabel + 1 ≤ s₁.nextLabel) (hlabel₂ : s₁.nextLabel ≤ s₂.nextLabel)
    (hfirst : LabelsIn (s.nextLabel + 1) s₁.nextLabel (first s.labelled).code)
    (hsecond : LabelsIn s₁.nextLabel s₂.nextLabel (second s₁).code) :
    LabelsIn s.nextLabel s₂.nextLabel (skipping first skip second s).code := by
  subst h₁
  rw [code_skipping]
  have hpassed := labelsIn_passed skip hlabel₁ hlabel₂ hfirst hsecond
  exact (hpassed.mono (Nat.le_succ _) (Nat.le_refl _)).union
    (labelsIn_label (l := ⟨s.nextLabel⟩) (Nat.le_refl _) (Nat.le_trans hlabel₁ hlabel₂))

/-- Both paths of a short circuit lead behind the label. -/
theorem reaches_skipping {m m₁ m₂ : Machine} {f : Flags} (h₁ : (first s.labelled).state = s₁)
    (hlabel₁ : s.nextLabel + 1 ≤ s₁.nextLabel) (hlabel₂ : s₁.nextLabel ≤ s₂.nextLabel)
    (hfirst : LabelsIn (s.nextLabel + 1) s₁.nextLabel (first s.labelled).code)
    (hsecond : LabelsIn s₁.nextLabel s₂.nextLabel (second s₁).code)
    (hrun : w.Reaches (s.nextLabel + 1) (first s.labelled).code m .next m₁) (hf : m₁.flags = some f)
    (hthen : skip.holds f = true ∧ m₂ = m₁ ∨
      skip.holds f = false ∧ w.Reaches s₁.nextLabel (second s₁).code m₁ .next m₂) :
    w.Reaches s.nextLabel (skipping first skip second s).code m .next m₂ := by
  subst h₁
  have hpassed := labelsIn_passed skip hlabel₁ hlabel₂ hfirst hsecond
  have hnot := hpassed.not_mem (l := ⟨s.nextLabel⟩) (Or.inl (Nat.lt_succ_self _))
  rw [code_skipping]
  rcases hthen with ⟨htaken, rfl⟩ | ⟨hgo, hrun'⟩
  · have hreach := hrun.append hfirst hlabel₁
      ((World.reaches_jcc_taken hf htaken _ ⟨s.nextLabel⟩).append_jump
        (second (first s.labelled).state).code)
    exact hreach.mark (Or.inr rfl) (Nat.le_succ _) (Nat.le_refl _) hnot
  · have hjump := labelsIn_instr (first s.labelled).state.nextLabel
      (first s.labelled).state.nextLabel (.jcc skip ⟨s.nextLabel⟩)
    have hreach := hrun.append hfirst hlabel₁
      ((World.reaches_jcc_skipped hf hgo _ ⟨s.nextLabel⟩).append hjump (Nat.le_refl _) hrun')
    exact hreach.mark (Or.inl rfl) (Nat.le_succ _) (Nat.le_refl _) hnot

end

/-- Both paths of a short circuit meet behind the label. The second action is run from machines of
`W`, which the way through the first one leads to. -/
theorem does_skipping {first second : Lowering Unit} {skip : Comparison} {T U : State → Prop}
    {Q R : Flags → Prop} {W : Machine → Prop} (hs : s.Sound)
    (hfirst : Does S M b first s.labelled (fun _ s1 => T s1) P
      (fun _ _ m => ∃ f, m.flags = some f ∧ Q f))
    (hpass : ∀ m m₁ f, P m → m₁.flags = some f → skip.holds f = false →
      S.world.Reaches (s.nextLabel + 1) (first s.labelled).code m .next m₁ → W m₁)
    (hsecond : ∀ s1, T s1 → Does S M b second s1 (fun _ s2 => U s2)
      (fun m => W m ∧ ∃ f, m.flags = some f ∧ Q f ∧ skip.holds f = false)
      (fun _ _ m => ∃ f, m.flags = some f ∧ R f))
    (hunheld : ∀ s1, T s1 → ∀ v, Before b v → s1.Unheld v)
    (hskip : ∀ f, Q f → skip.holds f = true → R f) :
    Does S M b (skipping first skip second) s (fun _ s' => U s') P
      (fun _ _ m => ∃ f, m.flags = some f ∧ R f) := by
  have hthen := hsecond _ hfirst.gives
  have hlabelled := evolves_labelled hs (Before b)
  refine ⟨(hlabelled.trans hfirst.evolves).trans hthen.evolves,
    labelsIn_skipping rfl hfirst.evolves.label hthen.evolves.label hfirst.labels hthen.labels,
    hthen.gives, ?_⟩
  rw [state_skipping]
  intro m hm hfits hP
  have hmid := hfits.before hthen.evolves
  have hstays₀ := stays_labelled (S := S) s m (Before b)
  have hm₀ := hm.after hlabelled hstays₀ (hmid.before hfirst.evolves).lowest
  obtain ⟨m₁, hrun, hstays, f, hf, hQ⟩ := hfirst.runs m hm₀ hmid hP
  have hstays₁ := hstays₀.trans hstays hlabelled.lowest hfirst.evolves.lowest
  have hlow₁ := Int.le_trans hfirst.evolves.lowest hlabelled.lowest
  cases htaken : skip.holds f with
  | true =>
      -- No value from before is in a register, so the code that is skipped moves none.
      have hskipped := stays_of_skipped (S := S) hthen.evolves (hunheld _ hfirst.gives) m₁
      exact ⟨m₁, reaches_skipping rfl hfirst.evolves.label hthen.evolves.label hfirst.labels
        hthen.labels hrun hf (Or.inl ⟨htaken, rfl⟩),
        hstays₁.trans hskipped hlow₁ hthen.evolves.lowest, f, hf, hskip f hQ htaken⟩
  | false =>
      obtain ⟨m₂, hrun', hstays', hR⟩ := hthen.runs m₁
        (hm₀.after hfirst.evolves hstays hmid.lowest) hfits
        ⟨hpass m m₁ f hP hf htaken hrun, f, hf, hQ, htaken⟩
      exact ⟨m₂, reaches_skipping rfl hfirst.evolves.label hthen.evolves.label hfirst.labels
        hthen.labels hrun hf (Or.inr ⟨htaken, hrun'⟩),
        hstays₁.trans hstays' hlow₁ hthen.evolves.lowest, hR⟩

theorem eval_ne_zero (u : Int) : Comparison.ne.eval u 0 = (u != 0) := by
  rw [Comparison.eval, decide_not]
  rfl

/-- What `op` gives over its operands, the right one of which it may skip. -/
def shortCircuit (op : BinaryOp) (n : Nat) (x y : Option Int) : Option Int :=
  x.bind fun u => if op.skips u then some (truth (u != 0)) else y.bind (op.apply n u)

section
variable {op : BinaryOp} {skip : Comparison}

theorem skips_eq (hop : (op = .land ∧ skip = .eq) ∨ (op = .lor ∧ skip = .ne)) (u : Int) :
    op.skips u = skip.eval u 0 := by
  rcases hop with ⟨rfl, rfl⟩ | ⟨rfl, rfl⟩
  · rfl
  · exact (eval_ne_zero u).symm

theorem apply_eq (hop : (op = .land ∧ skip = .eq) ∨ (op = .lor ∧ skip = .ne)) (u v : Int) :
    op.apply n u v = some (truth (v != 0)) := by
  rcases hop with ⟨rfl, rfl⟩ | ⟨rfl, rfl⟩ <;> rfl

/-- Where no register held a value, none holds an older value behind what was lowered. -/
theorem Reached.unheld (h : Reached s s' c) (hpool : ∀ r, s.pool r = none) (v : ValueId)
    (hv : Before s.nextValue v) : s'.Unheld v := by
  have hstart : s.Unheld v := fun r hr => nomatch (hpool r).symm.trans hr
  exact (h.unmoved hv hstart).unheld hstart

/-- Behind the label the flags tell about the operand that decided. -/
theorem does_decision {a b : Lowering ValueId} {w w' : Nat}
    (hop : (op = .land ∧ skip = .eq) ∨ (op = .lor ∧ skip = .ne)) (hw : Width w)
    (hw' : Width w') (ha : Evaluates S M a k w c x) (hb : Evaluates S M b (k + c) w' d y)
    (hs : s.Sound) (hk : s.texts.length = k) (hpool : ∀ r, s.pool r = none)
    (hP : ∀ m, P m → (shortCircuit op n x y).isSome = true) :
    Does S M s.nextValue (skipping (test a) skip (test b)) s
      (fun _ s' => Reached s.labelled s' (c + d)) P
      (fun _ _ m => ∃ f, m.flags = some f ∧
        ∃ u, shortCircuit op n x y = some (truth (u != 0)) ∧ Tells f u 0) := by
  have hlabelled := evolves_labelled hs (Before s.nextValue)
  generalize hz : shortCircuit op n x y = z at hP ⊢
  refine does_skipping (T := fun s₁ => Reached s.labelled s₁ c) (W := fun _ => True)
    (Q := fun f => z.isSome = true ∧ ∃ u, x = some u ∧ Tells f u 0) hs ?_
    (fun _ _ _ _ _ _ _ => trivial) ?_ (fun _ h₁ => h₁.unheld hpool) ?_
  · refine (does_test (P := P) hw ha hlabelled.sound hk fun m hm => ?_).weaken (Nat.le_refl _)
      (fun _ _ h => h) (fun _ h => h) ?_
    · have hsome := hP m hm
      rw [← hz] at hsome
      exact Option.isSome_of_isSome_bind hsome
    · rintro _ _ m - ⟨f, hf, m₀, u, hm₀, hx, htells⟩
      exact ⟨f, hf, hP m₀ hm₀, u, hx, htells⟩
  · intro s₁ h₁
    refine (does_test hw' hb h₁.sound (by rw [h₁.count]; exact congrArg (· + c) hk) ?_).weaken
      h₁.value (fun _ s₂ h₂ => h₁.trans h₂) (fun _ h => h) ?_
    · rintro m ⟨-, f, -, ⟨hsome, u, hx, htells⟩, hgo⟩
      rw [htells, ← skips_eq hop] at hgo
      rw [← hz, shortCircuit, hx, Option.bind_some, hgo] at hsome
      exact Option.isSome_of_isSome_bind hsome
    · rintro _ _ m - ⟨f, hf, m₀, v, ⟨-, f₀, -, ⟨-, u, hx, htells⟩, hgo⟩, hy, htells'⟩
      rw [htells, ← skips_eq hop] at hgo
      refine ⟨f, hf, v, ?_, htells'⟩
      rw [← hz, shortCircuit, hx, Option.bind_some, hgo, hy]
      exact apply_eq hop u v
  · rintro f ⟨-, u, hx, htells⟩ hskip
    rw [htells, ← skips_eq hop] at hskip
    refine ⟨u, ?_, htells⟩
    rw [← hz, shortCircuit, hx, Option.bind_some, hskip]
    rfl

/-- What flags tell of a number becomes its truth in a register. -/
theorem does_truth (h : Reached s s' c) (hn : Width n) (u : Int) :
    Does S M s.nextValue (do
      let target ← takeReg []
      materialize .ne target
      newValue (.reg target) n) s' (fun v s'' => Yields s s'' v n c)
      (fun m => ∃ f, m.flags = some f ∧ Tells f u 0)
      (fun v s'' m => S.Holds s'' m v n (truth (u != 0))) := by
  refine (does_takeReg h.sound ⟨.rax, List.not_mem_nil⟩ _ _).bind fun r s₁ h₁ => ?_
  obtain ⟨hshifts, hr, -, -⟩ := h₁
  refine ((does_materialize hshifts.sound (fun u _ hu => ?_) .ne (Tells · u 0)).weaken
    (Nat.le_refl _) (fun _ _ h => h) ?_ fun _ _ _ _ h => h).bind fun _ s₂ h₂ => ?_
  · rw [hr] at hu
    cases hu
  · rintro m ⟨m₀, ⟨f, hf, htells⟩, -, -, hflags⟩
    exact ⟨f, hflags.trans hf, htells⟩
  · subst h₂
    refine (does_result (z := some (truth (u != 0))) (h.shifts hshifts fun _ _ => trivial) hr hn
      ?_).weaken (Nat.le_refl _) (fun _ _ h => h) (fun _ h => h) ?_
    · rintro m ⟨f, htells, hm⟩
      exact ⟨_, rfl, by rw [hm, signed_truth hn, htells, eval_ne_zero]⟩
    · rintro v s₃ m - ⟨y, hy, hv⟩
      rw [Option.some.inj hy]
      exact hv

/-- A short circuit gives the truth of what decided. -/
theorem evaluates_logical {title : String} {a b : Lowering ValueId} {w w' : Nat}
    (hop : (op = .land ∧ skip = .eq) ∨ (op = .lor ∧ skip = .ne)) (hn : Width n) (hw : Width w)
    (hw' : Width w') (ha : Evaluates S M a k w c x) (hb : Evaluates S M b (k + c) w' d y) :
    Evaluates S M (logical title skip n a b) k n (c + d) (shortCircuit op n x y) := by
  intro s hs hk
  rw [logical_eq]
  refine Does.note_bind _ ((does_spillAll hs _ _).bind fun _ s₁ h₁ => ?_)
  obtain ⟨hshifts, hpool⟩ := h₁
  have hle : s.nextValue ≤ s₁.nextValue := Nat.le_of_eq hshifts.nextValue_eq.symm
  have hk₁ : s₁.texts.length = k := (congrArg List.length hshifts.texts_eq).trans hk
  refine ((does_decision (n := n) hop hw hw' ha hb hshifts.sound hk₁ hpool ?_).weaken hle
    (fun _ _ h => h) (fun _ h => h) fun _ _ _ _ h => h).bind fun _ s₃ h₃ => ?_
  · rintro m ⟨_, hsome, -⟩
    exact hsome
  have hreached := ((Reached.refl hs).shifts hshifts fun _ _ => trivial).labelled.trans h₃
  rw [Nat.zero_add] at hreached
  refine (Does.exists_pre fun u => (does_truth hreached hn u).given
    (φ := shortCircuit op n x y = some (truth (u != 0)))).weaken (Nat.le_refl _) (fun _ _ h => h)
    ?_ ?_
  · rintro m ⟨f, hf, u, hz, htells⟩
    exact ⟨u, hz, f, hf, htells⟩
  · rintro v s₄ m - ⟨u, hz, hv⟩
    exact ⟨_, hz, hv⟩

end

end

end LittleC.Lowering
