import LittleC.Proofs.Lowering.Effect
import LittleC.Proofs.Typing.Accepted

/-! # Statements do what they denote

One lemma for each form of statement, and from them the effect of every accepted statement. -/

namespace LittleC.Lowering

open State

section
variable {S : Scene} {M M' : Memory} {s : State} {a : Lowering ValueId} {c d k n w : Nat}
  {done : Label}

/-! ## Code before the end of a statement -/

theorem Does.carries {α : Type} {first : Lowering α} {T : α → State → Prop} {P : Machine → Prop}
    {R : α → State → Machine → Prop} (h : Does S M 0 first s T P R) (hP : ∀ m, P m) :
    Carries S s (first s).state (first s).code M M .next
      (R (first s).result (first s).state) := by
  intro m hm hfits
  obtain ⟨m', hrun, hstays, hR⟩ := h.runs m hm hfits (hP m)
  exact ⟨m', hrun, hm.after h.evolves hstays hfits.lowest, hstays.keeps hfits.lowest, hR⟩

/-! ## Expressions and returns -/

/-- The value of an expression is dropped. -/
theorem performs_discard {condition : Memory → Prop}
    (ha : ∀ M s, s.Sound → s.texts.length = k → Does S M 0 a s (fun _ s' => Passes s s' c)
      (fun _ => condition M) fun _ _ _ => True) :
    Performs S (discardResult a) done n k c fun M o M' => condition M ∧ Effect.nothing M o M' := by
  intro s hs hk
  have hdoes : ∀ M, Does S M 0 (discardResult a) s (fun _ s' => Passes s s' c)
      (fun _ => condition M) fun _ _ _ => True := by
    intro M
    unfold discardResult
    refine (ha M s hs hk).bind fun v s' h => ?_
    have hlow : (s'.unbind v).lowest = s'.lowest := by rw [unbind_eq]
    have hne := ne_of_fresh (Nat.zero_le v.index)
    refine Does.update ((evolves_unbind h.sound v).mono hne)
      (Scene.stays_of_state hlow fun u hu => unmoved_unbind h.sound (hne u hu)) ?_ fun _ h => h
    refine ⟨h.toEvolves.trans ((evolves_unbind h.sound v).mono hne), ?_⟩
    rw [unbind_eq]
    exact h.count
  refine ⟨(hdoes fun _ => 0).gives, (hdoes fun _ => 0).labels, ?_⟩
  rintro M o M' ⟨hcondition, rfl, rfl⟩
  exact (hdoes _).carries fun _ => hcondition

/-- A value is returned in `%rax`. -/
theorem performs_return {value : Memory → Option Int} (hn : Width n)
    (ha : ∀ M, Evaluates S M a k n c (value M)) :
    Performs S (returnTo done a) done n k c fun M o M' =>
      ∃ x, value M = some x ∧ o = .returned x ∧ M' = M := by
  intro s hs hk
  have hload : ∀ M, Does S M 0 (a >>= fun v => load v .rax) s (fun _ s' => Passes s s' c)
      (fun _ => (value M).isSome = true)
      fun _ _ m => ∃ y, value M = some y ∧ signed n (m.regs .rax) = y := by
    intro M
    refine ((ha M).does hs hk (Nat.zero_le _) _ fun _ h => h).bind fun v s₁ hv => ?_
    refine (does_load hv.sound hv.ready hn (Nat.zero_le _) .rax ?_).weaken (Nat.le_refl _) ?_
      (fun _ h => h) ?_
    · rintro m ⟨_, y, -, -, -, hy⟩
      exact ⟨y, hy⟩
    · rintro _ s₂ ⟨hshifts, -⟩
      exact (hv.toReached.shifts hshifts (ne_of_fresh hv.fresh)).passes
    · rintro _ s₂ m ⟨hshifts, -, hheld, -⟩ ⟨m₁, ⟨_, y, -, -, hx, hy⟩, hstays, -⟩
      exact ⟨y, hx, (hstays.holds v n y trivial hn.le hy).content (hshifts.sound.location hheld)⟩
  have hcode : returnTo done a = (a >>= fun v => load v .rax) >>= fun _ => emit (.jmp done) := by
    rw [bind_assoc]
    rfl
  have hlabels := (hload fun _ => 0).labels
  have hpasses := (hload fun _ => 0).gives
  rw [hcode]
  refine ⟨hpasses, hlabels.append (labelsIn_instr _ _ _) hpasses.label (Nat.le_refl _), ?_⟩
  rintro M o M' ⟨x, hx, rfl, rfl⟩
  have hran := ((hload M').carries fun _ => by rw [hx]; rfl).then_jump hlabels hpasses done
  intro m hm hfits
  obtain ⟨m', hrun, hagrees, hkeeps, y, hy, hrax⟩ := hran m hm hfits
  cases hx.symm.trans hy
  exact ⟨m', hrun, hagrees, hkeeps, hrax⟩

/-! ## Stores -/

/-- The number to store is in the register, and the operand is at the address to store it. -/
def AtHand (S : Scene) (n : Nat) (address value : Option Int) (r : Reg × Operand) (m : Machine) :
    Prop :=
  ∃ p a v, r.2 = .mem p ∧ address = some a ∧ value = some v ∧
    (m.base = S.base → m.address S.world p = .ofInt 64 a) ∧ signed n (m.regs r.1) = v

/-- A number at hand is stored. -/
theorem achieves_store {first : Lowering (Reg × Operand)} {address value : Memory → Option Int}
    (hn : Width n)
    (hfirst : ∀ M, Does S M 0 first s (fun _ s' => Passes s s' c)
      (fun _ => (address M).isSome = true ∧ (value M).isSome = true)
      fun r _ => AtHand S n (address M) (value M) r) :
    Achieves S s ((first >>= fun r => emit (.mov n (.reg r.1 n) r.2)) s).state
      ((first >>= fun r => emit (.mov n (.reg r.1 n) r.2)) s).code done w c
      (S.env.stores n address value) := by
  have hlabels := (hfirst fun _ => 0).labels
  have hpasses := (hfirst fun _ => 0).gives
  refine ⟨hpasses, hlabels.append (labelsIn_instr _ _ _) hpasses.label (Nat.le_refl _), ?_⟩
  rintro M o M' ⟨a, v, ha, hv, howns, rfl, rfl⟩ m hm hfits
  obtain ⟨m₁, hrun, hagrees, hkeeps, p, a', v', hp, ha', hv', haddress, hvalue⟩ :=
    (hfirst M).carries (fun _ => by rw [ha, hv]; exact ⟨rfl, rfl⟩) m hm hfits
  cases ha.symm.trans ha'
  cases hv.symm.trans hv'
  have hsame : signed n (m₁.regs (first s).result.1) = signed n (BitVec.ofInt 64 v) := by
    rw [signed_ofInt hn.le, ← hvalue, wrap_signed]
  have hmemory : (m₁.write S.world n (m₁.regs (first s).result.1) (.mem p)).memory =
      m₁.memory.store (.ofInt 64 a) n (.ofInt 64 v) := by
    simp only [Machine.write, haddress hagrees.base]
    exact Memory.store_congr _ _ hsame
  have hencodable :
      (Instr.mov n (.reg (first s).result.1 n) (first s).result.2).encodable = true := by
    simp [hp, Instr.encodable, Instr.movable, Operand.fits, hn]
  refine ⟨m₁.write S.world n (m₁.regs (first s).result.1) (.mem p), ?_, ?_, ?_, trivial⟩
  · refine hrun.append hlabels hpasses.label (World.reaches_instr hencodable ?_ _)
    rw [hp]
    rfl
  · refine ⟨hagrees.base, fun b hb => ?_, hagrees.apart, hagrees.room⟩
    rw [hmemory]
    simp only [Memory.store, hagrees.memory b hb]
  · refine ⟨hkeeps.stack, fun b hb hz => ?_⟩
    have hnot : ¬Covers (BitVec.ofInt 64 a) n b := by
      intro hcovers
      rw [Env.owned_of_covers howns hcovers] at hb
      cases hb
    rw [hmemory, Memory.store_of_not_covers _ hnot]
    exact hkeeps.memory b hb hz

/-- Value and pointer are brought into two registers, the value first. -/
theorem does_storeOperands {pointer value : Lowering ValueId} {x y : Option Int} (hn : Width n)
    (hvalue : Evaluates S M value k n c y) (hpointer : Evaluates S M pointer (k + c) 8 d x)
    (hs : s.Sound) (hk : s.texts.length = k) :
    Does S M 0 (do
        let v ← value
        let p ← pointer
        let source ← inRegister v []
        let target ← inRegister p [source]
        pure (source, Operand.mem (.indirect target))) s
      (fun _ s' => Passes s s' (c + d)) (fun _ => x.isSome = true ∧ y.isSome = true)
      fun r _ => AtHand S n x y r := by
  have height : Width 8 := Or.inr (Or.inr rfl)
  refine (does_operands hn hvalue hpointer hs hk ?_ fun v p s₁ h => ?_).weaken
    (Nat.zero_le _) (fun _ _ h => h) (fun _ h => h) fun _ _ _ _ h => h
  · rintro - ⟨hx, hy⟩
    obtain ⟨u, hu⟩ := Option.isSome_iff_exists.mp hy
    obtain ⟨w, hw⟩ := Option.isSome_iff_exists.mp hx
    exact ⟨u, w, hu, hw⟩
  refine (does_inRegister h.reached.sound h.left hn h.fresh ⟨.rax, List.not_mem_nil⟩ ?_).bind
    fun source s₂ hsource => ?_
  · rintro m ⟨_, u, _, -, -, -, hu, -⟩
    exact ⟨u, hu⟩
  have hne : p ≠ v := by
    rintro rfl
    exact Nat.lt_irrefl _ h.lt
  have hp := hsource.shifts.ready hne h.right
  have hfresh : s.nextValue ≤ p.index := Nat.le_trans h.fresh (Nat.le_of_lt h.lt)
  have hexclude : ∃ q, q ∉ [source] := by
    cases source
    case rax => exact ⟨.rdi, by decide⟩
    all_goals exact ⟨.rax, by decide⟩
  refine (does_inRegister hsource.shifts.sound hp height hfresh hexclude ?_).bind
    fun target s₃ htarget => ?_
  · rintro m ⟨_, ⟨_, _, w, -, -, -, -, hw⟩, hstays, -⟩
    exact ⟨w, hstays.holds p 8 w trivial height.le hw⟩
  -- The pointer must not take the register of the value.
  have hheld : s₃.pool source = some v := by
    rw [htarget.others source List.mem_cons_self ?_, hsource.held]
    rw [hsource.held]
    exact fun heq => hne (Option.some.inj heq).symm
  refine Does.pure htarget.shifts.sound ?_ ?_
  · exact ((h.reached.shifts hsource.shifts (ne_of_fresh h.fresh)).shifts htarget.shifts
      (ne_of_fresh hfresh)).passes
  · rintro m₃ ⟨m₂, ⟨m₁, ⟨_, u, w, -, hy, hx, hu, hw⟩, hstays, -⟩, hstays', -⟩
    have hu₃ := hstays'.holds v n u trivial hn.le (hstays.holds v n u trivial hn.le hu)
    have hw₃ := hstays'.holds p 8 w trivial height.le (hstays.holds p 8 w trivial height.le hw)
    refine ⟨.indirect target, w, u, rfl, hx, hy, fun _ => ?_,
      hu₃.content (htarget.shifts.sound.location hheld)⟩
    rw [← hw₃.content (htarget.shifts.sound.location htarget.held), ofInt_signed]
    rfl

/-- A value is stored through a pointer. -/
theorem performs_store {pointer value : Lowering ValueId} {x y : Memory → Option Int}
    (hn : Width n) (hvalue : ∀ M, Evaluates S M value k n c (y M))
    (hpointer : ∀ M, Evaluates S M pointer (k + c) 8 d (x M)) :
    Performs S (store n pointer value) done w k (c + d) (S.env.stores n x y) := by
  intro s hs hk
  have hcode : store n pointer value = (do
      note "assign"
      let v ← value
      let p ← pointer
      let source ← inRegister v []
      let target ← inRegister p [source]
      pure (source, Operand.mem (.indirect target))) >>= fun r =>
        emit (.mov n (.reg r.1 n) r.2) := by
    simp only [store, bind_assoc, pure_bind]
  rw [hcode]
  exact achieves_store hn fun M =>
    Does.note_bind _ (does_storeOperands hn (hvalue M) (hpointer M) hs hk)

/-- The value is brought into a register; the place that it goes to needs none. -/
theorem does_storeNamedOperands {place : Mem} {address : Word} {value : Lowering ValueId}
    {y : Option Int} (hn : Width n) (hplace : S.world.fixed? S.base place = some address)
    (hvalue : Evaluates S M value k n c y) (hs : s.Sound) (hk : s.texts.length = k) :
    Does S M 0 (do
        let p ← newValue (.mem place) n
        let v ← value
        let source ← inRegister v []
        let target ← operand p
        pure (source, target)) s
      (fun _ s' => Passes s s' c)
      (fun _ => (some (signed 8 address)).isSome = true ∧ y.isSome = true)
      fun r _ => AtHand S n (some (signed 8 address)) y r := by
  have hfree : ∀ q, Location.mem place = .reg q → s.pool q = none ∧ Width n :=
    fun _ h => nomatch h
  have hadded := (Reached.refl hs).addValue hfree
  have hnew : Does S M 0 (newValue (.mem place) n) s
      (fun p s₁ => p = ⟨s.nextValue⟩ ∧ s₁ = s.addValue ⟨.mem place, n⟩)
      (fun _ => (some (signed 8 address)).isSome = true ∧ y.isSome = true)
      fun _ _ _ => y.isSome = true :=
    Does.newValue hs (Nat.zero_le _) hfree ⟨rfl, rfl⟩ fun _ _ h => h.2
  refine hnew.bind fun p s₁ h₁ => ?_
  obtain ⟨rfl, rfl⟩ := h₁
  refine (hvalue.does hadded.sound (hadded.count.trans hk) (Nat.zero_le _) _
    fun _ h => h).bind fun v s₂ hv => ?_
  refine (does_inRegister hv.sound hv.ready hn (Nat.zero_le _) ⟨.rax, List.not_mem_nil⟩ ?_).bind
    fun source s₃ hsource => ?_
  · rintro m ⟨_, u, -, -, -, hu⟩
    exact ⟨u, hu⟩
  -- The place is not in a register, so it is where it was when its value is there.
  have hlocation := values_addValue s ⟨.mem place, n⟩
  have hunheld : (s.addValue ⟨.mem place, n⟩).Unheld ⟨s.nextValue⟩ := by
    intro r hr
    have hreg := hadded.sound.location hr
    rw [hlocation] at hreg
    cases hreg
  have hunmoved := hv.unmoved (v := ⟨s.nextValue⟩) hadded.ready.known hunheld
  have hne : (⟨s.nextValue⟩ : ValueId) ≠ v := ne_of_fresh hv.fresh _ hadded.ready.known
  have hunmoved' := hsource.shifts.unmoved hne (hunmoved.unheld hunheld)
  refine Does.inspect_bind (Does.pure hsource.shifts.sound ?_ ?_)
  · have hpasses := hadded.toReached.passes.trans
      (hv.toReached.shifts hsource.shifts (ne_of_fresh hv.fresh)).passes
    rwa [Nat.zero_add] at hpasses
  · rintro m ⟨m₂, ⟨_, u, -, -, hy, hu⟩, hstays, -⟩
    refine ⟨place, _, u, ?_, rfl, hy, fun hbase => ?_,
      (hstays.holds v n u trivial hn.le hu).content (hsource.shifts.sound.location hsource.held)⟩
    · rw [hunmoved'.1, hunmoved.1, hlocation]
      rfl
    · rw [ofInt_signed]
      exact World.address_of_fixed (by rw [hbase]; exact hplace)

/-- A value is stored into a named place. -/
theorem performs_storeNamed {place : Mem} {address : Word} {value : Lowering ValueId}
    {y : Memory → Option Int} (hn : Width n) (hplace : S.world.fixed? S.base place = some address)
    (hvalue : ∀ M, Evaluates S M value k n c (y M)) :
    Performs S (storeNamed n (newValue (.mem place) n) value) done w k c
      (S.env.stores n (fun _ => some (signed 8 address)) y) := by
  intro s hs hk
  have hcode : storeNamed n (newValue (.mem place) n) value = (do
      note "assign"
      let p ← newValue (.mem place) n
      let v ← value
      let source ← inRegister v []
      let target ← operand p
      pure (source, target)) >>= fun r => emit (.mov n (.reg r.1 n) r.2) := by
    simp only [storeNamed, bind_assoc, pure_bind]
  rw [hcode]
  exact achieves_store hn fun M =>
    Does.note_bind _ (does_storeNamedOperands hn hplace (hvalue M) hs hk)

/-! ## Branches and loops -/

/-- The condition of a statement decides where the code goes on. -/
theorem decides_expr {t : SymbolTable} (hplaces : S.Places t) {e : Expr}
    (he : e.Every (Expr.Regular t)) (hscalar : e.ty.isScalar = true) (l : Label) (hs : s.Sound) :
    Decides S s (e.branch t l false s).state (e.branch t l false s).code l e.textCount
      fun M => e.eval S.env M s.texts.length := by
  have hbranches := fun M => branches_expr (M := M) hplaces he hscalar l false hs
  refine ⟨(hbranches fun _ => 0).reached.passes, (hbranches fun _ => 0).labels, ?_⟩
  intro M x hx m hm hfits
  obtain ⟨m', hrun, hstays⟩ := (hbranches M).runs m x hx hm hfits
  refine ⟨m', ?_, hm.after (hbranches M).reached.toEvolves hstays hfits.lowest,
    hstays.keeps hfits.lowest, trivial⟩
  by_cases hzero : x = 0
  · rw [if_neg (not_not_intro hzero)]
    rw [hzero] at hrun
    exact hrun
  · have hexit : branchExit l false x = .next := by
      simp [branchExit, hzero]
    rw [if_pos hzero]
    rwa [hexit] at hrun

/-- A note in front of code with an effect. -/
theorem Achieves.note {s' : State} {code : List Line} {f : Effect}
    (h : Achieves S s s' code done n c f) (hs : s.Sound) (text : String) :
    Achieves S s s' (s.noted text ++ code) done n c f := by
  have hpasses : Passes s s 0 := ⟨.refl hs _, rfl⟩
  refine ⟨h.passes, (s.labelsIn_noted text _ _).append h.labels (Nat.le_refl _) h.passes.label, ?_⟩
  intro M o M' hf
  exact (carries_noted s text M).append (s.labelsIn_noted text 0 _) hpasses (h.runs M o M' hf)
    h.passes

section
variable {t : SymbolTable} {e : Expr} {body other : Lowering Unit} {f g : Effect} {d' : Nat}

theorem newLabel_eq (s : State) : newLabel s = ⟨⟨s.nextLabel⟩, [], s.labelled⟩ := rfl

theorem nextLabel_labelled (s : State) : s.labelled.nextLabel = s.nextLabel + 1 := rfl

theorem release_eq (s : State) : release s = ⟨(), [], s.released⟩ := rfl

theorem performs_ifThen (hplaces : S.Places t) (he : e.Every (Expr.Regular t))
    (hscalar : e.ty.isScalar = true) (hbody : Performs S body done n (k + e.textCount) d f) :
    Performs S (ifThen (fun skip => e.branch t skip false) body) done n k (e.textCount + d)
      (.choice (fun M => e.eval S.env M k) f .nothing) := by
  rintro s hs rfl
  have htest := decides_expr (s := s.labelled) hplaces he hscalar ⟨s.nextLabel⟩
    (passes_labelled hs).sound
  have hran := hbody _ htest.passes.sound htest.passes.count
  let test := e.branch t ⟨s.nextLabel⟩ false s.labelled
  have hrun : ifThen (fun skip => e.branch t skip false) body s =
      ⟨(), s.noted "if" ++ (test.code ++ (body test.state).code ++ [.label ⟨s.nextLabel⟩]),
        (body test.state).state⟩ := by
    simp [test, ifThen, bind_apply, note_apply, newLabel_eq, mark_apply]
  rw [hrun]
  exact (htest.ifThen hs hran).note hs "if"

theorem performs_ifElse (hplaces : S.Places t) (he : e.Every (Expr.Regular t))
    (hscalar : e.ty.isScalar = true) (hbody : Performs S body done n (k + e.textCount) d f)
    (hother : Performs S other done n (k + e.textCount + d) d' g) :
    Performs S (ifElse (fun skip => e.branch t skip false) body other) done n k
      (e.textCount + d + d') (.choice (fun M => e.eval S.env M k) f g) := by
  rintro s hs rfl
  have htest := decides_expr (s := s.labelled) hplaces he hscalar ⟨s.nextLabel⟩
    (passes_labelled hs).sound
  have hran := hbody _ htest.passes.sound htest.passes.count
  have hran' := hother (body (e.branch t ⟨s.nextLabel⟩ false s.labelled).state).state.labelled
    (passes_labelled hran.passes.sound).sound
    ((htest.passes.trans hran.passes).count.trans (Nat.add_assoc _ _ _).symm)
  let test := e.branch t ⟨s.nextLabel⟩ false s.labelled
  have hrun : ifElse (fun skip => e.branch t skip false) body other s =
      ⟨(), s.noted "if" ++ (test.code ++ (body test.state).code ++
        [.instr (.jmp ⟨(body test.state).state.nextLabel⟩)] ++ [.label ⟨s.nextLabel⟩] ++
        (other (body test.state).state.labelled).code ++
        [.label ⟨(body test.state).state.nextLabel⟩]),
        (other (body test.state).state.labelled).state⟩ := by
    simp [test, ifElse, bind_apply, note_apply, newLabel_eq, mark_apply, emit_apply]
  rw [hrun]
  exact (htest.ifElse hs hran hran').note hs "if"

theorem performs_loop (hplaces : S.Places t) (he : e.Every (Expr.Regular t))
    (hscalar : e.ty.isScalar = true) (hbody : Performs S body done n (k + e.textCount) d f) :
    Performs S (loop (fun exit => e.branch t exit false) body) done n k (e.textCount + d)
      (.repeated (fun M => e.eval S.env M k) f) := by
  rintro s hs rfl
  have htest := decides_expr (s := s.labelled.labelled.released) hplaces he hscalar
    ⟨s.nextLabel + 1⟩ (passes_released _).sound
  have hran := hbody _ htest.passes.sound htest.passes.count
  let test := e.branch t ⟨s.nextLabel + 1⟩ false s.labelled.labelled.released
  have hrun : loop (fun exit => e.branch t exit false) body s =
      ⟨(), s.noted "while" ++ (roundLines ⟨s.nextLabel⟩ test.code (body test.state).code ++
        [.label ⟨s.nextLabel + 1⟩]), (body test.state).state.released⟩ := by
    simp [test, loop, roundLines, bind_apply, note_apply, newLabel_eq, nextLabel_labelled,
      release_eq, mark_apply, emit_apply]
  rw [hrun]
  exact ((htest.loop hs hran).note hs "while").released

end

/-! ## Accepted statements -/

variable {t : SymbolTable} {e : Expr}

/-- A regular expression runs through, and is evaluated if it is a single value. -/
theorem does_expr (hplaces : S.Places t) (he : e.Every (Expr.Regular t)) (hs : s.Sound) :
    Does S M 0 (e.lower t) s (fun _ s' => Passes s s' e.textCount)
      (fun _ => e.ty.isScalar = true → (e.eval S.env M s.texts.length).isSome = true)
      fun _ _ _ => True := by
  rcases he.root.1.1.isScalar with ⟨x, i, rfl⟩ | ⟨string, i, rfl⟩ | hscalar
  · exact (locates_place (hplaces x) i.ty.size s hs rfl).weaken (Nat.zero_le _)
      (fun _ _ h => h.1.passes) (fun _ _ => trivial) fun _ _ _ _ _ => trivial
  · exact (locates_text string i.ty.size s hs rfl).weaken (Nat.zero_le _)
      (fun _ _ h => h.1.passes) (fun _ _ => trivial) fun _ _ _ _ _ => trivial
  · exact (evaluates_expr M hplaces e _ he hscalar s hs rfl).weaken (Nat.zero_le _)
      (fun _ _ h => h.toReached.passes) (fun _ h => h hscalar) fun _ _ _ _ _ => trivial

/-- Statements in sequence. -/
theorem performs_all : ∀ (ss : List Stmt) (k : Nat),
    (∀ s ∈ ss, ∀ k, Performs S (s.lower t done) done n k s.textCount (s.exec S.env k)) →
      Performs S (Stmt.lowerAll t done ss) done n k (Stmt.textCountAll ss)
        (Stmt.execAll S.env k ss)
  | [], k, _ => performs_nothing S done n k
  | s :: ss, k, h =>
      (h s List.mem_cons_self k).seq
        (performs_all ss _ fun s' hs' => h s' (List.mem_cons_of_mem _ hs'))

/-- Accepted assignments store into names and through pointers. -/
theorem target_of_lvalue {target : Expr} (h : target.WellFormed t)
    (hlvalue : target.lvalue = true) :
    (∃ x i, target = .ident x i) ∨ ∃ p i, target = .unary .deref p i := by
  rw [h.2] at hlvalue
  cases target with
  | ident x i => exact Or.inl ⟨x, i, rfl⟩
  | unary op p i =>
      cases op with
      | deref => exact Or.inr ⟨p, i, rfl⟩
      | _ => cases hlvalue
  | _ => cases hlvalue

theorem performs_assign (hplaces : S.Places t) {target value : Expr}
    (htarget : target.Every (Expr.Regular t)) (hlvalue : target.lvalue = true)
    (hvalue : value.Every (Expr.Regular t)) (hscalar : value.ty.isScalar = true)
    (hsize : value.ty.size = target.ty.size) :
    Performs S ((Stmt.assign target value).lower t done) done w k
      (target.textCount + value.textCount) (target.assigned S.env k value) := by
  have hn : Width target.ty.size := hsize ▸ Ty.width_size hscalar
  have heval := fun M => evaluates_expr M hplaces value k hvalue hscalar
  rw [hsize] at heval
  rcases target_of_lvalue htarget.root.1 hlvalue with ⟨x, i, rfl⟩ | ⟨p, i, rfl⟩
  · rw [show (Expr.ident x i).textCount + value.textCount = value.textCount from Nat.zero_add _]
    exact (performs_storeNamed hn (hplaces x) heval).release
  · obtain ⟨⟨⟨⟨hpointer, -⟩, -⟩, -⟩, hp⟩ := Expr.every_unary.mp htarget
    have haddress := fun M => evaluates_expr M hplaces p (k + value.textCount) hp
      (Ty.isScalar_of_isDataPointer hpointer)
    rw [Ty.size_of_isDataPointer hpointer] at haddress
    rw [Nat.add_comm]
    exact (performs_store hn heval haddress).release

/-- An accepted statement without calls has the effect that it denotes. -/
theorem performs_accepted {result : Ty} (hplaces : S.Places t) (hresult : result.isScalar = true)
    {st : Stmt} (h : st.Accepted t result) (hplain : ∀ e ∈ st.exprs, e.Every Expr.Plain) :
    ∀ k, Performs S (st.lower t done) done result.size k st.textCount (st.exec S.env k) := by
  have hregular : ∀ {e : Expr}, e.Built t → e.hasError = false → e.Every Expr.Plain →
      e.Every (Expr.Regular t) := fun he herror hp => (he.every_wellFormed herror).and hp
  induction h with
  | expr he herror =>
      intro k
      have hregular' := hregular he herror (hplain _ List.mem_cons_self)
      refine (performs_discard fun M s hs hk => ?_).release
      subst hk
      exact does_expr hplaces hregular' hs
  | @assign target value htarget hvalue herror hfault =>
      intro k
      obtain ⟨hlvalue, hscalar, hsize⟩ := Typing.of_fault_assign htarget herror hfault
      refine performs_assign hplaces (hregular htarget herror.1 (hplain _ List.mem_cons_self))
        hlvalue (hregular (.converted target.ty hvalue) ?_ (hplain _ ?_)) hscalar hsize
      · rw [Expr.hasError_convert, herror.2]
      · exact List.mem_cons_of_mem _ List.mem_cons_self
  | @ret e he herror hfault =>
      intro k
      obtain ⟨hscalar, hsize⟩ := Typing.of_fault_ret hresult herror hfault
      have hvalue := hregular (.converted result he) (by rw [Expr.hasError_convert, herror])
        (hplain _ List.mem_cons_self)
      have heval := fun M => evaluates_expr M hplaces _ k hvalue hscalar
      rw [hsize] at heval
      exact (performs_return (Ty.width_size hresult) heval).release
  | @loop c body hc herror hfault _ ih =>
      intro k
      have hcondition := hregular (.test hc) ((Expr.hasError_promote c).trans herror)
        (hplain _ List.mem_cons_self)
      exact (performs_loop hplaces hcondition (Typing.of_fault_test herror hfault)
        (ih (fun e he => hplain e (List.mem_cons_of_mem _ he)) _)).release
  | @ifThen c body hc herror hfault _ ih =>
      intro k
      have hcondition := hregular (.test hc) ((Expr.hasError_promote c).trans herror)
        (hplain _ List.mem_cons_self)
      exact (performs_ifThen hplaces hcondition (Typing.of_fault_test herror hfault)
        (ih (fun e he => hplain e (List.mem_cons_of_mem _ he)) _)).release
  | @ifElse c body other hc herror hfault _ _ ih ih' =>
      intro k
      have hcondition := hregular (.test hc) ((Expr.hasError_promote c).trans herror)
        (hplain _ List.mem_cons_self)
      have hleft := fun e he => hplain e (List.mem_cons_of_mem _ (List.mem_append_left _ he))
      have hright := fun e he => hplain e (List.mem_cons_of_mem _ (List.mem_append_right _ he))
      exact (performs_ifElse hplaces hcondition (Typing.of_fault_test herror hfault)
        (ih hleft _) (ih' hright _)).release
  | @block scope body _ ih =>
      intro k
      refine (performs_all body k fun s hs => ih s hs fun e he => hplain e ?_).release
      exact Stmt.mem_exprsAll.mpr ⟨s, hs, he⟩

end

end LittleC.Lowering
