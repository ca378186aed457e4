import LittleC.Proofs.Lowering.Progress

/-! # A comparison in a branch and the branch on its value

A branch takes a comparison into its jump. It could as well write the value of the comparison,
compare that with zero and jump on the outcome. Both ways start with the same code; behind it the
value costs a register that holds nothing, and neither way writes memory. -/

namespace LittleC

/-- Branches on the value of an expression, whatever the expression is. -/
def Expr.branchOnValue (t : SymbolTable) (e : Expr) (label : Label) (onTrue : Bool) :
    Lowering Unit := do
  let v ← e.lower t
  Lowering.compareZero v
  Lowering.emit (.jcc (if onTrue then .ne else .eq) label)

namespace Lowering

open State

/-- Writes what the flags tell into a free register and compares it with zero. -/
def testFlags (q : Comparison) (r : Reg) (right : ValueId) (size : Nat) : Lowering Unit := do
  materialize q r
  unbind right
  let v ← newValue (.reg r) size
  compareZero v

section
variable {S : Scene} {M : Memory} {s s' : State} {c n w : Nat} {a a' : Lowering ValueId}
  {q : Comparison} {r : Reg} {v : ValueId} {f : Flags}

theorem proceeds_comparison (hw : Width w) (ha : Progresses S M w a) (ha' : Progresses S M w a')
    (hs : s.Sound) :
    Proceeds S M s.nextValue (comparison a a') s
      (fun sides s' => ∃ c, Reached s s' c ∧ s'.pool sides.1 = none ∧ s.nextValue ≤ sides.2.index)
      (fun _ => True) fun _ _ m => ∃ f, m.flags = some f ∧ ∃ u v, Tells f u v := by
  refine proceeds_operands hw ha ha' hs fun l r s₂ c h => ?_
  refine (Does.exists_pre fun uv : Int × Int => does_comparing hw h uv.1 uv.2).proceeds.weaken
    (Nat.le_refl _) (fun _ _ h => ⟨c, h⟩) ?_ ?_
  · rintro m ⟨⟨u, hu⟩, v, hv⟩
    exact ⟨(u, v), hu, hv⟩
  · rintro _ _ m - ⟨uv, f, hf, htells⟩
    exact ⟨f, hf, uv.1, uv.2, htells⟩

theorem does_testFlags (h : Reached s s' c) (hr : s'.pool r = none) (hv : s.nextValue ≤ v.index)
    (hn : Width n) (f : Flags) :
    Does S M s.nextValue (testFlags q r v n) s' (fun _ s'' => Reached s s'' c)
      (fun m => m.flags = some f)
      fun _ _ m => ∃ g, m.flags = some g ∧ Tells g (truth (q.holds f)) 0 := by
  refine ((does_materialize h.sound (fun u _ hu => nomatch hr.symm.trans hu) q (· = f)).weaken
    (Nat.le_refl _) (fun _ _ h => h) (fun m hm => ⟨f, hm, rfl⟩) fun _ _ _ _ h => h).bind
    fun _ s₃ h₃ => ?_
  subst h₃
  have hfree : (s₃.unbind v).pool r = none := by
    rw [pool_unbind _ _ h.sound, hr, if_neg fun heq => nomatch heq]
  refine Does.unbind_bind h.sound hv ((does_result (z := some (truth (q.holds f))) (h.unbind hv)
    hfree hn ?_).bind fun u s₄ hu => ?_)
  · rintro m ⟨_, rfl, hm⟩
    exact ⟨_, rfl, by rw [hm, signed_truth hn]⟩
  · refine (does_compareZero hu hn (truth (q.holds f))).weaken (Nat.le_refl _) (fun _ _ h => h) ?_
      fun _ _ _ _ h => h
    rintro m ⟨y, hy, hheld⟩
    rw [Option.some.inj hy]
    exact hheld

/-- A value that is written, compared and given up again leaves the frame and the literals alone. -/
theorem state_testFlags (q : Comparison) (r : Reg) (v : ValueId) (n : Nat) (s : State) :
    (testFlags q r v n s).state =
      ((s.unbind v).addValue ⟨.reg r, n⟩).unbind ⟨(s.unbind v).nextValue⟩ := by
  have hvalues := values_addValue (s.unbind v) ⟨.reg r, n⟩
  have hregister : inRegister ⟨(s.unbind v).nextValue⟩ [] ((s.unbind v).addValue ⟨.reg r, n⟩) =
      ⟨r, [], (s.unbind v).addValue ⟨.reg r, n⟩⟩ := by
    simp only [inRegister, valueOf, bind_apply, inspect_apply, hvalues, Value.reg?]
    rfl
  simp only [testFlags, materialize, compareZero, bind_apply, emit_apply, unbind, update_apply,
    newValue_apply, sizeOf, inspect_apply, hregister]

theorem lowest_testFlags (q : Comparison) (r : Reg) (v : ValueId) (n : Nat) (s : State) :
    (testFlags q r v n s).state.lowest = s.lowest := by
  rw [state_testFlags, unbind_eq, unbind_eq s v]
  rfl

theorem texts_testFlags (q : Comparison) (r : Reg) (v : ValueId) (n : Nat) (s : State) :
    (testFlags q r v n s).state.texts = s.texts := by
  rw [state_testFlags, unbind_eq, unbind_eq s v]
  rfl

/-- The jump on the value is taken when the flags tell so, and no memory is written on the way. -/
theorem runs_testFlags (h : Reached s s' c) (hr : s'.pool r = none) (hv : s.nextValue ≤ v.index)
    (hn : Width n) (hfits : S.Fits s') {m : Machine} (hm : S.Agrees M s' m) (hf : m.flags = some f)
    (l : Label) (onTrue : Bool) :
    ∃ m', S.world.Reaches s'.nextLabel
        ((testFlags q r v n s').code ++ [.instr (.jcc (if onTrue then .ne else .eq) l)]) m
        (if q.holds f == onTrue then .jump l else .next) m' ∧
      m'.memory = m.memory ∧ S.Stays (Before s.nextValue) s' m (testFlags q r v n s').state m' := by
  have hlowest := lowest_testFlags q r v n s'
  have hfits' : S.Fits (testFlags q r v n s').state :=
    ⟨hlowest ▸ hfits.lowest, texts_testFlags q r v n s' ▸ hfits.texts⟩
  have hdoes := does_testFlags (S := S) (M := M) (q := q) h hr hv hn f
  obtain ⟨m', hrun, hstays, g, hg, htells⟩ := hdoes.runs m hm hfits' hf
  refine ⟨m', hrun.append hdoes.labels hdoes.evolves.label ?_, funext fun b => ?_, hstays⟩
  · have hjump := World.reaches_jcc (w := S.world) hg (if onTrue then .ne else Comparison.ne.negate)
      (testFlags q r v n s').state.nextLabel l
    rw [htells, eval_polarity, eval_ne_zero, truth_ne_zero] at hjump
    exact hjump
  · refine hstays.memory b ?_
    rw [hlowest]
    rintro ⟨o, hlo, hhi, -⟩
    exact Int.not_lt.mpr hlo hhi

/-- A comparison decides a jump as its value does. Both ways run the same code up to the flags. -/
theorem comparison_agrees (hw : Width w) (hn : Width n) (ha : Progresses S M w a)
    (ha' : Progresses S M w a') (hs : s.Sound) {m : Machine} (hm : S.Agrees M s m)
    (hfits : S.Fits ((comparison a a' s).state.unbind (comparison a a' s).result.2))
    (htraps : S.world.Untrapped s.nextLabel (comparison a a' s).code m)
    (l : Label) (onTrue : Bool) :
    let fused := (comparison a a' >>= fun sides => do
      unbind sides.2
      emit (.jcc (if onTrue then q else q.negate) l)) s
    let onValue := (comparison a a' >>= fun sides => do
      testFlags q sides.1 sides.2 n
      emit (.jcc (if onTrue then .ne else .eq) l)) s
    ∃ (taken : Bool) (m₁ m₂ : Machine),
      S.world.Reaches s.nextLabel fused.code m (if taken then .jump l else .next) m₁ ∧
      S.world.Reaches s.nextLabel onValue.code m (if taken then .jump l else .next) m₂ ∧
      m₂.memory = m₁.memory ∧ S.Stays (Before s.nextValue) s m fused.state m₁ ∧
      S.Stays (Before s.nextValue) s m onValue.state m₂ := by
  intro fused onValue
  have hcompares := proceeds_comparison hw ha ha' hs
  have hlow := hcompares.evolves.lowest
  have hlabel := hcompares.evolves.label
  obtain ⟨c, hreached, hfree, hfresh⟩ := hcompares.gives
  have hmid := hfits.before (evolves_unbind hreached.sound _)
  obtain ⟨m₁, hrun, hstays, f, hf, u, v, htells⟩ := hcompares.runs m hm hmid ⟨trivial, htraps⟩
  obtain ⟨m₂, hrun', hmemory, hstays'⟩ := runs_testFlags (q := q) hreached hfree hfresh hn hmid
    (hm.after hcompares.evolves hstays hmid.lowest) hf l onTrue
  refine ⟨q.holds f == onTrue, m₁, m₂, ?_, hrun.append hcompares.labels hlabel hrun', hmemory, ?_,
    hstays.trans hstays' hlow (Int.le_of_eq (lowest_testFlags _ _ _ _ _))⟩
  · have hjump := World.reaches_jcc (w := S.world) hf (if onTrue then q else q.negate)
      (comparison a a' s).state.nextLabel l
    rw [htells, eval_polarity, ← htells] at hjump
    exact hrun.append hcompares.labels hlabel hjump
  · have hlowest : fused.state.lowest = (comparison a a' s).state.lowest := by
      show (State.unbind _ _).lowest = _
      rw [unbind_eq]
    exact hstays.trans (Scene.stays_of_state hlowest
      (fun u hu => unmoved_unbind hreached.sound (ne_of_fresh hfresh u hu)) m₁) hlow
      (Int.le_of_eq hlowest)

end

theorem branchOnValue_compare (t : SymbolTable) (q : Comparison) (left right : Expr) (i : Expr.Info)
    (l : Label) (onTrue : Bool) :
    (Expr.binary (.compare q) left right i).branchOnValue t l onTrue = (do
      note q.symbol
      let sides ← comparison (left.lower t) (right.lower t)
      testFlags q sides.1 sides.2 i.ty.size
      emit (.jcc (if onTrue then .ne else .eq) l)) := by
  simp only [Expr.branchOnValue, Expr.lower, BinaryOp.lower, compare, testFlags, bind_assoc]

/-- A branch on a comparison is left as the branch on its value is. From any sound state, with
whatever registers taken, and any machine that agrees with it and comes to no division that traps,
both jump or neither does; behind both the memory is the same, and all older values are held
still. -/
theorem fused_branch_agrees {S : Scene} {t : SymbolTable} {e : Expr} {q : Comparison}
    {left right : Expr} {i : Expr.Info} (hcompare : e = .binary (.compare q) left right i)
    (hbuilt : e.Built t) (herror : e.hasError = false) (hstraight : e.Every Expr.Straight)
    (hreadable : e.Every (Expr.Readable S.env)) (hplaces : S.Places t) {M : Memory} {s : State}
    (hs : s.Sound) {m : Machine} (hm : S.Agrees M s m) (l : Label) (onTrue : Bool)
    (hfits : S.Fits (e.branch t l onTrue s).state)
    (htraps : S.world.Untrapped s.nextLabel (e.branch t l onTrue s).code m) :
    let fused := e.branch t l onTrue s
    let onValue := e.branchOnValue t l onTrue s
    ∃ (taken : Bool) (m₁ m₂ : Machine),
      S.world.Reaches s.nextLabel fused.code m (if taken then .jump l else .next) m₁ ∧
      S.world.Reaches s.nextLabel onValue.code m (if taken then .jump l else .next) m₂ ∧
      m₂.memory = m₁.memory ∧ S.Stays (Before s.nextValue) s m fused.state m₁ ∧
      S.Stays (Before s.nextValue) s m onValue.state m₂ := by
  have he : e.Every (Expr.Smooth t S.env) :=
    (hbuilt.every_wellFormed herror).and (hstraight.and hreadable)
  subst hcompare
  obtain ⟨⟨⟨⟨hint, hl, hr, -, hsize⟩, -⟩, -⟩, hleft, hright⟩ := Expr.every_binary.mp he
  have hn : Width i.ty.size := Or.inr (Or.inl (congrArg Ty.size hint))
  have hagrees := comparison_agrees (q := q) (Ty.width_size hl) hn
    (progresses_expr M hplaces left hleft hl) (hsize ▸ progresses_expr M hplaces right hright hr) hs
    hm hfits htraps.left l onTrue
  obtain ⟨taken, m₁, m₂, hrun, hrun', hagrees⟩ := hagrees
  rw [branchOnValue_compare, note_bind_apply]
  exact ⟨taken, m₁, m₂, hrun, (s.reaches_noted _ _ _ m).append (s.labelsIn_noted _ 0 _)
    (Nat.le_refl _) hrun', hagrees⟩

/-- A jump when `x / 2 < 3` is false, over a global number that is zero. -/
theorem fused_branch_agrees_quotient :
    let t : SymbolTable := ⟨[.fresh "x" .int], [], []⟩
    let quotient := (Typing.binary .div (Expr.ofSymbol t ⟨0⟩) (Expr.ofInteger ⟨2, false⟩)).node
    let e := (Typing.binary (.compare .lt) quotient (Expr.ofInteger ⟨3, false⟩)).node
    let S : Scene := ⟨⟨fun _ => 4096, fun _ => 0, fun _ _ => none⟩,
      ⟨fun _ => 4096, fun _ => 0, fun b => Covers 4096 4 b⟩, 65536, 0⟩
    let m : Machine := ⟨fun _ => 0, 65536, 65536, fun _ => 0, none⟩
    e.Every Expr.Straight ∧ e.Every (Expr.Readable S.env) ∧ S.Places t ∧
      S.Agrees (fun _ => 0) (.start true) m ∧
      S.world.Untrapped 0 (e.branch t ⟨0⟩ false (.start true)).code m ∧
      ∃ (taken : Bool) (m₁ m₂ : Machine),
        S.world.Reaches 0 (e.branch t ⟨0⟩ false (.start true)).code m
          (if taken then .jump ⟨0⟩ else .next) m₁ ∧
        S.world.Reaches 0 (e.branchOnValue t ⟨0⟩ false (.start true)).code m
          (if taken then .jump ⟨0⟩ else .next) m₂ ∧ m₂.memory = m₁.memory := by
  intro t quotient e S m
  have hleft : quotient.Built t := .binary .div (.ident ⟨0⟩) (.number ⟨2, false⟩)
  have hbuilt : e.Built t := .binary (.compare .lt) hleft (.number ⟨3, false⟩)
  have hquotient : quotient = .binary .div (.ident ⟨0⟩ ⟨.int, true⟩) (.number 2 ⟨.int, false⟩)
      ⟨.int, false⟩ := rfl
  have hnode : e = .binary (.compare .lt) (.binary .div (.ident ⟨0⟩ ⟨.int, true⟩)
      (.number 2 ⟨.int, false⟩) ⟨.int, false⟩) (.number 3 ⟨.int, false⟩) ⟨.int, false⟩ := by
    show (Typing.binary (.compare .lt) quotient _).node = _
    rw [hquotient]
    rfl
  have hstraight : e.Every Expr.Straight := by
    rw [hnode]
    exact Expr.every_binary.mpr ⟨trivial, Expr.every_binary.mpr ⟨trivial,
      Expr.every_ident.mpr trivial, Expr.every_number.mpr rfl⟩, Expr.every_number.mpr rfl⟩
  have hreadable : e.Every (Expr.Readable S.env) := by
    rw [hnode]
    exact Expr.every_binary.mpr ⟨trivial, Expr.every_binary.mpr ⟨trivial,
      Expr.every_ident.mpr fun _ => by decide, Expr.every_number.mpr trivial⟩,
      Expr.every_number.mpr trivial⟩
  have hplaces : S.Places t := by
    rintro ⟨_ | x⟩
    · rfl
    · rfl
  have hm : S.Agrees (fun _ => 0) (.start true) m := by
    refine ⟨rfl, fun _ _ => rfl, ?_, by decide⟩
    rintro b - ⟨o, hlo, hhi, -⟩
    exact absurd hhi (Int.not_lt.mpr hlo)
  have hfits : S.Fits (e.branch t ⟨0⟩ false (.start true)).state := by
    have htexts : (e.branch t ⟨0⟩ false (.start true)).state.texts = [] := by decide
    refine ⟨by decide, fun k l string h => ?_⟩
    rw [htexts] at h
  have htraps : S.world.Untrapped 0 (e.branch t ⟨0⟩ false (.start true)).code m := by
    have hcode : (e.branch t ⟨0⟩ false (.start true)).code = [.note "divide",
        .instr (.mov 4 (.mem (.global "x")) (.reg .rax 4)),
        .instr (.mov 4 (.imm 2) (.reg .rcx 4)), .instr (.signExtend false),
        .instr (.idiv 4 .rcx), .instr (.cmp 4 (.imm 3) .rax), .instr (.jcc .ge ⟨0⟩)] := by
      decide
    rw [hcode]
    -- The machine that comes to the division is the one behind the four lines before it.
    have hload := World.reaches_instr (w := S.world) (m := m)
      (i := .mov 4 (.mem (.global "x")) (.reg .rax 4)) rfl rfl 0
    have hdivisor := hload.append (labelsIn_instr 0 0 _) (Nat.le_refl 0)
      (World.reaches_instr (i := .mov 4 (.imm 2) (.reg .rcx 4)) rfl rfl 0)
    have hextend := hdivisor.append ((labelsIn_instr 0 0 _).union (labelsIn_instr 0 0 _))
      (Nat.le_refl 0) (World.reaches_instr (i := .signExtend false) rfl rfl 0)
    have hlines := (World.reaches_note S.world 0 "divide" m).append (labelsIn_note 0 0 _)
      (Nat.le_refl 0) hextend
    rintro before size r after m' hsplit hrun
    rcases before with _ | ⟨_, _ | ⟨_, _ | ⟨_, _ | ⟨_, _ | ⟨_, _ | ⟨_, _ | ⟨_, before⟩⟩⟩⟩⟩⟩⟩ <;>
      simp at hsplit
    obtain ⟨rfl, rfl, rfl, rfl, ⟨rfl, rfl⟩, -⟩ := hsplit
    rw [hrun.unique hlines]
    decide
  have herror : e.hasError = false := by decide
  have hagrees := fused_branch_agrees (S := S) (t := t) (e := e) (s := .start true) (m := m) hnode
    hbuilt herror hstraight hreadable hplaces (sound_of_empty fun _ => rfl) hm ⟨0⟩ false hfits
    htraps
  obtain ⟨taken, m₁, m₂, hrun, hrun', hmemory, -⟩ := hagrees
  exact ⟨hstraight, hreadable, hplaces, hm, htraps, taken, m₁, m₂, hrun, hrun', hmemory⟩

end Lowering

end LittleC
