import LittleC.Proofs.Lowering.Branch

/-! # Code that does not trap runs through

An expression without calls is computed to its end from any machine that agrees with the state,
whatever its numbers are and wherever its pointers lead, as long as no division that is executed
traps. Of a value only that it is held is carried along, not which one it is. -/

namespace LittleC

namespace World

/-- No division that a run of the piece comes to traps. -/
def Untrapped (w : World) (bound : Nat) (piece : List Line) (m : Machine) : Prop :=
  ∀ before n r after m', piece = before ++ .instr (.idiv n r) :: after →
    w.Reaches bound before m .next m' → (m'.divide n r).isSome = true

section
variable {w : World} {j k n : Nat} {piece rest : List Line} {m m' : Machine}

theorem Untrapped.left (h : w.Untrapped n (piece ++ rest) m) : w.Untrapped n piece m := by
  rintro before size r after m' rfl hrun
  exact h before size r (after ++ rest) m' (by simp) hrun

theorem Untrapped.right (h : w.Untrapped n (piece ++ rest) m) (hrun : w.Reaches n piece m .next m')
    (hlabels : LabelsIn j k piece) (hk : n ≤ k) : w.Untrapped k rest m' := by
  rintro before size r after m'' rfl hrun'
  exact h (piece ++ before) size r after m'' (by simp) (hrun.append hlabels hk hrun')

theorem Untrapped.mono (h : w.Untrapped n piece m) (hk : n ≤ k) : w.Untrapped k piece m :=
  fun before size r after m' hpiece hrun =>
    h before size r after m' hpiece fun code i hplaced => hrun code i (hplaced.mono hk)

theorem Untrapped.divides {r : Reg} (h : w.Untrapped n [.instr (.idiv k r)] m) :
    (m.divide k r).isSome = true := h [] k r [] m rfl (reaches_nil w n m)

end

end World

/-- Not a call, and if it is a number then one of at most eight bytes. -/
def Expr.Straight : Expr → Prop
  | call .. => False
  | number v _ => wrap 8 v = v
  | _ => True

/-- If it is a variable that holds a single value, the program owns it. -/
def Expr.Readable (E : Env) : Expr → Prop
  | ident x i => i.ty.isScalar = true → E.owns (E.place x) i.ty.size = true
  | _ => True

/-- A node whose code runs through unless it divides. -/
def Expr.Smooth (t : SymbolTable) (E : Env) (n : Expr) : Prop :=
  n.WellFormed t ∧ n.Straight ∧ n.Readable E

namespace Lowering

open State

/-- The action does what is said from machines on which no division of its code traps. -/
def Proceeds (S : Scene) (M : Memory) {α : Type} (b : Nat) (a : Lowering α) (s : State)
    (T : α → State → Prop) (P : Machine → Prop) (R : α → State → Machine → Prop) : Prop :=
  Does S M b a s T (fun m => P m ∧ S.world.Untrapped s.nextLabel (a s).code m) R

section
variable {S : Scene} {M : Memory} {α β : Type} {b k : Nat} {s : State} {a : Lowering α}
  {f : α → Lowering β} {T T' : α → State → Prop} {U : β → State → Prop} {P P' : Machine → Prop}
  {Q Q' : α → State → Machine → Prop} {R : β → State → Machine → Prop}

theorem Does.proceeds (h : Does S M b a s T P Q) : Proceeds S M b a s T P Q :=
  h.weaken (Nat.le_refl b) (fun _ _ hT => hT) (fun _ hm => hm.1) fun _ _ _ _ hQ => hQ

namespace Proceeds

theorem weaken (h : Proceeds S M k a s T P Q) (hb : b ≤ k) (hT : ∀ v s', T v s' → T' v s')
    (hP : ∀ m, P' m → P m) (hQ : ∀ v s' m, T v s' → Q v s' m → Q' v s' m) :
    Proceeds S M b a s T' P' Q' :=
  Does.weaken h hb hT (fun m hm => ⟨hP m hm.1, hm.2⟩) hQ

/-- The way through the first action leads to where the second one does not trap. -/
theorem bind (ha : Proceeds S M b a s T P Q)
    (hf : ∀ v s', T v s' → Proceeds S M b (f v) s' U (Q v s') R) :
    Proceeds S M b (a >>= f) s U P R := by
  have hthen := hf _ _ ha.gives
  refine ⟨ha.evolves.trans hthen.evolves,
    ha.labels.append hthen.labels ha.evolves.label hthen.evolves.label, hthen.gives, ?_⟩
  rintro m hm hfits ⟨hP, htraps⟩
  have hmid := hfits.before hthen.evolves
  obtain ⟨m', hrun, hstays, hQ⟩ := ha.runs m hm hmid ⟨hP, htraps.left⟩
  have htraps' := htraps.right hrun ha.labels ha.evolves.label
  obtain ⟨m'', hrun', hstays', hR⟩ :=
    hthen.runs m' (hm.after ha.evolves hstays hmid.lowest) hfits ⟨hQ, htraps'⟩
  exact ⟨m'', hrun.append ha.labels ha.evolves.label hrun',
    hstays.trans hstays' ha.evolves.lowest hthen.evolves.lowest, hR⟩

theorem note_bind {f : Unit → Lowering β} (text : String) (h : Proceeds S M b (f ()) s U P R) :
    Proceeds S M b (note text >>= f) s U P R := by
  refine (Does.note_bind text h).weaken (Nat.le_refl b) (fun _ _ hU => hU) ?_ fun _ _ _ _ hR => hR
  rintro m ⟨hP, htraps⟩
  rw [note_bind_apply] at htraps
  exact ⟨hP, htraps.right (s.reaches_noted text _ _ m) (s.labelsIn_noted text 0 _) (Nat.le_refl _)⟩

theorem inspect_bind {g : State → α} (h : Proceeds S M b (f (g s)) s U P R) :
    Proceeds S M b (inspect g >>= f) s U P R := Does.inspect_bind h

end Proceeds

end

/-! ## Values that are held -/

/-- The machine holds a number as the value. -/
def Holding (S : Scene) (n : Nat) (v : ValueId) (s : State) (m : Machine) : Prop :=
  ∃ y, S.Holds s m v n y

/-- From every sound state the action gives a value of `n` bytes that is held, if no division
traps. -/
def Progresses (S : Scene) (M : Memory) (n : Nat) (a : Lowering ValueId) : Prop :=
  ∀ s : State, s.Sound → Proceeds S M s.nextValue a s (fun v s' => ∃ c, Yields s s' v n c)
    (fun _ => True) (Holding S n)

/-- Behind a held operand of `w` bytes the action gives a held result of `n` bytes. -/
def Finishes (S : Scene) (M : Memory) (tail : ValueId → Lowering ValueId) (w n : Nat) : Prop :=
  ∀ (s s' : State) (v : ValueId) (c : Nat), Yields s s' v w c →
    Does S M s.nextValue (tail v) s' (fun u s'' => Yields s s'' u n c)
      (Holding S w v s') (Holding S n)

/-- Behind held operands of `w` and `w'` bytes the action gives a held result of `n` bytes. -/
def Combines (S : Scene) (M : Memory) (tail : ValueId → ValueId → Lowering ValueId) (w w' n : Nat) :
    Prop :=
  ∀ (s s' : State) (l r : ValueId) (c : Nat), Operands s s' l r w w' c →
    Proceeds S M s.nextValue (tail l r) s' (fun z s'' => Yields s s'' z n c)
      (fun m => Holding S w l s' m ∧ Holding S w' r s' m) (Holding S n)

section
variable {S : Scene} {M : Memory} {s s' : State} {b c n w w' : Nat} {v : ValueId}
  {a a' : Lowering ValueId} {P : Machine → Prop}

theorem Progresses.of_evaluates (h : ∀ k, ∃ c x, Evaluates S M a k n c (some x)) :
    Progresses S M n a := by
  intro s hs
  obtain ⟨c, x, hx⟩ := h s.texts.length
  refine (hx s hs rfl).proceeds.weaken (Nat.le_refl _) (fun _ _ hv => ⟨c, hv⟩) (fun _ _ => rfl) ?_
  rintro v s' m - ⟨y, -, hy⟩
  exact ⟨y, hy⟩

theorem Progresses.proceeds (h : Progresses S M n a) (hs : s.Sound) (hb : b ≤ s.nextValue)
    (P : Machine → Prop) :
    Proceeds S M b a s (fun v s' => ∃ c, Yields s s' v n c) P fun v s' m' =>
      Holding S n v s' m' ∧ ∃ m, P m ∧ S.Stays (Before s.nextValue) s m s' m' := by
  have hdoes := h s hs
  have hmono : ∀ v : ValueId, Before b v → Before s.nextValue v :=
    fun _ hv => Nat.lt_of_lt_of_le hv hb
  refine ⟨hdoes.evolves.mono hmono, hdoes.labels, hdoes.gives, ?_⟩
  rintro m hm hfits ⟨hP, htraps⟩
  obtain ⟨m', hrun, hstays, hholds⟩ := hdoes.runs m hm hfits ⟨trivial, htraps⟩
  exact ⟨m', hrun, hstays.mono hmono, hholds, m, hP, hstays⟩

theorem Progresses.note (h : Progresses S M n a) (text : String) :
    Progresses S M n (note text >>= fun _ => a) := fun s hs => Proceeds.note_bind text (h s hs)

/-- What turns every number into one finishes. -/
theorem Turns.finishes {tail : ValueId → Lowering ValueId} {g : Int → Int}
    (h : Turns S M tail w n (some ∘ g)) : Finishes S M tail w n := by
  intro s s' v c hv
  refine (Does.exists_pre fun y => h s s' v c hv y).weaken (Nat.le_refl _) (fun _ _ h => h) ?_ ?_
  · rintro m ⟨y, hy⟩
    exact ⟨y, rfl, hy⟩
  · rintro u s'' m - ⟨y, z, -, hz⟩
    exact ⟨z, hz⟩

theorem Merges.combines {tail : ValueId → ValueId → Lowering ValueId} {g : Int → Int → Int}
    (h : Merges S M tail w w' n fun u v => some (g u v)) : Combines S M tail w w' n := by
  intro s s' l r c hboth
  refine ((Does.exists_pre fun uv : Int × Int => h s s' l r c hboth uv.1 uv.2).weaken
    (Nat.le_refl _) (fun _ _ h => h) ?_ ?_).proceeds
  · rintro m ⟨⟨u, hu⟩, v, hv⟩
    exact ⟨(u, v), rfl, hu, hv⟩
  · rintro z s'' m - ⟨uv, y, -, hy⟩
    exact ⟨y, hy⟩

theorem Progresses.finish {tail : ValueId → Lowering ValueId} (ha : Progresses S M w a)
    (htail : Finishes S M tail w n) : Progresses S M n (a >>= tail) := by
  intro s hs
  refine (ha s hs).bind fun v s₁ ⟨c, hv⟩ => ?_
  exact (htail s s₁ v c hv).proceeds.weaken (Nat.le_refl _) (fun _ _ h => ⟨c, h⟩) (fun _ h => h)
    fun _ _ _ _ h => h

/-- The left operand is held while the right one is computed. -/
theorem proceeds_operands {α : Type} {f : ValueId → ValueId → Lowering α} {T : α → State → Prop}
    {R : α → State → Machine → Prop} (hw : Width w) (ha : Progresses S M w a)
    (ha' : Progresses S M w' a') (hs : s.Sound)
    (hf : ∀ l r s' c, Operands s s' l r w w' c → Proceeds S M s.nextValue (f l r) s' T
      (fun m => Holding S w l s' m ∧ Holding S w' r s' m) R) :
    Proceeds S M s.nextValue (a >>= fun l => a' >>= fun r => f l r) s T (fun _ => True) R := by
  refine (ha s hs).bind fun l s₁ ⟨c, hl⟩ => ?_
  refine (ha'.proceeds hl.sound hl.value _).bind fun r s₂ ⟨d, hr⟩ => ?_
  refine (hf l r s₂ (c + d) ⟨hl.toReached.trans hr.toReached, ?_, hr.ready, hl.fresh, ?_⟩).weaken
    (Nat.le_refl _) (fun _ _ h => h) ?_ fun _ _ _ _ h => h
  · exact hr.toEvolves.ready hl.ready.known hl.ready
  · exact Nat.lt_of_lt_of_le hl.ready.known hr.fresh
  · rintro m ⟨hright, m₁, ⟨u, hu⟩, hstays⟩
    exact ⟨⟨u, hstays.holds l w u hl.ready.known hw.le hu⟩, hright⟩

theorem Progresses.combine {tail : ValueId → ValueId → Lowering ValueId} (hw : Width w)
    (ha : Progresses S M w a) (ha' : Progresses S M w' a') (htail : Combines S M tail w w' n) :
    Progresses S M n (a >>= fun l => a' >>= fun r => tail l r) := by
  intro s hs
  refine proceeds_operands hw ha ha' hs fun l r s₂ c h => ?_
  exact (htail s s₂ l r c h).weaken (Nat.le_refl _) (fun _ _ h => ⟨c, h⟩) (fun _ h => h)
    fun _ _ _ _ h => h

/-! ## Operators -/

/-- Whatever is in a free register becomes a held result. -/
theorem does_held {r : Reg} (h : Reached s s' c) (hr : s'.pool r = none) (hn : Width n) :
    Does S M s.nextValue (newValue (.reg r) n) s' (fun v s'' => Yields s s'' v n c) P
      (Holding S n) := by
  refine (Does.exists_pre fun y => does_result (P := fun m => signed n (m.regs r) = y) h hr hn
    fun m hm => ⟨y, rfl, hm⟩).weaken (Nat.le_refl _) (fun _ _ h => h) (fun m _ => ⟨_, rfl⟩) ?_
  rintro v s'' m - ⟨_, y, -, hy⟩
  exact ⟨y, hy⟩

/-- The number that a pointer leads to is loaded, whoever owns it. -/
theorem finishes_deref (hn : Width n) :
    Finishes S M (fun v => do
      let r ← inRegister v []
      emit (.mov n (.mem (.indirect r)) (.reg r n))
      rebind v r n) 8 n := by
  intro s s₁ v c hv
  refine (Does.exists_pre fun p => does_content (M := M) hv (Or.inr (Or.inr rfl)) p).bind
    fun r s₂ hr => ?_
  have hreached := hv.toReached.shifts hr.shifts (ne_of_fresh hv.fresh)
  refine Does.emit_bind (Q := fun _ => True) hr.shifts.sound ?_ (Does.unbind_bind hr.shifts.sound
    hv.fresh (does_held (hreached.unbind hv.fresh) ?_ hn))
  · exact fun m _ _ => ⟨by simp [Instr.encodable, Instr.movable, Operand.fits, hn], _, rfl,
      Scene.stays_set (not_held_of_fresh hr.held hv.fresh), trivial⟩
  · rw [pool_unbind _ _ hr.shifts.sound, if_pos hr.held]

/-- A division that does not trap writes its two registers only. -/
theorem stays_divide {m m' : Machine} {q : Reg} (h : m.divide n q = some m')
    (hrax : ∀ u, Before b u → s.pool .rax ≠ some u) (hrdx : s.pool .rdx = none) :
    S.Stays (Before b) s m s m' := by
  unfold Machine.divide at h
  dsimp only at h
  split at h
  · cases h
    refine Scene.stays_of_regs rfl rfl rfl fun r u hu hr => ?_
    have hr₁ : r ≠ .rdx := by
      rintro rfl
      rw [hrdx] at hr
      cases hr
    have hr₂ : r ≠ .rax := by
      rintro rfl
      exact hrax u hu hr
    rw [Machine.regs_set_of_ne _ hr₁, Machine.regs_set_of_ne _ hr₂]
  · cases h

theorem proceeds_idiv (hs : s.Sound) (hn : n = 4 ∨ n = 8)
    (hrax : ∀ u, Before b u → s.pool .rax ≠ some u) (hrdx : s.pool .rdx = none) :
    Proceeds S M b (emit (.idiv n .rcx)) s (fun _ s' => s' = s) P fun _ _ _ => True := by
  refine Does.emit hs ?_
  rintro m - ⟨-, htraps⟩
  obtain ⟨m', hm'⟩ := Option.isSome_iff_exists.mp htraps.divides
  exact ⟨by rcases hn with rfl | rfl <;> rfl, m', hm', stays_divide hm' hrax hrdx, trivial⟩

theorem combines_divide {result : Reg} (hn : n = 4 ∨ n = 8)
    (hresult : result = .rax ∨ result = .rdx) :
    Combines S M (fun l r => do
      load l .rax
      evict .rdx
      load r .rcx
      emit (.signExtend (n == 8))
      emit (.idiv n .rcx)
      unbind r
      unbind l
      newValue (.reg result) n) n n n := by
  intro s s₂ l r c h
  have hloads := does_loads (S := S) (M := M) (f := pure ()) (T := fun _ s₅ => Dividing s s₅ l r c)
    (P := fun m => Holding S n l s₂ m ∧ Holding S n r s₂ m) (R := fun _ _ _ => True) (Or.inr hn) h
    (fun m ⟨⟨u, hu⟩, v, hv⟩ => ⟨u, v, hu, hv⟩)
    fun s₅ h₅ => Does.pure h₅.reached.sound h₅ fun _ _ => trivial
  have hall := hloads.proceeds.bind (R := fun v s'' => Holding S n v s'')
    (f := fun _ => do
      emit (.signExtend (n == 8))
      emit (.idiv n .rcx)
      unbind r
      unbind l
      newValue (.reg result) n) (U := fun z s'' => Yields s s'' z n c) fun _ s₅ h₅ => ?_
  · simpa only [bind_assoc, pure_bind] using hall
  have hs₅ := h₅.reached.sound
  have hextend := does_signExtend (S := S) (M := M) (b := s.nextValue) (G := fun _ _ => True) hs₅ hn
    h₅.free
  refine (hextend.proceeds.weaken (Nat.le_refl _) (fun _ _ h => h)
    (fun m _ => ⟨_, _, trivial, rfl, rfl⟩) fun _ _ _ _ h => h).bind fun _ s₆ h₆ => ?_
  subst h₆
  refine (proceeds_idiv hs₅ hn (not_held_of_fresh h₅.dividend h₅.fresh) h₅.free).bind
    fun _ s₇ h₇ => ?_
  subst h₇
  have hfresh : s.nextValue ≤ r.index := Nat.le_trans h₅.fresh (Nat.le_of_lt h₅.lt)
  have hreached := h₅.reached.unbind hfresh
  exact (Does.unbind_bind hs₅ hfresh (Does.unbind_bind hreached.sound h₅.fresh (does_held
    (hreached.unbind h₅.fresh) (h₅.pool_unbind hresult) (Or.inr hn)))).proceeds

theorem proceeds_test (hw : Width w) (ha : Progresses S M w a) (hs : s.Sound) :
    Proceeds S M s.nextValue (test a) s (fun _ s' => ∃ c, Reached s s' c) (fun _ => True)
      fun _ _ m => ∃ f, m.flags = some f ∧ ∃ u, Tells f u 0 := by
  refine (ha s hs).bind fun v s₁ ⟨c, hv⟩ => ?_
  refine (Does.exists_pre fun y => does_compareZero hv hw y).proceeds.weaken (Nat.le_refl _)
    (fun _ _ h => ⟨c, h⟩) (fun _ h => h) ?_
  rintro _ _ m - ⟨y, f, hf, htells⟩
  exact ⟨f, hf, y, htells⟩

/-- Behind a short circuit the flags tell about one of both operands. -/
theorem proceeds_skipping (hw : Width w) (hw' : Width w') (ha : Progresses S M w a)
    (ha' : Progresses S M w' a') (hs : s.Sound) (hpool : ∀ r, s.pool r = none) (skip : Comparison) :
    Proceeds S M s.nextValue (skipping (test a) skip (test a')) s
      (fun _ s' => ∃ c, Reached s.labelled s' c) P
      fun _ _ m => ∃ f, m.flags = some f ∧ ∃ u, Tells f u 0 := by
  have hlabelled := evolves_labelled hs (Before s.nextValue)
  have hfirst := proceeds_test hw ha hlabelled.sound
  let s₁ := (test a s.labelled).state
  have hcode := code_skipping (test a) (test a') skip s
  refine does_skipping (T := fun s' => s' = s₁ ∧ ∃ c, Reached s.labelled s' c)
    (U := fun s' => ∃ c, Reached s.labelled s' c) (Q := fun f => ∃ u, Tells f u 0)
    (R := fun f => ∃ u, Tells f u 0) (W := S.world.Untrapped s₁.nextLabel (test a' s₁).code) hs
    ⟨hfirst.evolves, hfirst.labels, ⟨rfl, hfirst.gives⟩, ?_⟩ ?_ ?_ ?_ fun _ h _ => h
  · rintro m hm hfits ⟨-, htraps⟩
    rw [hcode] at htraps
    exact hfirst.runs m hm hfits ⟨trivial, htraps.left.left.mono (Nat.le_succ _)⟩
  · rintro m m₁ f ⟨-, htraps⟩ hf hgo hrun
    rw [hcode] at htraps
    have hrest := (htraps.left.mono (Nat.le_succ _)).right hrun hfirst.labels hfirst.evolves.label
    exact hrest.right (World.reaches_jcc_skipped hf hgo _ _) (labelsIn_instr s₁.nextLabel _ _)
      (Nat.le_refl _)
  · rintro _ ⟨rfl, c, h₁⟩
    exact Does.weaken (proceeds_test hw' ha' h₁.sound) h₁.value
      (fun _ s₂ ⟨d, h₂⟩ => ⟨c + d, h₁.trans h₂⟩) (fun m hm => ⟨trivial, hm.1⟩) fun _ _ _ _ h => h
  · rintro s' ⟨-, c, h₁⟩ v hv
    exact h₁.unheld hpool v hv

theorem progresses_logical {title : String} (hn : Width n) (hw : Width w) (hw' : Width w')
    (ha : Progresses S M w a) (ha' : Progresses S M w' a') (skip : Comparison) :
    Progresses S M n (logical title skip n a a') := by
  intro s hs
  rw [logical_eq]
  refine Proceeds.note_bind _ ((does_spillAll hs _ _).proceeds.bind fun _ s₁ ⟨hshifts, hpool⟩ => ?_)
  have hle : s.nextValue ≤ s₁.nextValue := Nat.le_of_eq hshifts.nextValue_eq.symm
  refine ((proceeds_skipping hw hw' ha ha' hshifts.sound hpool skip).weaken hle (fun _ _ h => h)
    (fun _ h => h) fun _ _ _ _ h => h).bind fun _ s₂ ⟨c, h₂⟩ => ?_
  have hsaved := ((Reached.refl hs).shifts hshifts fun _ _ => trivial).labelled.trans h₂
  refine (Does.exists_pre fun u => does_truth hsaved hn u).proceeds.weaken (Nat.le_refl _)
    (fun _ _ h => ⟨_, h⟩) ?_ ?_
  · rintro m ⟨f, hf, u, htells⟩
    exact ⟨u, f, hf, htells⟩
  · rintro v s₃ m - ⟨u, hv⟩
    exact ⟨_, hv⟩

theorem progresses_compare {q : Comparison} (hn : Width n) (hw : Width w) (ha : Progresses S M w a)
    (ha' : Progresses S M w a') : Progresses S M n (compare q n a a') := by
  rw [compare_eq]
  exact (ha.combine hw ha' (merges_compare hn hw).combines).note q.symbol

theorem progresses_arithmetic {op : AluOp} {title : String} (hn : n = 4 ∨ n = 8)
    (ha : Progresses S M n a) (ha' : Progresses S M n a') :
    Progresses S M n (arithmetic op title n a a') :=
  (ha.combine (Or.inr hn) ha' (merges_arithmetic hn).combines).note title

theorem progresses_divide {title : String} {result : Reg} (hn : n = 4 ∨ n = 8)
    (hresult : result = .rax ∨ result = .rdx) (ha : Progresses S M n a)
    (ha' : Progresses S M n a') : Progresses S M n (divide title result n a a') :=
  (ha.combine (Or.inr hn) ha' (combines_divide hn hresult)).note title

theorem progresses_binary {op : BinaryOp} {ty l r : Ty} (h : op.Operands ty l r)
    (ha : l.isScalar = true → Progresses S M l.size a)
    (ha' : r.isScalar = true → Progresses S M r.size a') :
    Progresses S M ty.size (op.lower ty.size a a') := by
  have hlogical : ty = .int ∧ (l.isScalar = true ∧ l ≠ .char) ∧ r.isScalar = true ∧ r ≠ .char →
      ∀ title skip, Progresses S M ty.size (logical title skip ty.size a a') := by
    rintro ⟨rfl, ⟨hl, -⟩, hr, -⟩ title skip
    exact progresses_logical (Or.inr (Or.inl rfl)) (Ty.width_size hl) (Ty.width_size hr) (ha hl)
      (ha' hr) skip
  have huniform : op = .add ∨ op = .sub ∨ op = .mul ∨ op = .div ∨ op = .rem →
      (ty.size = 4 ∨ ty.size = 8) ∧ Progresses S M ty.size a ∧ Progresses S M ty.size a' := by
    intro hop
    have hu := BinaryOp.uniform_of_operands h hop
    exact ⟨hu.wide, hu.leftSize ▸ ha hu.left, hu.rightSize ▸ ha' hu.right⟩
  cases op with
  | add =>
      obtain ⟨hwide, hl, hr⟩ := huniform (by simp)
      exact progresses_arithmetic hwide hl hr
  | sub =>
      obtain ⟨hwide, hl, hr⟩ := huniform (by simp)
      exact progresses_arithmetic hwide hl hr
  | mul =>
      obtain ⟨hwide, hl, hr⟩ := huniform (by simp)
      exact progresses_arithmetic hwide hl hr
  | div =>
      obtain ⟨hwide, hl, hr⟩ := huniform (by simp)
      exact progresses_divide hwide (Or.inl rfl) hl hr
  | rem =>
      obtain ⟨hwide, hl, hr⟩ := huniform (by simp)
      exact progresses_divide hwide (Or.inr rfl) hl hr
  | compare q =>
      obtain ⟨rfl, hl, hr, -, hsize⟩ := h
      exact progresses_compare (Or.inr (Or.inl rfl)) (Ty.width_size hl) (ha hl) (hsize ▸ ha' hr)
  | land => exact hlogical h _ _
  | lor => exact hlogical h _ _

end

/-! ## Trees -/

section
variable {S : Scene} {t : SymbolTable}

/-- Without calls an expression runs through, whatever it computes. -/
theorem progresses_expr (M : Memory) (hplaces : S.Places t) :
    ∀ e : Expr, e.Every (Expr.Smooth t S.env) → e.ty.isScalar = true →
      Progresses S M e.ty.size (e.lower t)
  | .number v i, he, _ => by
      obtain ⟨⟨hcanonical, -⟩, hlong, -⟩ := Expr.every_number.mp he
      exact .of_evaluates fun k => ⟨_, _, evaluates_constant (Ty.IsWide.size hcanonical) hlong⟩
  | .text string i, he, hscalar => by
      obtain ⟨⟨hcanonical, -⟩, -⟩ := Expr.every_text.mp he
      have hty : (Expr.text string i).ty = i.ty := rfl
      rw [hty, hcanonical] at hscalar
      cases hscalar
  | .ident x i, he, hscalar => by
      obtain ⟨-, -, howned⟩ := Expr.every_ident.mp he
      have hload : S.env.load M i.ty.size (S.env.place x) =
          some (signed i.ty.size (M.load (S.env.place x) i.ty.size)) := if_pos (howned hscalar)
      exact .of_evaluates fun k =>
        ⟨0, _, hload ▸ evaluates_place (hplaces x) (Ty.width_size hscalar).le⟩
  | .call f args i, he, _ => by cases (Expr.every_call.mp he).1.2.1
  | .unary .negate e i, he, hscalar => by
      obtain ⟨⟨⟨⟨-, hty⟩, -⟩, -⟩, hsub⟩ := Expr.every_unary.mp he
      have h := progresses_expr M hplaces e hsub (hty ▸ hscalar)
      rw [hty] at h
      exact (h.finish (turns_negate (Ty.width_size hscalar)).finishes).note "negate"
  | .unary .logicalNot e i, he, hscalar => by
      obtain ⟨⟨⟨⟨-, hoperand, -⟩, -⟩, -⟩, hsub⟩ := Expr.every_unary.mp he
      have hturns := turns_logicalNot (S := S) (M := M) (Ty.width_size hscalar)
        (Ty.width_size hoperand)
      exact ((progresses_expr M hplaces e hsub hoperand).finish hturns.finishes).note "not"
  | .unary .deref e i, he, hscalar => by
      obtain ⟨⟨⟨⟨hpointer, -⟩, -⟩, -⟩, hsub⟩ := Expr.every_unary.mp he
      have h := progresses_expr M hplaces e hsub (Ty.isScalar_of_isDataPointer hpointer)
      rw [Ty.size_of_isDataPointer hpointer] at h
      exact (h.finish (finishes_deref (Ty.width_size hscalar))).note "dereference"
  | .unary .address e i, he, _ => by
      obtain ⟨⟨⟨haddress, -⟩, -⟩, hnode⟩ := Expr.every_unary.mp he
      have hsize : i.ty.size = 8 := Ty.size_of_isDataPointer haddress.isDataPointer_address
      show Progresses S M i.ty.size _
      rw [hsize]
      rcases operand_of_address (he.imp fun _ h => h.1) with
        ⟨x, j, rfl⟩ | ⟨string, j, rfl⟩ | ⟨p, j, rfl⟩
      · exact .of_evaluates fun k =>
          ⟨_, _, evaluates_addressOfPlace (locates_place (hplaces x) j.ty.size)⟩
      · exact .of_evaluates fun k =>
          ⟨_, _, evaluates_addressOfPlace (locates_text string j.ty.size)⟩
      · obtain ⟨⟨⟨⟨hpointer, -⟩, -⟩, -⟩, hsub⟩ := Expr.every_unary.mp hnode
        have h := progresses_expr M hplaces p hsub (Ty.isScalar_of_isDataPointer hpointer)
        rw [Ty.size_of_isDataPointer hpointer] at h
        exact (h.finish (Turns.finishes (g := id) turns_addressOfTarget)).note "address"
  | .cast e i, he, hscalar => by
      obtain ⟨⟨⟨hcanonical, -⟩, -⟩, hsub⟩ := Expr.every_cast.mp he
      obtain ⟨hoperand, -⟩ := hcanonical.isScalar_cast
      have hturns := turns_cast (S := S) (M := M) (Ty.width_size hscalar) (Ty.width_size hoperand)
      exact (progresses_expr M hplaces e hsub hoperand).finish hturns.finishes
  | .binary op l r i, he, _ => by
      obtain ⟨⟨⟨hcanonical, -⟩, -⟩, hl, hr⟩ := Expr.every_binary.mp he
      exact progresses_binary hcanonical (progresses_expr M hplaces l hl)
        (progresses_expr M hplaces r hr)
termination_by e => SizeOf.sizeOf e

end

end Lowering

end LittleC
