import LittleC.Lowering.Operator
import LittleC.Proofs.Lowering.Primitive

/-! # Operators compute what they denote

One lemma for each operator over what its operands evaluate to. -/

namespace LittleC.Lowering

open State

/-- What was lowered from `s` to `s'` kept the values before it and met `c` string literals. -/
structure Reached (s s' : State) (c : Nat) : Prop extends Evolves (Before s.nextValue) s s' where
  count : s'.texts.length = s.texts.length + c

/-- A new value of `n` bytes came of it. -/
structure Yields (s s' : State) (v : ValueId) (n c : Nat) : Prop extends Reached s s' c where
  fresh : s.nextValue ≤ v.index
  ready : s'.Ready v n

/-- After `k` string literals the action, with `c` of its own, computes `x` in `n` bytes. -/
def Evaluates (S : Scene) (M : Memory) (a : Lowering ValueId) (k n c : Nat) (x : Option Int) :
    Prop :=
  ∀ s : State, s.Sound → s.texts.length = k →
    Does S M s.nextValue a s (fun v s' => Yields s s' v n c) (fun _ => x.isSome = true)
      (fun v s' m' => ∃ y, x = some y ∧ S.Holds s' m' v n y)

section
variable {s s' s'' : State} {c d n : Nat} {v : ValueId} {K : ValueId → Prop}

theorem Reached.refl (hs : s.Sound) : Reached s s 0 := ⟨.refl hs _, rfl⟩

theorem Reached.shifts (h : Reached s s' c) (h' : Shifts K s' s'')
    (hK : ∀ v, Before s.nextValue v → K v) : Reached s s'' c :=
  ⟨h.toEvolves.trans (h'.mono hK), by rw [h'.texts_eq, h.count]⟩

theorem Reached.trans (h : Reached s s' c) (h' : Reached s' s'' d) : Reached s s'' (c + d) :=
  ⟨h.toEvolves.trans (h'.mono fun _ hv => Nat.lt_of_lt_of_le hv h.value),
    by rw [h'.count, h.count, Nat.add_assoc]⟩

theorem Reached.unbind (h : Reached s s' c) (hv : s.nextValue ≤ v.index) :
    Reached s (s'.unbind v) c := by
  refine ⟨h.toEvolves.trans ((evolves_unbind h.sound v).mono (ne_of_fresh hv)), ?_⟩
  rw [unbind_eq]
  exact h.count

theorem Reached.addValue (h : Reached s s' c) {l : Location}
    (hfree : ∀ r, l = .reg r → s'.pool r = none ∧ Width n) :
    Yields s (s'.addValue ⟨l, n⟩) ⟨s'.nextValue⟩ n c := by
  have htexts := (rest_addValue s' ⟨l, n⟩).2.2.1
  refine ⟨⟨h.toEvolves.trans ((evolves_addValue h.sound hfree).mono ?_), htexts ▸ h.count⟩,
    h.value, ready_addValue s' l n⟩
  exact fun _ hv => Nat.lt_of_lt_of_le hv h.value

end

section
variable {S : Scene} {M : Memory} {s s' : State} {b c d k n : Nat} {v : ValueId} {r : Reg}
  {x y : Option Int} {P : Machine → Prop}

theorem Evaluates.does {a : Lowering ValueId} (h : Evaluates S M a k n c x) (hs : s.Sound)
    (hk : s.texts.length = k) (hb : b ≤ s.nextValue) (P : Machine → Prop)
    (hP : ∀ m, P m → x.isSome = true) :
    Does S M b a s (fun v s' => Yields s s' v n c) P
      (fun v s' m' => ∃ m y, P m ∧ S.Stays (Before s.nextValue) s m s' m' ∧ x = some y ∧
        S.Holds s' m' v n y) := by
  have hdoes := h s hs hk
  have hmono : ∀ v : ValueId, Before b v → Before s.nextValue v :=
    fun _ hv => Nat.lt_of_lt_of_le hv hb
  refine ⟨hdoes.evolves.mono hmono, hdoes.labels, hdoes.gives, ?_⟩
  intro m hm hfits hPm
  obtain ⟨m', hrun, hstays, y, hx, hy⟩ := hdoes.runs m hm hfits (hP m hPm)
  exact ⟨m', hrun, hstays.mono hmono, m, y, hPm, hstays, hx, hy⟩

/-! ## Results in registers -/

/-- The number in a free register becomes the result. -/
theorem does_result {z : Option Int} (h : Reached s s' c) (hr : s'.pool r = none) (hn : Width n)
    (hP : ∀ m, P m → ∃ y, z = some y ∧ signed n (m.regs r) = y) :
    Does S M s.nextValue (newValue (.reg r) n) s' (fun v s'' => Yields s s'' v n c) P
      (fun v s'' m => ∃ y, z = some y ∧ S.Holds s'' m v n y) := by
  have hfree : ∀ q, Location.reg r = .reg q → s'.pool q = none ∧ Width n := by
    intro q hq
    cases hq
    exact ⟨hr, hn⟩
  refine Does.newValue h.sound h.value hfree (h.addValue hfree) ?_
  intro m _ hm
  obtain ⟨y, hy, hcontent⟩ := hP m hm
  refine ⟨y, hy, ?_⟩
  unfold Scene.Holds
  rw [values_addValue]
  exact ⟨rfl, if_pos rfl, hcontent⟩

/-- The number in the register of a used value becomes the result. -/
theorem does_rebind {z : Option Int} (h : Reached s s' c) (hr : s'.pool r = some v)
    (hv : s.nextValue ≤ v.index) (hn : Width n)
    (hP : ∀ m, P m → ∃ y, z = some y ∧ signed n (m.regs r) = y) :
    Does S M s.nextValue (rebind v r n) s' (fun v s'' => Yields s s'' v n c) P
      (fun v s'' m => ∃ y, z = some y ∧ S.Holds s'' m v n y) := by
  refine Does.unbind_bind h.sound hv (does_result (h.unbind hv) ?_ hn hP)
  rw [pool_unbind s' v h.sound, if_pos hr]

/-- The location of an immediate or a place becomes the result. -/
theorem does_place {l : Location} {z : Option Int} (h : Reached s s' c)
    (hl : ∀ r, l ≠ .reg r)
    (hP : ∀ m, S.Agrees M s' m → P m → ∃ y, z = some y ∧
      match l with
      | .imm c => Ty.fitsInt c = true ∧ wrap n c = c ∧ c = y
      | .reg _ => False
      | .mem p => ∃ a, S.world.fixed? S.base p = some a ∧ Apart S.base S.floor s'.lowest a n ∧
          signed n (m.memory.load a n) = y) :
    Does S M s.nextValue (newValue l n) s' (fun v s'' => Yields s s'' v n c) P
      (fun v s'' m => ∃ y, z = some y ∧ S.Holds s'' m v n y) := by
  have hfree : ∀ q, l = .reg q → s'.pool q = none ∧ Width n := fun q hq => absurd hq (hl q)
  have hlowest := (rest_addValue s' ⟨l, n⟩).2.1
  refine Does.newValue h.sound h.value hfree (h.addValue hfree) ?_
  intro m hagrees hm
  obtain ⟨y, hy, hcontent⟩ := hP m hagrees hm
  refine ⟨y, hy, ?_⟩
  unfold Scene.Holds
  rw [values_addValue, hlowest]
  refine ⟨rfl, ?_⟩
  cases l with
  | reg r => exact absurd rfl (hl r)
  | _ => exact hcontent

/-! ## Constants -/

/-- A constant of a register's size is computed at the width of its type. -/
theorem evaluates_constant {v : Int} (hn : n = 4 ∨ n = 8) (hlong : wrap 8 v = v) :
    Evaluates S M (number v n) k n 0 (some (wrap n v)) := by
  intro s hs _
  have hwidth : Width n := Or.inr hn
  unfold number
  cases hfits : Ty.fitsInt v with
  | true =>
      have hv := wrap_of_fitsInt hn hfits
      exact does_place (.refl hs) (fun _ h => nomatch h) fun _ _ _ => ⟨_, rfl, hfits, hv, hv.symm⟩
  | false =>
      refine (does_takeReg hs ⟨.rax, List.not_mem_nil⟩ _ _).bind fun r s1 hs1 => ?_
      obtain ⟨hshifts, hr, -, -⟩ := hs1
      -- The move writes all eight bytes, whatever the width of the constant.
      refine Does.emit_bind (Q := fun m => signed n (m.regs r) = wrap n v) hshifts.sound ?_ ?_
      · intro m _ _
        refine ⟨by simp [Instr.encodable, Instr.movable, Operand.fits, hlong, Width], _, rfl,
          Scene.stays_set fun u _ hu => ?_, ?_⟩
        · rw [hr] at hu
          cases hu
        · simp only [Machine.read, Machine.write_reg, Machine.regs_set_self]
          rw [merge_full, signed_ofInt hwidth.le]
      · exact does_result ((Reached.refl hs).shifts hshifts fun _ _ => trivial) hr hwidth
          fun m hm => ⟨_, rfl, hm⟩

theorem evaluates_number {v : Int} (hn : n = 4 ∨ n = 8) (hv : wrap n v = v) :
    Evaluates S M (number v n) k n 0 (some v) := by
  have hlong : wrap 8 v = v := by
    rcases hn with rfl | rfl
    · have hlo := lt_wrap (n := 4) (Or.inr (Or.inl rfl)) v
      have hhi := wrap_lt (n := 4) (Or.inr (Or.inl rfl)) v
      exact wrap_eq_of_mem (Or.inr (Or.inr rfl)) (by omega) (by omega)
    · exact hv
  have h := evaluates_constant (S := S) (M := M) (k := k) hn hlong
  rwa [hv] at h

/-! ## One operand -/

/-- The action takes a computed value of `w` bytes to one of `n` bytes, and its number as `g`
says. -/
def Turns (S : Scene) (M : Memory) (tail : ValueId → Lowering ValueId) (w n : Nat)
    (g : Int → Option Int) : Prop :=
  ∀ (s s' : State) (v : ValueId) (c : Nat), Yields s s' v w c → ∀ y : Int,
    Does S M s.nextValue (tail v) s' (fun u s'' => Yields s s'' u n c)
      (fun m => (g y).isSome = true ∧ S.Holds s' m v w y)
      (fun u s'' m => ∃ z, g y = some z ∧ S.Holds s'' m u n z)

/-- An operator over an operand computes what it makes of the operand's number. -/
theorem Evaluates.turn {a : Lowering ValueId} {tail : ValueId → Lowering ValueId} {w : Nat}
    {g : Int → Option Int} (ha : Evaluates S M a k w c x) (htail : Turns S M tail w n g) :
    Evaluates S M (a >>= tail) k n c (x.bind g) := by
  intro s hs hk
  refine (ha.does hs hk (Nat.le_refl _) _ fun _ h => Option.isSome_of_isSome_bind h).bind
    fun v s1 hv => ?_
  refine (Does.exists_pre fun y => (htail s s1 v c hv y).given (φ := x = some y)).weaken
    (Nat.le_refl _) (fun _ _ h => h) ?_ ?_
  · rintro m ⟨_, y, hsome, -, rfl, hy⟩
    exact ⟨y, rfl, hsome, hy⟩
  · rintro u s2 m - ⟨y, rfl, z, hz, hm⟩
    exact ⟨z, hz, hm⟩

theorem Evaluates.note {a : Lowering ValueId} (h : Evaluates S M a k n c x) (text : String) :
    Evaluates S M (note text >>= fun _ => a) k n c x :=
  fun s hs hk => Does.note_bind text (h s hs hk)

/-- A computed operand is brought into a register. -/
theorem does_content (hv : Yields s s' v n c) (hn : Width n) (y : Int) :
    Does S M s.nextValue (inRegister v []) s' (InReg s' v n []) (fun m => S.Holds s' m v n y)
      (fun r _ m => signed n (m.regs r) = y) := by
  refine (does_inRegister hv.sound hv.ready hn hv.fresh ⟨.rax, List.not_mem_nil⟩
    fun m hm => ⟨y, hm⟩).weaken (Nat.le_refl _) (fun _ _ h => h) (fun _ h => h) ?_
  rintro r s2 m2 hr ⟨m1, hy, hstays, -⟩
  exact (hstays.holds v n y trivial hn.le hy).content (hr.shifts.sound.location hr.held)

/-- Writing the register of a new value leaves the values before it. -/
theorem not_held_of_fresh (hr : s'.pool r = some v) (hv : b ≤ v.index) :
    ∀ u, Before b u → s'.pool r ≠ some u := by
  intro u hu hru
  rw [hr] at hru
  cases hru
  exact Nat.not_lt_of_le hv hu

theorem turns_negate (hn : Width n) :
    Turns S M (fun v => do
      let r ← inRegister v []
      emit (.neg n r)
      rebind v r n) n n (some ∘ fun y => wrap n (-y)) := by
  intro s s1 v c hv y
  refine (does_content hv hn y).given.bind fun r s2 hr => ?_
  refine Does.emit_bind (Q := fun m => signed n (m.regs r) = wrap n (-y)) hr.shifts.sound ?_
    (does_rebind (hv.toReached.shifts hr.shifts (ne_of_fresh hv.fresh)) hr.held hv.fresh hn
      fun m hm => ⟨_, rfl, hm⟩)
  rintro m - ⟨-, hy⟩
  refine ⟨by simp [Instr.encodable, hn], _, rfl,
    Scene.stays_set (not_held_of_fresh hr.held hv.fresh), ?_⟩
  simp only [Machine.regs_set_self]
  rw [signed_merge hn.le, signed_ofInt hn.le, hy]

theorem evaluates_negate {a : Lowering ValueId} (hn : Width n) (ha : Evaluates S M a k n c x) :
    Evaluates S M (negate n a) k n c (x.map fun v => wrap n (-v)) := by
  rw [Option.map_eq_bind]
  exact (ha.turn (turns_negate hn)).note "negate"

theorem signed_truth (hn : Width n) (b : Bool) :
    signed n (if b then 1 else 0) = truth b := by
  cases b
  · exact wrap_zero n
  · exact wrap_one hn

/-- A condition becomes zero or one in the register. -/
theorem does_materialize (hs : s.Sound) (hr : ∀ u, Before b u → s.pool r ≠ some u)
    (condition : Comparison) (φ : Flags → Prop) :
    Does S M b (materialize condition r) s (fun _ s' => s' = s)
      (fun m => ∃ f, m.flags = some f ∧ φ f)
      (fun _ _ m => ∃ f, φ f ∧ m.regs r = if condition.holds f then 1 else 0) := by
  unfold materialize
  refine Does.emit_bind (Q := fun m => ∃ f, φ f ∧
    unsigned 1 (m.regs r) = if condition.holds f then 1 else 0) hs ?_ (Does.emit hs ?_)
  · rintro m - ⟨f, hf, hφ⟩
    refine ⟨rfl, m.set r 1 (if condition.holds f then 1 else 0), ?_, Scene.stays_set hr, f, hφ, ?_⟩
    · simp only [Machine.exec, hf, Option.map_some]
    rw [Machine.regs_set_self, unsigned_merge (by decide)]
    split <;> rfl
  · rintro m - ⟨f, hφ, hlow⟩
    refine ⟨rfl, _, rfl, Scene.stays_set hr, f, hφ, ?_⟩
    simp only [Machine.regs_set_self]
    rw [hlow]
    split <;> simp [merge, unsigned]

theorem encodable_cmp_zero (hn : Width n) (r : Reg) :
    (Instr.cmp n (.imm 0) r).encodable = true := by
  simp [Instr.encodable, Operand.isSource, Operand.fits, hn, wrap_zero, Ty.fitsInt]

/-- The flags of a comparison with zero tell about the number in the register. -/
theorem holds_cmp_zero (hn : Width n) (w : Word) (condition : Comparison) :
    condition.holds (.ofCompare n (signed n w) (signed n (BitVec.ofInt 64 0))) =
      condition.eval (signed n w) 0 := by
  rw [signed_ofInt hn.le, wrap_zero, Comparison.holds_ofCompare hn (wrap_signed n w) (wrap_zero n)]

theorem turns_logicalNot {w : Nat} (hn : Width n) (hw : Width w) :
    Turns S M (fun v => do
      let width ← sizeOf v
      let r ← inRegister v []
      emit (.cmp width (.imm 0) r)
      materialize .eq r
      rebind v r n) w n (some ∘ fun y => truth (y == 0)) := by
  intro s s1 v c hv y
  refine Does.inspect_bind ?_
  rw [hv.ready.size]
  refine (does_content hv hw y).given.bind fun r s2 hr => ?_
  have hfree := not_held_of_fresh hr.held hv.fresh
  refine Does.emit_bind (Q := fun m => ∃ f, m.flags = some f ∧ Comparison.eq.holds f = (y == 0))
    hr.shifts.sound ?_ ?_
  · rintro m - ⟨-, rfl⟩
    exact ⟨encodable_cmp_zero hw r, _, rfl, Scene.stays_of_regs rfl rfl rfl fun _ _ _ _ => rfl, _,
      rfl, holds_cmp_zero hw _ .eq⟩
  · refine (does_materialize hr.shifts.sound hfree _ _).bind fun _ s3 hs3 => ?_
    rw [hs3]
    refine does_rebind (hv.toReached.shifts hr.shifts (ne_of_fresh hv.fresh)) hr.held hv.fresh hn ?_
    rintro m ⟨f, hf, hm⟩
    exact ⟨_, rfl, by rw [hm, signed_truth hn, hf]⟩

theorem evaluates_logicalNot {a : Lowering ValueId} {w : Nat} (hn : Width n) (hw : Width w)
    (ha : Evaluates S M a k w c x) :
    Evaluates S M (logicalNot n a) k n c (x.map fun v => truth (v == 0)) := by
  rw [Option.map_eq_bind]
  exact (ha.turn (turns_logicalNot hn hw)).note "not"

/-- A load through the pointer in a register reads what the program owns. -/
theorem load_of_agrees {m : Machine} {p z : Int} (hn : Width n) (hm : S.Agrees M s m)
    (hp : signed 8 (m.regs r) = p) (hz : S.env.load M n (.ofInt 64 p) = some z) :
    signed n (m.memory.load (m.regs r) n) = z := by
  subst hp
  rw [ofInt_signed] at hz
  obtain ⟨howns, rfl⟩ := Env.load_eq_some hz
  rw [Env.load_congr hn.le hm.memory howns]

theorem turns_deref (hn : Width n) :
    Turns S M (fun v => do
      let r ← inRegister v []
      emit (.mov n (.mem (.indirect r)) (.reg r n))
      rebind v r n) 8 n (fun p => S.env.load M n (.ofInt 64 p)) := by
  intro s s1 v c hv p
  refine (does_content hv (Or.inr (Or.inr rfl)) p).given.bind fun r s2 hr => ?_
  refine Does.emit_bind (Q := fun m => ∃ z, S.env.load M n (.ofInt 64 p) = some z ∧
    signed n (m.regs r) = z) hr.shifts.sound ?_
    (does_rebind (hv.toReached.shifts hr.shifts (ne_of_fresh hv.fresh)) hr.held hv.fresh hn
      fun _ hm => hm)
  rintro m hm ⟨hsome, hp⟩
  obtain ⟨z, hz⟩ := Option.isSome_iff_exists.mp hsome
  refine ⟨by simp [Instr.encodable, Instr.movable, Operand.fits, hn], _, rfl,
    Scene.stays_set (not_held_of_fresh hr.held hv.fresh), z, hz, ?_⟩
  simp only [Machine.read, Machine.address, Machine.write_reg, Machine.regs_set_self]
  rw [signed_merge hn.le, load_of_agrees hn hm hp hz]

theorem evaluates_deref {a : Lowering ValueId} (hn : Width n) (ha : Evaluates S M a k 8 c x) :
    Evaluates S M (deref n a) k n c
      (x.bind fun p => S.env.load M n (.ofInt 64 p)) :=
  (ha.turn (turns_deref hn)).note "dereference"

theorem turns_addressOfTarget :
    Turns S M (fun v => do
      let r ← inRegister v []
      rebind v r pointerSize) 8 8 some := by
  intro s s1 v c hv p
  have height : Width 8 := Or.inr (Or.inr rfl)
  refine (does_content hv height p).given.bind fun r s2 hr => ?_
  refine does_rebind (hv.toReached.shifts hr.shifts (ne_of_fresh hv.fresh)) hr.held hv.fresh
    height ?_
  exact fun m hm => ⟨p, rfl, hm.2⟩

theorem evaluates_addressOfTarget {a : Lowering ValueId} (ha : Evaluates S M a k 8 c x) :
    Evaluates S M (addressOfTarget a) k 8 c x := by
  have h := (ha.turn turns_addressOfTarget).note "address"
  rwa [Option.bind_fun_some] at h

/-- A conversion keeps a number that already has the size. -/
theorem turns_cast {w : Nat} (hn : Width n) (hw : Width w) :
    Turns S M (fun v => do
      let source ← sizeOf v
      if source = n then pure v
      else
        note "cast"
        let r ← inRegister v []
        if source < n then emit (.movs source n r)
        else emit (.mov n (.reg r n) (.reg r n))
        rebind v r n) w n (some ∘ wrap n) := by
  intro s s1 v c hv y
  refine Does.inspect_bind ?_
  rw [hv.ready.size]
  by_cases hsame : w = n
  · subst hsame
    rw [if_pos rfl]
    exact Does.pure hv.sound hv fun m hm => ⟨y, congrArg some hm.2.wrap_eq, hm.2⟩
  · rw [if_neg hsame]
    refine Does.note_bind _ ((does_content hv hw y).given.bind fun r s2 hr => ?_)
    have hfree := not_held_of_fresh hr.held hv.fresh
    have hfinish := does_rebind (S := S) (M := M) (z := some (wrap n y))
      (P := fun m => signed n (m.regs r) = wrap n y)
      (hv.toReached.shifts hr.shifts (ne_of_fresh hv.fresh)) hr.held hv.fresh hn
      fun _ h => ⟨_, rfl, h⟩
    split
    · next hlt =>
        refine Does.emit_bind hr.shifts.sound ?_ hfinish
        rintro m - ⟨-, hy⟩
        refine ⟨by simp [Instr.encodable, hn, hw, hlt], _, rfl, Scene.stays_set hfree, ?_⟩
        simp only [Machine.regs_set_self]
        rw [signed_merge hn.le, signed_ofInt hn.le, hy]
    · next hlt =>
        refine Does.emit_bind hr.shifts.sound ?_ hfinish
        rintro m - ⟨-, hy⟩
        refine ⟨by simp [Instr.encodable, Instr.movable, Operand.fits, hn], _, rfl,
          Scene.stays_set hfree, ?_⟩
        simp only [Machine.read, Machine.write_reg, Machine.regs_set_self]
        rw [signed_merge hn.le, ← hy, wrap_signed_of_le (Nat.not_lt.mp hlt)]

theorem evaluates_cast {a : Lowering ValueId} {w : Nat} (hn : Width n) (hw : Width w)
    (ha : Evaluates S M a k w c x) : Evaluates S M (cast n a) k n c (x.map (wrap n)) := by
  rw [Option.map_eq_bind]
  exact ha.turn (turns_cast hn hw)

/-! ## Two operands -/

/-- Two operands are computed, of `n` and `w` bytes. -/
structure Operands (s s' : State) (l r : ValueId) (n w c : Nat) : Prop where
  reached : Reached s s' c
  left : s'.Ready l n
  right : s'.Ready r w
  fresh : s.nextValue ≤ l.index
  lt : l.index < r.index

/-- Both operands have values if what is made of them has one. -/
theorem operands_of_isSome {f : Int → Int → Option Int}
    (h : (x.bind fun u => y.bind (f u)).isSome = true) : ∃ u v, x = some u ∧ y = some v := by
  obtain ⟨u, hx⟩ := Option.isSome_iff_exists.mp (Option.isSome_of_isSome_bind h)
  rw [hx, Option.bind_some] at h
  obtain ⟨v, hy⟩ := Option.isSome_iff_exists.mp (Option.isSome_of_isSome_bind h)
  exact ⟨u, v, hx, hy⟩

theorem does_operands {α : Type} {a b : Lowering ValueId} {f : ValueId → ValueId → Lowering α}
    {w : Nat} {T : α → State → Prop} {R : α → State → Machine → Prop} (hn : Width n)
    (ha : Evaluates S M a k n c x) (hb : Evaluates S M b (k + c) w d y) (hs : s.Sound)
    (hk : s.texts.length = k) (hP : ∀ m, P m → ∃ u v, x = some u ∧ y = some v)
    (hf : ∀ l r s', Operands s s' l r n w (c + d) → Does S M s.nextValue (f l r) s' T
      (fun m => ∃ m₀ u v, P m₀ ∧ x = some u ∧ y = some v ∧ S.Holds s' m l n u ∧
        S.Holds s' m r w v) R) :
    Does S M s.nextValue (a >>= fun l => b >>= fun r => f l r) s T P R := by
  refine (ha.does hs hk (Nat.le_refl _) P ?_).bind fun l s1 hl => ?_
  · intro m hm
    obtain ⟨u, _, hx, -⟩ := hP m hm
    rw [hx]
    rfl
  refine (hb.does hl.sound (by rw [hl.count, hk]) hl.value _ ?_).bind fun r s2 hr => ?_
  · rintro m ⟨m₀, _, hm₀, -⟩
    obtain ⟨_, v, -, hy⟩ := hP m₀ hm₀
    rw [hy]
    rfl
  refine (hf l r s2 ⟨hl.toReached.trans hr.toReached, ?_, hr.ready, hl.fresh, ?_⟩).weaken
    (Nat.le_refl _) (fun _ _ h => h) ?_ fun _ _ _ _ h => h
  · exact hr.toEvolves.ready hl.ready.known hl.ready
  · exact Nat.lt_of_lt_of_le hl.ready.known hr.fresh
  · rintro m ⟨m1, v, ⟨m₀, u, hm₀, -, hx, hu⟩, hstays, hy, hv⟩
    exact ⟨m₀, u, v, hm₀, hx, hy, hstays.holds l n u hl.ready.known hn.le hu, hv⟩

theorem AluOp.encodable {op : AluOp} {o : Operand} (hn : n = 4 ∨ n = 8)
    (ho : o.isSource n = true) (r : Reg) : (Instr.alu op n o r).encodable = true := by
  have hne : n ≠ 1 := by omega
  have hwidth : Width n := Or.inr hn
  simp [Instr.encodable, ho, hne, hwidth]

/-- The action takes two computed values, of `w` and `w'` bytes, to one of `n` bytes, and their
numbers as `g` says. -/
def Merges (S : Scene) (M : Memory) (tail : ValueId → ValueId → Lowering ValueId) (w w' n : Nat)
    (g : Int → Int → Option Int) : Prop :=
  ∀ (s s' : State) (l r : ValueId) (c : Nat), Operands s s' l r w w' c → ∀ u v : Int,
    Does S M s.nextValue (tail l r) s' (fun z s'' => Yields s s'' z n c)
      (fun m => (g u v).isSome = true ∧ S.Holds s' m l w u ∧ S.Holds s' m r w' v)
      (fun z s'' m => ∃ y, g u v = some y ∧ S.Holds s'' m z n y)

/-- An operator over two operands computes what it makes of their numbers. -/
theorem Evaluates.merge {a b : Lowering ValueId} {tail : ValueId → ValueId → Lowering ValueId}
    {w w' : Nat} {g : Int → Int → Option Int} (hw : Width w) (ha : Evaluates S M a k w c x)
    (hb : Evaluates S M b (k + c) w' d y) (htail : Merges S M tail w w' n g) :
    Evaluates S M (a >>= fun l => b >>= fun r => tail l r) k n (c + d)
      (x.bind fun u => y.bind (g u)) := by
  intro s hs hk
  refine does_operands hw ha hb hs hk (fun _ => operands_of_isSome) fun l r s2 h => ?_
  refine (Does.exists_pre fun uv : Int × Int => (htail s s2 l r _ h uv.1 uv.2).given
    (φ := x = some uv.1 ∧ y = some uv.2)).weaken (Nat.le_refl _) (fun _ _ h => h) ?_ ?_
  · rintro m ⟨_, u, v, hsome, rfl, rfl, hu, hv⟩
    exact ⟨(u, v), ⟨rfl, rfl⟩, hsome, hu, hv⟩
  · rintro z s3 m - ⟨uv, ⟨rfl, rfl⟩, z, hz, hm⟩
    exact ⟨z, hz, hm⟩

theorem merges_arithmetic {op : AluOp} (hn : n = 4 ∨ n = 8) :
    Merges S M (fun l r => do
      let target ← inRegister l []
      let source ← operand r
      emit (.alu op n source target)
      unbind r
      rebind l target n) n n n (fun u v => some (wrap n (op.eval u v))) := by
  intro s s2 l r c h u v
  have hwidth : Width n := Or.inr hn
  refine (does_inRegister h.reached.sound h.left hwidth h.fresh ⟨.rax, List.not_mem_nil⟩
    fun m hm => ⟨u, hm.2.1⟩).bind fun target s3 ht => Does.inspect_bind ?_
  have hreached := h.reached.shifts ht.shifts (ne_of_fresh h.fresh)
  refine Does.emit_bind (Q := fun m => signed n (m.regs target) = wrap n (op.eval u v))
    hreached.sound ?_ ?_
  · rintro m3 hm3 ⟨m2, ⟨-, hu, hv⟩, hstays, -⟩
    -- The right operand is read where it is now, which may be a temporary since the left one was
    -- brought into its register.
    have hu3 := (hstays.holds l n u trivial hwidth.le hu).content
      (ht.shifts.sound.location ht.held)
    have hv3 := hstays.holds r n v trivial hwidth.le hv
    refine ⟨AluOp.encodable hn hv3.isSource target, _, rfl,
      Scene.stays_set (not_held_of_fresh ht.held h.fresh), ?_⟩
    simp only [Machine.regs_set_self]
    rw [signed_merge hwidth.le, signed_ofInt hwidth.le, hu3, hv3.read hwidth.le hm3.base]
  · have hfresh : s.nextValue ≤ r.index := Nat.le_trans h.fresh (Nat.le_of_lt h.lt)
    have hne : l ≠ r := by
      rintro rfl
      exact Nat.lt_irrefl _ h.lt
    refine Does.unbind_bind hreached.sound hfresh (does_rebind (hreached.unbind hfresh) ?_ h.fresh
      hwidth fun m hm => ⟨_, rfl, hm⟩)
    rw [pool_unbind _ _ hreached.sound, ht.held, if_neg fun h => hne (Option.some.inj h)]

theorem evaluates_arithmetic {op : AluOp} {title : String} {a b : Lowering ValueId}
    (hn : n = 4 ∨ n = 8) (ha : Evaluates S M a k n c x) (hb : Evaluates S M b (k + c) n d y) :
    Evaluates S M (arithmetic op title n a b) k n (c + d)
      (x.bind fun u => y.bind fun v => some (wrap n (op.eval u v))) :=
  (ha.merge (Or.inr hn) hb (merges_arithmetic hn)).note title

/-- The dividend is the sign-extended number in `%rax`. -/
theorem dividend_eq (hn : Width n) (w : Word) :
    (if signed n w < 0 then -1 else 0) * 2 ^ (8 * n) + (unsigned n w : Int) = signed n w := by
  have hnat : (unsigned n w : Int) = (w.toNat : Int) % 2 ^ (8 * n) := by
    unfold unsigned
    push_cast
    rfl
  rw [hnat]
  unfold signed wrap
  rcases hn with rfl | rfl | rfl <;> simp only [Int.bmod] <;> norm_num <;> omega

/-- `%rax` over `%rcx`, once `%rax` is sign-extended into `%rdx`. -/
theorem divide_of_signExtend {m : Machine} {u v : Int} (hn : Width n)
    (hu : signed n (m.regs .rax) = u) (hv : signed n (m.regs .rcx) = v)
    (hd : signed n (m.regs .rdx) = if u < 0 then -1 else 0) (hzero : v ≠ 0)
    (hfits : wrap n (u.tdiv v) = u.tdiv v) :
    ∃ m', m.divide n .rcx = some m' ∧ signed n (m'.regs .rax) = u.tdiv v ∧
      signed n (m'.regs .rdx) = u.tmod v ∧ m'.base = m.base ∧ m'.stack = m.stack ∧
      m'.memory = m.memory ∧ ∀ q, q ≠ .rax → q ≠ .rdx → m'.regs q = m.regs q := by
  have hdividend := dividend_eq hn (m.regs .rax)
  rw [hu, ← hd] at hdividend
  have hwrap : wrap n v = v := by rw [← hv, wrap_signed]
  unfold Machine.divide
  simp only [hdividend, hv]
  refine ⟨_, if_pos ⟨hzero, hfits⟩, ?_, ?_, rfl, rfl, rfl, ?_⟩
  · rw [Machine.regs_set_of_ne _ (by decide), Machine.regs_set_self, signed_merge hn.le,
      signed_ofInt hn.le, hfits]
  · rw [Machine.regs_set_self, signed_merge hn.le, signed_ofInt hn.le, wrap_tmod hn hwrap hzero]
  · intro q hrax hrdx
    rw [Machine.regs_set_of_ne _ hrdx, Machine.regs_set_of_ne _ hrax]

/-- The operands of a division are in their registers, and `%rdx` is free. -/
structure Dividing (s s' : State) (l r : ValueId) (c : Nat) : Prop where
  reached : Reached s s' c
  fresh : s.nextValue ≤ l.index
  lt : l.index < r.index
  dividend : s'.pool .rax = some l
  free : s'.pool .rdx = none
  divisor : s'.pool .rcx = some r

/-- The register of the quotient or the remainder is free once both operands are used up. -/
theorem Dividing.pool_unbind {l r : ValueId} {result : Reg} (h : Dividing s s' l r c)
    (hresult : result = .rax ∨ result = .rdx) : ((s'.unbind r).unbind l).pool result = none := by
  have hs := h.reached.sound
  have hfresh : s.nextValue ≤ r.index := Nat.le_trans h.fresh (Nat.le_of_lt h.lt)
  have hne : ¬some l = some r := fun heq => Nat.ne_of_lt h.lt (by rw [Option.some.inj heq])
  rw [State.pool_unbind _ _ (h.reached.unbind hfresh).sound, State.pool_unbind _ _ hs]
  rcases hresult with rfl | rfl
  · rw [h.dividend, if_neg hne, if_pos rfl]
  · simp [h.free]

/-- The operands come into the registers that a division reads. -/
theorem does_loads {α : Type} {l r : ValueId} {f : Lowering α} {T : α → State → Prop}
    {R : α → State → Machine → Prop} (hn : Width n) (h : Operands s s' l r n n c)
    (hP : ∀ m, P m → ∃ u v, S.Holds s' m l n u ∧ S.Holds s' m r n v)
    (hf : ∀ s'', Dividing s s'' l r c → Does S M s.nextValue f s'' T
      (fun m => ∃ m₀, P m₀ ∧
        (∀ u, S.Holds s' m₀ l n u → signed n (m.regs .rax) = u) ∧
        (∀ v, S.Holds s' m₀ r n v → signed n (m.regs .rcx) = v)) R) :
    Does S M s.nextValue (load l .rax >>= fun _ => evict .rdx >>= fun _ =>
      load r .rcx >>= fun _ => f) s' T P R := by
  have hne : r ≠ l := by
    rintro rfl
    exact Nat.lt_irrefl _ h.lt
  have hfresh : s.nextValue ≤ r.index := Nat.le_trans h.fresh (Nat.le_of_lt h.lt)
  refine (does_load h.reached.sound h.left hn h.fresh .rax ?_).bind fun _ s3 hs3 => ?_
  · intro m hm
    obtain ⟨u, v, hu, -⟩ := hP m hm
    exact ⟨u, hu⟩
  obtain ⟨hshifts, hl3, hrax, -⟩ := hs3
  have hr3 := hshifts.ready hne h.right
  refine (does_evict hshifts.sound .rdx _ _).bind fun _ s4 hs4 => ?_
  obtain ⟨hshifts', hrdx, hother⟩ := hs4
  have hr4 := hshifts'.ready trivial hr3
  -- Neither making `%rdx` free nor loading `%rcx` takes the dividend out of `%rax`.
  have hrax4 : s4.pool .rax = some l := by rw [hother _ (by decide), hrax]
  refine (does_load hshifts'.sound hr4 hn hfresh .rcx ?_).bind fun _ s5 hs5 => ?_
  · rintro m ⟨_, ⟨m₀, hm₀, hstays, -⟩, hstays', -⟩
    obtain ⟨u, v, -, hv⟩ := hP m₀ hm₀
    exact ⟨v, hstays'.holds r n v trivial hn.le (hstays.holds r n v trivial hn.le hv)⟩
  obtain ⟨hshifts'', hr5, hrcx, hother'⟩ := hs5
  have hrax5 : s5.pool .rax = some l := by
    rw [hother' _ (by decide) fun heq => hne (Option.some.inj (heq.symm.trans hrax4)), hrax4]
  have hrdx5 : s5.pool .rdx = none := by
    rw [← hrdx]
    exact hother' _ (by decide) fun heq => nomatch hrdx.symm.trans heq
  have hreached := ((h.reached.shifts hshifts (ne_of_fresh h.fresh)).shifts hshifts'
    fun _ _ => trivial).shifts hshifts'' (ne_of_fresh hfresh)
  refine (hf s5 ⟨hreached, h.fresh, h.lt, hrax5, hrdx5, hrcx⟩).weaken (Nat.le_refl _)
    (fun _ _ h => h) ?_ fun _ _ _ _ h => h
  rintro m5 ⟨m4, ⟨m3, ⟨m₀, hm₀, hstays, -⟩, hstays', -⟩, hstays'', -⟩
  have hstays5 := (hstays.trans hstays' hshifts.lowest hshifts'.lowest).trans hstays''
    (Int.le_trans hshifts'.lowest hshifts.lowest) hshifts''.lowest
  refine ⟨m₀, hm₀, fun u hu => ?_, fun v hv => ?_⟩
  · exact (hstays5.holds l n u trivial hn.le hu).content (hshifts''.sound.location hrax5)
  · exact (hstays5.holds r n v trivial hn.le hv).content (hshifts''.sound.location hrcx)

/-- The dividend is extended into `%rdx`, where no value is. -/
theorem does_signExtend {G : Int → Int → Prop} (hs : s.Sound) (hn : n = 4 ∨ n = 8)
    (hrdx : s.pool .rdx = none) :
    Does S M b (emit (.signExtend (n == 8))) s (fun _ s' => s' = s)
      (fun m => ∃ u v, G u v ∧ signed n (m.regs .rax) = u ∧ signed n (m.regs .rcx) = v)
      fun _ _ m => ∃ u v, G u v ∧ signed n (m.regs .rax) = u ∧ signed n (m.regs .rcx) = v ∧
        signed n (m.regs .rdx) = if u < 0 then -1 else 0 := by
  have hwidth : Width n := Or.inr hn
  have hwide : (if (n == 8) = true then 8 else 4) = n := by rcases hn with rfl | rfl <;> rfl
  refine Does.emit hs ?_
  rintro m - ⟨u, v, hG, hrax, hrcx⟩
  refine ⟨rfl, _, rfl, Scene.stays_set fun w _ hw => ?_, u, v, hG, ?_, ?_, ?_⟩
  · rw [hrdx] at hw
    cases hw
  · rw [Machine.regs_set_of_ne _ (by decide), hrax]
  · rw [Machine.regs_set_of_ne _ (by decide), hrcx]
  · rw [hwide, Machine.regs_set_self, signed_merge hwidth.le, signed_ofInt hwidth.le, hrax]
    split
    · exact wrap_neg_one hwidth
    · exact wrap_zero n

/-- A division that does not trap leaves quotient and remainder. -/
theorem does_idiv {G : Int → Int → Prop} (hs : s.Sound) (hn : n = 4 ∨ n = 8)
    (hrax : ∀ w, Before b w → s.pool .rax ≠ some w) (hrdx : s.pool .rdx = none)
    (hG : ∀ u v, G u v → v ≠ 0 ∧ wrap n (u.tdiv v) = u.tdiv v) :
    Does S M b (emit (.idiv n .rcx)) s (fun _ s' => s' = s)
      (fun m => ∃ u v, G u v ∧ signed n (m.regs .rax) = u ∧ signed n (m.regs .rcx) = v ∧
        signed n (m.regs .rdx) = if u < 0 then -1 else 0)
      fun _ _ m => ∃ u v, G u v ∧ signed n (m.regs .rax) = u.tdiv v ∧
        signed n (m.regs .rdx) = u.tmod v := by
  refine Does.emit hs ?_
  rintro m - ⟨u, v, hGuv, hu, hv, hd⟩
  obtain ⟨hzero, hfits⟩ := hG u v hGuv
  obtain ⟨m', hdivide, hquotient, hremainder, hbase, hstack, hmemory, hregs⟩ :=
    divide_of_signExtend (Or.inr hn) hu hv hd hzero hfits
  refine ⟨by rcases hn with rfl | rfl <;> rfl, m', hdivide,
    Scene.stays_of_regs hbase hstack hmemory fun q w hw hq => hregs q ?_ ?_, u, v, hGuv, hquotient,
    hremainder⟩
  · rintro rfl
    exact hrax w hw hq
  · rintro rfl
    rw [hrdx] at hq
    cases hq

section
variable {op : BinaryOp} {result : Reg}

/-- A quotient or remainder that is defined is the one in its register. -/
theorem apply_of_isSome (hop : (op = .div ∧ result = .rax) ∨ (op = .rem ∧ result = .rdx))
    {u v : Int} (h : (op.apply n u v).isSome = true) :
    (v ≠ 0 ∧ wrap n (u.tdiv v) = u.tdiv v) ∧
      op.apply n u v = some (if result = .rax then u.tdiv v else u.tmod v) := by
  rcases hop with ⟨rfl, rfl⟩ | ⟨rfl, rfl⟩
  all_goals
    simp only [BinaryOp.apply] at h ⊢
    split at h
    · next hdefined =>
        rw [if_pos hdefined]
        exact ⟨hdefined, rfl⟩
    · cases h

/-- Quotient and remainder, in the registers where the machine leaves them. -/
theorem merges_divide (hop : (op = .div ∧ result = .rax) ∨ (op = .rem ∧ result = .rdx))
    (hn : n = 4 ∨ n = 8) :
    Merges S M (fun l r => do
      load l .rax
      evict .rdx
      load r .rcx
      emit (.signExtend (n == 8))
      emit (.idiv n .rcx)
      unbind r
      unbind l
      newValue (.reg result) n) n n n (op.apply n) := by
  intro s s2 l r c h u v
  have hwidth : Width n := Or.inr hn
  refine does_loads hwidth h (fun m hm => ⟨u, v, hm.2⟩) fun s5 h5 => ?_
  have hfree : ∀ u, Before s.nextValue u → s5.pool .rax ≠ some u :=
    not_held_of_fresh h5.dividend h5.fresh
  have hextend := does_signExtend (S := S) (M := M) (b := s.nextValue)
    (G := fun u' v' => (op.apply n u' v').isSome = true ∧ u' = u ∧ v' = v)
    h5.reached.sound hn h5.free
  refine (hextend.weaken (Nat.le_refl _) (fun _ _ h => h) ?_ fun _ _ _ _ h => h).bind
    fun _ s6 h6 => ?_
  · rintro m ⟨m₀, ⟨hdefined, hu, hv⟩, hrax, hrcx⟩
    exact ⟨u, v, ⟨hdefined, rfl, rfl⟩, hrax u hu, hrcx v hv⟩
  subst h6
  refine (does_idiv h5.reached.sound hn hfree h5.free ?_).bind fun _ s7 h7 => ?_
  · rintro u' v' ⟨hdefined, -⟩
    exact (apply_of_isSome hop hdefined).1
  subst h7
  have hfresh : s.nextValue ≤ r.index := Nat.le_trans h5.fresh (Nat.le_of_lt h5.lt)
  have hreached := h5.reached.unbind hfresh
  refine Does.unbind_bind h5.reached.sound hfresh (Does.unbind_bind hreached.sound h5.fresh
    (does_result (hreached.unbind h5.fresh) (h5.pool_unbind (hop.imp (·.2) (·.2))) hwidth ?_))
  rintro m ⟨_, _, ⟨hdefined, rfl, rfl⟩, hquotient, hremainder⟩
  refine ⟨_, (apply_of_isSome hop hdefined).2, ?_⟩
  rcases hop with ⟨-, rfl⟩ | ⟨-, rfl⟩
  · exact hquotient
  · exact hremainder

theorem evaluates_divide {title : String} {a b : Lowering ValueId}
    (hop : (op = .div ∧ result = .rax) ∨ (op = .rem ∧ result = .rdx)) (hn : n = 4 ∨ n = 8)
    (ha : Evaluates S M a k n c x) (hb : Evaluates S M b (k + c) n d y) :
    Evaluates S M (divide title result n a b) k n (c + d)
      (x.bind fun u => y.bind (op.apply n u)) :=
  (ha.merge (Or.inr hn) hb (merges_divide hop hn)).note title

end

end

end LittleC.Lowering
