import LittleC.Proofs.Lowering.Action

/-! # Registers on demand

What the actions do that make a register free and bring a value into one. None changes what a
machine holds; values only move. -/

namespace LittleC.Lowering

open State

namespace State

/-- Values moved, but none was handed out and no string literal was met. -/
structure Shifts (K : ValueId → Prop) (s s' : State) : Prop extends Evolves K s s' where
  texts_eq : s'.texts = s.texts
  nextValue_eq : s'.nextValue = s.nextValue

section
variable {s s' s'' : State} {K L : ValueId → Prop} {v : ValueId} {r : Reg}

theorem Shifts.refl (hs : s.Sound) (K : ValueId → Prop) : Shifts K s s :=
  ⟨.refl hs K, rfl, rfl⟩

theorem Shifts.trans (h : Shifts K s s') (h' : Shifts K s' s'') : Shifts K s s'' :=
  ⟨h.toEvolves.trans h'.toEvolves, h'.texts_eq.trans h.texts_eq,
    h'.nextValue_eq.trans h.nextValue_eq⟩

theorem Shifts.weaken (h : Shifts K s s') (hL : ∀ v, L v → K v) : Shifts L s s' :=
  ⟨h.mono hL, h.texts_eq, h.nextValue_eq⟩

end

end State

/-- Every value. -/
abbrev All (_ : ValueId) : Prop := True

section
variable {S : Scene} {M : Memory} {b n : Nat} {s : State} {v : ValueId} {r : Reg}
  {P : Machine → Prop}

/-! ## Saving a register -/

theorem evict_of_none (h : s.pool r = none) : evict r s = ⟨(), [], s⟩ := by
  unfold evict
  simp only [bind_apply, inspect_apply, h]
  rfl

theorem evict_of_some (h : s.pool r = some v) :
    evict r s =
      ⟨(), .instr (.mov (s.values v).size (.reg r (s.values v).size)
          (.mem (.frame (s.temporary (s.values v).size)))) :: s.noted "spill", s.spill r v⟩ := by
  unfold evict
  simp only [bind_apply, inspect_apply, update_apply, note_apply, h, List.append_nil]
  rfl

/-- A value in a register is held by its temporary after the store. -/
theorem stays_spill (hs : s.Sound) (hr : s.pool r = some v) {m : Machine}
    (hm : S.Agrees M s m) (hfits : S.Fits (s.spill r v)) :
    S.Stays All s m (s.spill r v)
      (m.write S.world (s.values v).size (m.regs r)
        (.mem (.frame (s.temporary (s.values v).size)))) := by
  have hwidth := hs.width hr
  have hbelow := s.temporary_add_le hwidth
  have hlowest : (s.spill r v).lowest = s.temporary (s.values v).size := rfl
  have hfloor := hfits.lowest
  have hroom := hm.room
  rw [hlowest] at hfloor
  -- The store stays in the new temporary, which is below all that was in use.
  have hmemory : ∀ b, ¬Zone S.base (s.temporary (s.values v).size) s.lowest b →
      (m.write S.world (s.values v).size (m.regs r)
        (.mem (.frame (s.temporary (s.values v).size)))).memory b = m.memory b := by
    intro b hb
    apply Memory.store_of_not_covers
    intro hcovers
    apply hb
    simp only [Machine.address, hm.base] at hcovers
    exact (zone_of_covers hcovers).mono (Int.le_refl _) hbelow
  refine ⟨rfl, rfl, hmemory, ?_⟩
  intro u k x _ hk hx
  by_cases hu : u = v
  · subst hu
    obtain ⟨hsize, hcontent⟩ := hx
    rw [hs.location hr] at hcontent
    have hvalue : (s.spill r u).values u =
        ⟨.mem (.frame (s.temporary (s.values u).size)), (s.values u).size⟩ := if_pos rfl
    unfold Scene.Holds
    rw [hvalue]
    refine ⟨hsize, _, rfl, ?_, ?_⟩
    · rw [hlowest, ← hsize]
      exact apart_below (Int.le_refl _) (by omega)
    · simp only [Machine.write, Machine.address, hm.base, hsize]
      rw [Memory.signed_load_store _ _ hk]
      exact hcontent.2
  · exact hx.transfer hk (unmoved_spill hs hr hu) (evolves_spill hs hr).lowest (fun _ _ => rfl)
      fun b hb => hmemory b fun hz => hb (hz.mono hfloor (Int.le_refl _))

theorem does_evict (hs : s.Sound) (r : Reg) (P : Machine → Prop) (b : Nat) :
    Does S M b (evict r) s
      (fun _ s' => Shifts All s s' ∧ s'.pool r = none ∧ ∀ q, q ≠ r → s'.pool q = s.pool q) P
      (fun _ s' m' => ∃ m, P m ∧ S.Stays All s m s' m' ∧ m'.regs = m.regs ∧
        m'.flags = m.flags) := by
  cases hr : s.pool r with
  | none =>
      have hevict := evict_of_none hr
      refine ⟨?_, ?_, ?_, ?_⟩
      all_goals rw [hevict]
      · exact .refl hs _
      · exact labelsIn_nil _ _
      · exact ⟨.refl hs _, hr, fun _ _ => rfl⟩
      · exact fun m _ _ hP =>
          ⟨m, World.reaches_nil _ _ m, .refl s m _, m, hP, .refl s m _, rfl, rfl⟩
  | some v =>
      have hevict := evict_of_some hr
      have hevolves := evolves_spill hs hr
      refine ⟨?_, ?_, ?_, ?_⟩
      all_goals rw [hevict]
      · exact hevolves.mono fun _ _ => trivial
      · exact (labelsIn_instr _ _ _).append (labelsIn_noted _ _ _ _) (Nat.le_refl _) (Nat.le_refl _)
      · exact ⟨⟨hevolves, rfl, rfl⟩, if_pos rfl, fun _ hq => if_neg hq⟩
      · intro m hm hfits hP
        have hstays := stays_spill hs hr hm hfits
        have hencodable : (Instr.mov (s.values v).size (.reg r (s.values v).size)
            (.mem (.frame (s.temporary (s.values v).size)))).encodable = true := by
          simp [Instr.encodable, Instr.movable, Operand.fits, hs.width hr]
        refine ⟨_, (World.reaches_instr hencodable rfl _).append (labelsIn_instr 0 _ _)
          (Nat.le_refl _) (reaches_noted _ _ _ _ _), hstays.mono fun _ _ => trivial, m, hP,
          hstays, rfl, rfl⟩

theorem victim_not_mem {exclude : List Reg} (hexclude : ∃ q, q ∉ exclude)
    (h : s.freeReg? exclude = none) : s.victim exclude ∉ exclude := by
  -- As no register is free, one that is not excluded holds a value, and the search finds such a
  -- one.
  obtain ⟨q, hq⟩ := hexclude
  have hheld : (s.pool q).isSome = true := by
    rw [Option.isSome_iff_ne_none]
    exact fun hnone => hq (freeReg?_eq_none_iff.mp h q hnone)
  unfold victim
  cases hfind : Reg.all.find? fun r => (s.pool r).isSome && !exclude.contains r with
  | none =>
      have hnone := List.find?_eq_none.mp hfind q (Reg.mem_all q)
      simp [hheld, hq] at hnone
  | some r =>
      have hfound := List.find?_some hfind
      simpa using (Bool.and_eq_true_iff.mp hfound).2

theorem does_takeReg (hs : s.Sound) {exclude : List Reg} (hexclude : ∃ q, q ∉ exclude)
    (P : Machine → Prop) (b : Nat) :
    Does S M b (takeReg exclude) s
      (fun r s' => Shifts All s s' ∧ s'.pool r = none ∧ r ∉ exclude ∧
        ∀ q, q ≠ r → s'.pool q = s.pool q) P
      (fun _ s' m' => ∃ m, P m ∧ S.Stays All s m s' m' ∧ m'.regs = m.regs ∧
        m'.flags = m.flags) := by
  unfold takeReg
  refine Does.inspect_bind ?_
  cases hfree : s.freeReg? exclude with
  | some r =>
      obtain ⟨hr, hmem⟩ := pool_of_freeReg? hfree
      exact Does.pure hs ⟨.refl hs _, hr, hmem, fun _ _ => rfl⟩
        fun m hP => ⟨m, hP, .refl s m _, rfl, rfl⟩
  | none =>
      refine Does.inspect_bind ((does_evict hs _ P b).bind fun _ s' hs' => ?_)
      obtain ⟨hshifts, hr, hother⟩ := hs'
      exact Does.pure hshifts.sound ⟨hshifts, hr, victim_not_mem hexclude hfree, hother⟩
        fun _ hm => hm

/-! ## Bringing a value into a register -/

/-- A value that is read into a free register is held there. -/
theorem stays_assign (hs : s.Sound) (hr : s.pool r = none) (hv : s.Ready v n) {m : Machine}
    (hbase : m.base = S.base) :
    S.Stays All s m (s.assign v r) (m.set r n (m.read S.world n (s.values v).operand)) := by
  have hlow : (s.assign v r).lowest = s.lowest := by rw [assign_eq]
  refine ⟨rfl, rfl, fun _ _ => rfl, ?_⟩
  intro u k x _ hk hx
  by_cases hu : u = v
  · subst hu
    have hsize : k = n := hx.1.symm.trans hv.size
    subst hsize
    have hread := hx.read hk hbase
    unfold Scene.Holds
    rw [values_assign_self]
    refine ⟨hv.size, if_pos rfl, ?_⟩
    simp only [Machine.set, if_true]
    rw [signed_merge hk, hread]
  · refine hx.transfer hk (unmoved_assign hs hr hu) (Int.le_of_eq hlow) (fun q hq => ?_)
      fun _ _ => rfl
    refine if_neg ?_
    rintro rfl
    rw [hr] at hq
    cases hq

theorem does_load (hs : s.Sound) (hv : s.Ready v n) (hn : Width n) (hb : b ≤ v.index) (r : Reg)
    (hP : ∀ m, P m → ∃ x, S.Holds s m v n x) :
    Does S M b (load v r) s
      (fun _ s' => Shifts (· ≠ v) s s' ∧ s'.Ready v n ∧ s'.pool r = some v ∧
        ∀ q, q ≠ r → s.pool q ≠ some v → s'.pool q = s.pool q) P
      (fun _ s' m' => ∃ m, P m ∧ S.Stays All s m s' m' ∧ m'.flags = m.flags) := by
  have hne := ne_of_fresh hb
  unfold load
  refine Does.inspect_bind ?_
  by_cases hheld : s.pool r = some v
  · rw [if_pos hheld]
    exact Does.pure hs ⟨.refl hs _, hv, hheld, fun _ _ _ => rfl⟩
      fun m hm => ⟨m, hm, .refl s m _, rfl⟩
  · rw [if_neg hheld]
    refine (does_evict hs r P b).bind fun _ s1 hs1 => ?_
    obtain ⟨hshifts, hr, hother⟩ := hs1
    have hv1 := hshifts.ready (v := v) trivial hv
    refine Does.inspect_bind (Does.inspect_bind ?_)
    rw [hv1.size]
    -- The state says that `v` has moved only behind the load, so until then the machine is
    -- described by what the load made of it.
    refine Does.emit_bind (Q := fun m' => ∃ m m1, P m ∧ S.Stays All s m s1 m1 ∧
      m1.flags = m.flags ∧ m1.base = S.base ∧
      m' = m1.set r n (m1.read S.world n (s1.values v).operand)) hshifts.sound ?_ ?_
    · rintro m1 hm1 ⟨m, hm, hstays, -, hflags⟩
      obtain ⟨x, hx⟩ := hP m hm
      have hx1 := hstays.holds v n x trivial hn.le hx
      refine ⟨?_, _, rfl, ?_, m, m1, hm, hstays, hflags, hm1.base, rfl⟩
      · exact Instr.encodable_load hn hx1.isSource r
      · refine Scene.stays_of_regs rfl rfl rfl fun q u _ hq => if_neg ?_
        rintro rfl
        rw [hr] at hq
        cases hq
    · have hlow : (s1.assign v r).lowest = s1.lowest := by rw [assign_eq]
      have hassign := evolves_assign hshifts.sound hr hv1.known (hv1.size ▸ hn)
      have hshifts' : Shifts (· ≠ v) s1 (s1.assign v r) :=
        ⟨hassign, by rw [assign_eq], by rw [assign_eq]⟩
      refine Does.update (hassign.mono hne)
        (Scene.stays_of_state hlow fun u hu => unmoved_assign hshifts.sound hr (hne u hu))
        ⟨(hshifts.weaken fun _ _ => trivial).trans hshifts', ready_assign hv1 r, if_pos rfl,
          fun q hq hq' => ?_⟩ ?_
      · rw [pool_assign_of_ne hshifts.sound hq (hother q hq ▸ hq'), hother q hq]
      · rintro m' ⟨m, m1, hm, hstays, hflags, hbase, rfl⟩
        exact ⟨m, hm, hstays.trans (stays_assign hshifts.sound hr hv1 hbase) hshifts.lowest
          (Int.le_of_eq hlow), hflags⟩

/-- What it is to have brought a value into a register other than the excluded ones. -/
structure InReg (s : State) (v : ValueId) (n : Nat) (exclude : List Reg) (r : Reg) (s' : State) :
    Prop where
  shifts : Shifts (· ≠ v) s s'
  ready : s'.Ready v n
  held : s'.pool r = some v
  excluded : r ∉ exclude
  others : ∀ q ∈ exclude, s.pool q ≠ some v → s'.pool q = s.pool q

theorem does_fetch (hs : s.Sound) (hv : s.Ready v n) (hn : Width n) (hb : b ≤ v.index)
    {exclude : List Reg} (hexclude : ∃ q, q ∉ exclude)
    (hP : ∀ m, P m → ∃ x, S.Holds s m v n x) :
    Does S M b (fetch v exclude) s (InReg s v n exclude) P
      (fun _ s' m' => ∃ m, P m ∧ S.Stays All s m s' m' ∧ m'.flags = m.flags) := by
  unfold fetch
  refine (does_takeReg hs hexclude P b).bind fun r s1 hs1 => ?_
  obtain ⟨hshifts, hr, hmem, hother⟩ := hs1
  have hv1 := hshifts.ready (v := v) trivial hv
  refine (does_load hshifts.sound hv1 hn hb r ?_).bind fun _ s2 hs2 => ?_
  · rintro m1 ⟨m, hm, hstays, -⟩
    obtain ⟨x, hx⟩ := hP m hm
    exact ⟨x, hstays.holds v n x trivial hn.le hx⟩
  · obtain ⟨hshifts', hv2, hheld, hother'⟩ := hs2
    refine Does.pure hshifts'.sound
      ⟨(hshifts.weaken fun _ _ => trivial).trans hshifts', hv2, hheld, hmem, ?_⟩ ?_
    · intro q hq hqv
      have hne : q ≠ r := fun h => hmem (h ▸ hq)
      rw [← hother q hne] at hqv ⊢
      exact hother' q hne hqv
    · rintro m2 ⟨m1, ⟨m, hm, hstays, -, hflags⟩, hstays', hflags'⟩
      exact ⟨m, hm, hstays.trans hstays' hshifts.lowest hshifts'.lowest, hflags'.trans hflags⟩

theorem does_inRegister (hs : s.Sound) (hv : s.Ready v n) (hn : Width n) (hb : b ≤ v.index)
    {exclude : List Reg} (hexclude : ∃ q, q ∉ exclude)
    (hP : ∀ m, P m → ∃ x, S.Holds s m v n x) :
    Does S M b (inRegister v exclude) s (InReg s v n exclude) P
      (fun _ s' m' => ∃ m, P m ∧ S.Stays All s m s' m' ∧ m'.flags = m.flags) := by
  unfold inRegister
  refine Does.inspect_bind ?_
  have hfetch := does_fetch (M := M) hs hv hn hb hexclude hP
  unfold Value.reg?
  cases hloc : (s.values v).location with
  | reg r =>
      dsimp only
      by_cases hmem : r ∈ exclude
      · rw [if_pos (by simpa using hmem)]
        exact hfetch
      · rw [if_neg (by simpa using hmem)]
        exact Does.pure hs ⟨.refl hs _, hv, hv.held r hloc, hmem, fun _ _ _ => rfl⟩
          fun m hm => ⟨m, hm, .refl s m _, rfl⟩
  | _ => exact hfetch

/-! ## Saving every register -/

theorem does_forM_evict (P : Machine → Prop) (b : Nat) : ∀ (rs : List Reg) {s : State}, s.Sound →
    Does S M b (rs.forM evict) s
      (fun _ s' => Shifts All s s' ∧ (∀ r ∈ rs, s'.pool r = none) ∧
        ∀ r, s.pool r = none → s'.pool r = none) P
      (fun _ s' m' => ∃ m, P m ∧ S.Stays All s m s' m')
  | [], s, hs =>
      Does.pure hs ⟨.refl hs _, fun _ h => absurd h List.not_mem_nil, fun _ h => h⟩
        fun m hm => ⟨m, hm, .refl s m _⟩
  | r :: rs, s, hs => by
      refine (does_evict hs r P b).bind fun _ s1 hs1 => ?_
      obtain ⟨hshifts, hr, hother⟩ := hs1
      -- Saving one register takes none, so those saved before stay free.
      have hkeep : ∀ q, s.pool q = none → s1.pool q = none := by
        intro q hq
        by_cases hne : q = r
        · rw [hne, hr]
        · rw [hother q hne, hq]
      refine (does_forM_evict _ b rs hshifts.sound).weaken (Nat.le_refl b) ?_ (fun _ h => h) ?_
      · rintro _ s2 ⟨hshifts', hrs, hkeep'⟩
        refine ⟨hshifts.trans hshifts', ?_, fun q hq => hkeep' q (hkeep q hq)⟩
        intro q hq
        rcases List.mem_cons.mp hq with rfl | hq
        · exact hkeep' q hr
        · exact hrs q hq
      · rintro _ s2 m2 ⟨hshifts', -⟩ ⟨m1, ⟨m, hm, hstays, -⟩, hstays'⟩
        exact ⟨m, hm, hstays.trans hstays' hshifts.lowest hshifts'.lowest⟩

theorem does_spillAll (hs : s.Sound) (P : Machine → Prop) (b : Nat) :
    Does S M b spillAll s (fun _ s' => Shifts All s s' ∧ ∀ r, s'.pool r = none) P
      (fun _ s' m' => ∃ m, P m ∧ S.Stays All s m s' m') :=
  (does_forM_evict P b Reg.all hs).weaken (Nat.le_refl b)
    (fun _ _ h => ⟨h.1, fun r => h.2.1 r (Reg.mem_all r)⟩) (fun _ h => h) fun _ _ _ _ h => h

end

end LittleC.Lowering
