import LittleC.Proofs.Registers.Steps

/-! # Operators use up their operands

Every operator gives up the registers of its operands and of nothing else: behind it a register
holds a value from before or the result. -/

namespace LittleC.Lowering

open State

/-! ## Managed actions -/

/-- In state `s` the action is made of careful actions and gives what `T` says. -/
structure Manages (b : Nat) {α : Type} (a : Lowering α) (s : State) (T : α → State → Prop) :
    Prop where
  through : Through (Careful b) a s
  gives : T (a s).result (a s).state

namespace Manages

variable {α β : Type} {b k : Nat} {a : Lowering α} {f : α → Lowering β} {s : State}
  {T : α → State → Prop} {U : β → State → Prop}

theorem bind (ha : Manages b a s T) (hf : ∀ x s', T x s' → Manages b (f x) s' U) :
    Manages b (a >>= f) s U := by
  have hthen := hf _ _ ha.gives
  exact ⟨ha.through.bind hthen.through, hthen.gives⟩

theorem weaken {T' : α → State → Prop} (h : Manages b a s T) (hk : k ≤ b)
    (hT : ∀ x s', T x s' → T' x s') : Manages k a s T' :=
  ⟨h.through.mono fun _ _ ha => ha.mono hk, hT _ _ h.gives⟩

theorem pure {x : α} (hT : T x s) : Manages b (pure x) s T := ⟨.pure x s, hT⟩

theorem act (ha : Careful b s a) (hT : T (a s).result (a s).state) : Manages b a s T :=
  ⟨.act ha, hT⟩

theorem act_bind (ha : Careful b s a) (h : Manages b (f (a s).result) (a s).state U) :
    Manages b (a >>= f) s U := ⟨.bind (.act ha) h.through, h.gives⟩

theorem note_bind {f : Unit → Lowering β} {text : String} (htext : text ≠ "spill")
    (h : Manages b (f ()) s U) : Manages b (note text >>= f) s U := by
  rw [note, bind_assoc]
  refine act_bind (.inspect _) ?_
  show Manages b (ite (s.notes = true) _ _ >>= f) s U
  split
  · exact act_bind (.write fun heq => htext (Line.note.inj heq)) h
  · exact h

theorem emit_bind {f : Unit → Lowering β} {i : Instr} (h : Manages b (f ()) s U) :
    Manages b (emit i >>= f) s U := act_bind (.write nofun) h

theorem emit {i : Instr} {T : Unit → State → Prop} (hT : T () s) : Manages b (emit i) s T :=
  act (.write nofun) hT

theorem inspect_bind {g : State → α} (h : Manages b (f (g s)) s U) :
    Manages b (inspect g >>= f) s U := act_bind (.inspect g) h

theorem newLabel_bind {f : Label → Lowering β} (h : Manages b (f ⟨s.nextLabel⟩) s.labelled U) :
    Manages b (newLabel >>= f) s U := act_bind .newLabel h

theorem unbind_bind {f : Unit → Lowering β} {v : ValueId} (hv : b ≤ v.index)
    (h : Manages b (f ()) (s.unbind v) U) : Manages b (unbind v >>= f) s U :=
  act_bind (.unbind hv) h

end Manages

/-! ## Registers -/

/-- A scene in which nothing is to be seen: of actions only their states count. -/
def blank : Scene := ⟨⟨fun _ => 0, fun _ => 0, fun _ _ => none⟩,
  ⟨fun _ => 0, fun _ => 0, fun _ => false⟩, 0, 0⟩

section
variable {b n : Nat} {s : State} {v : ValueId}

theorem manages_evict (hs : s.Sound) (r : Reg) (b : Nat) :
    Manages b (evict r) s fun _ s' => Shifts All s s' ∧ s'.pool r = none ∧
      ∀ q, q ≠ r → s'.pool q = s.pool q :=
  .act (.evict r) (does_evict (S := blank) (M := fun _ => 0) hs r (fun _ => False) b).gives

theorem manages_takeReg (hs : s.Sound) {exclude : List Reg} (hexclude : ∃ q, q ∉ exclude)
    (b : Nat) :
    Manages b (takeReg exclude) s fun r s' => Shifts All s s' ∧ s'.pool r = none ∧ r ∉ exclude ∧
      ∀ q, q ≠ r → s'.pool q = s.pool q := by
  refine ⟨?_, (does_takeReg (S := blank) (M := fun _ => 0) hs hexclude (fun _ => False) b).gives⟩
  refine .bind (.act (.inspect _)) ?_
  cases hfree : s.freeReg? exclude with
  | some r =>
      simp only [inspect_apply, hfree]
      exact .pure r s
  | none =>
      simp only [inspect_apply, hfree]
      exact .bind (.act (.inspect _)) (.bind (.act (.evict _)) (.pure _ _))

theorem manages_load (hs : s.Sound) (hv : s.Ready v n) (hn : Width n) (hb : b ≤ v.index) (r : Reg) :
    Manages b (load v r) s fun _ s' => Shifts (· ≠ v) s s' ∧ s'.Ready v n ∧ s'.pool r = some v ∧
      ∀ q, q ≠ r → s.pool q ≠ some v → s'.pool q = s.pool q := by
  refine ⟨?_, (does_load (S := blank) (M := fun _ => 0) (P := fun _ => False) hs hv hn hb r
    nofun).gives⟩
  refine .bind (.act (.inspect _)) ?_
  by_cases hheld : s.pool r = some v
  · rw [inspect_apply, if_pos hheld]
    exact .pure _ _
  · rw [inspect_apply, if_neg hheld]
    refine ((manages_evict hs r b).bind (U := fun _ _ => True) fun _ s₁ h₁ => ?_).through
    obtain ⟨hshifts, hr, -⟩ := h₁
    have hv₁ := hshifts.ready (v := v) trivial hv
    refine .inspect_bind (.inspect_bind (.emit_bind (.act ?_ trivial)))
    exact .assign hb hv₁.known (hv₁.size ▸ hn) hr

theorem manages_fetch (hs : s.Sound) (hv : s.Ready v n) (hn : Width n) (hb : b ≤ v.index)
    {exclude : List Reg} (hexclude : ∃ q, q ∉ exclude) :
    Manages b (fetch v exclude) s (InReg s v n exclude) := by
  refine ⟨?_, (does_fetch (S := blank) (M := fun _ => 0) (P := fun _ => False) hs hv hn hb hexclude
    nofun).gives⟩
  refine ((manages_takeReg hs hexclude b).bind (U := fun _ _ => True) fun r s₁ h₁ => ?_).through
  have hv₁ := h₁.1.ready (v := v) trivial hv
  exact (manages_load h₁.1.sound hv₁ hn hb r).bind fun _ _ _ => .pure trivial

theorem manages_inRegister (hs : s.Sound) (hv : s.Ready v n) (hn : Width n) (hb : b ≤ v.index)
    {exclude : List Reg} (hexclude : ∃ q, q ∉ exclude) :
    Manages b (inRegister v exclude) s (InReg s v n exclude) := by
  refine ⟨?_, (does_inRegister (S := blank) (M := fun _ => 0) (P := fun _ => False) hs hv hn hb
    hexclude nofun).gives⟩
  have hfetch := (manages_fetch hs hv hn hb hexclude).through
  refine .bind (.act (.inspect _)) ?_
  simp only [valueOf, inspect_apply]
  split
  · split
    · exact hfetch
    · exact .pure _ _
  · exact hfetch

theorem manages_spillAll (hs : s.Sound) (b : Nat) :
    Manages b spillAll s fun _ s' => Shifts All s s' ∧ ∀ r, s'.pool r = none := by
  have hall : ∀ (rs : List Reg) (s : State), Through (Careful b) (rs.forM evict) s := by
    intro rs
    induction rs with
    | nil => exact fun s => .pure _ s
    | cons r rs ih => exact fun s => .bind (.act (.evict r)) (ih _)
  exact ⟨hall Reg.all s, (does_spillAll (S := blank) (M := fun _ => 0) hs (fun _ => False) b).gives⟩

end

/-! ## Who is in the registers -/

/-- What was lowered from `s` kept the values before it, and of the values since then registers hold
those in `L` only. -/
structure Since (s s' : State) (L : List ValueId) : Prop extends
    Evolves (Before s.nextValue) s s' where
  occupants : ∀ r u, s'.pool r = some u → u.index < s.nextValue ∨ u ∈ L

/-- A new value of `n` bytes came of it, and of the values since then only it is in a register. -/
structure Result (s s' : State) (v : ValueId) (n : Nat) : Prop extends Since s s' [v] where
  fresh : s.nextValue ≤ v.index
  ready : s'.Ready v n

/-- From every sound state the action gives a result of `n` bytes. -/
def Yielding (n : Nat) (a : Lowering ValueId) : Prop :=
  ∀ s : State, s.Sound → Manages s.nextValue a s fun v s' => Result s s' v n

section
variable {s s₁ s' : State} {L L' : List ValueId} {K : ValueId → Prop} {v : ValueId} {n : Nat}

namespace Since

theorem refl (hs : s.Sound) : Since s s [] := ⟨.refl hs _, fun _ _ hr => .inl (hs.known hr)⟩

/-- Values that moved were in registers before. -/
theorem shifts (h : Since s s₁ L) (h' : Shifts K s₁ s')
    (hK : ∀ u, K u ∨ (s.nextValue ≤ u.index ∧ u ∈ L)) : Since s s' L := by
  refine ⟨h.toEvolves.trans (h'.mono fun u hu => ?_), fun r u hr => ?_⟩
  · rcases hK u with hu' | ⟨hle, -⟩
    · exact hu'
    · exact absurd hu (Nat.not_lt_of_le hle)
  · rcases hK u with hu | ⟨-, hmem⟩
    · exact h.occupants r u (h'.pool_of hu hr)
    · exact .inr hmem

theorem shifts_all (h : Since s s₁ L) (h' : Shifts All s₁ s') : Since s s' L :=
  h.shifts h' fun _ => .inl trivial

theorem shifts_ne (h : Since s s₁ L) (h' : Shifts (· ≠ v) s₁ s') (hv : s.nextValue ≤ v.index)
    (hmem : v ∈ L) : Since s s' L := by
  refine h.shifts h' fun u => ?_
  by_cases hu : u = v
  · exact .inr (hu ▸ ⟨hv, hmem⟩)
  · exact .inl hu

theorem trans (h : Since s s₁ L) (h' : Since s₁ s' L') : Since s s' (L ++ L') := by
  refine ⟨h.toEvolves.trans (h'.mono fun v hv => Nat.lt_of_lt_of_le hv h.value), fun r u hr => ?_⟩
  rcases h'.occupants r u hr with hu | hu
  · rcases h.occupants r u (h'.pool_of hu hr) with hold | hmem
    · exact .inl hold
    · exact .inr (List.mem_append_left _ hmem)
  · exact .inr (List.mem_append_right _ hu)

theorem unbind (h : Since s s' L) (hv : s.nextValue ≤ v.index) (hL : ∀ u ∈ L, u = v ∨ u ∈ L') :
    Since s (s'.unbind v) L' := by
  refine ⟨h.toEvolves.trans ((evolves_unbind h.sound v).mono (ne_of_fresh hv)), fun r u hr => ?_⟩
  rcases h.occupants r u (pool_of_unbind h.sound hr) with hu | hu
  · exact .inl hu
  · rcases hL u hu with rfl | hu
    · exact absurd hr (unheld_unbind h.sound u r)
    · exact .inr hu

theorem addValue (h : Since s s' []) {l : Location} (hfree : ∀ r, l = .reg r → s'.pool r = none ∧
    Width n) : Result s (s'.addValue ⟨l, n⟩) ⟨s'.nextValue⟩ n := by
  refine ⟨⟨h.toEvolves.trans ((evolves_addValue h.sound hfree).mono fun _ hv =>
    Nat.lt_of_lt_of_le hv h.value), fun r u hr => ?_⟩, h.value, ready_addValue s' l n⟩
  rcases pool_of_addValue hr with ⟨-, rfl⟩ | hr
  · exact .inr List.mem_cons_self
  · exact .inl ((h.occupants r u hr).resolve_right List.not_mem_nil)

theorem labelled (h : Since s s' L) : Since s s'.labelled L :=
  ⟨h.toEvolves.trans (evolves_labelled h.sound _), h.occupants⟩

/-- Once every register is free, no younger value is in one. -/
theorem cleared (h : Since s s' L) (hpool : ∀ r, s'.pool r = none) : Since s s' [] :=
  ⟨h.toEvolves, fun r _ hr => nomatch (hpool r).symm.trans hr⟩

end Since

end

section
variable {s s' : State} {L : List ValueId} {v : ValueId} {r : Reg} {n w : Nat}
  {a b : Lowering ValueId}

/-! ## Results -/

theorem manages_result (h : Since s s' []) (hr : s'.pool r = none) (hn : Width n) :
    Manages s.nextValue (newValue (.reg r) n) s' fun v s'' => Result s s'' v n := by
  have hfree : ∀ q, Location.reg r = .reg q → s'.pool q = none ∧ Width n := by
    intro q hq
    cases hq
    exact ⟨hr, hn⟩
  exact .act (.newValue h.value hfree) (h.addValue hfree)

theorem manages_rebind (h : Since s s' [v]) (hv : s.nextValue ≤ v.index)
    (hr : s'.pool r = some v) (hn : Width n) :
    Manages s.nextValue (rebind v r n) s' fun v s'' => Result s s'' v n := by
  refine .unbind_bind hv (manages_result (h.unbind hv fun u hu => ?_) ?_ hn)
  · exact .inl (List.mem_singleton.mp hu)
  · rw [pool_unbind s' v h.sound, if_pos hr]

/-- An immediate or a place takes up no register. -/
theorem manages_place (h : Since s s' []) {l : Location} (hl : ∀ r, l ≠ .reg r) (n : Nat) :
    Manages s.nextValue (newValue l n) s' fun v s'' => Result s s'' v n ∧ Since s s'' [] := by
  have hfree : ∀ q, l = .reg q → s'.pool q = none ∧ Width n := fun q hq => absurd hq (hl q)
  have hresult := h.addValue hfree
  refine .act (.newValue h.value hfree) ⟨hresult, hresult.toEvolves, fun r u hr => ?_⟩
  rcases pool_of_addValue hr with ⟨hreg, -⟩ | hr
  · exact absurd hreg (hl r)
  · exact h.occupants r u hr

/-- A younger value is brought into a register. -/
theorem manages_register (h : Since s s' L) (hv : s'.Ready v n) (hn : Width n)
    (hfresh : s.nextValue ≤ v.index) (hmem : v ∈ L) {exclude : List Reg}
    (hexclude : ∃ q, q ∉ exclude) :
    Manages s.nextValue (inRegister v exclude) s' fun r s'' =>
      Since s s'' L ∧ InReg s' v n exclude r s'' :=
  (manages_inRegister h.sound hv hn hfresh hexclude).weaken (Nat.le_refl _) fun _ _ hr =>
    ⟨h.shifts_ne hr.shifts hfresh hmem, hr⟩

theorem yielding_number {value : Int} (hn : Width n) : Yielding n (number value n) := by
  intro s hs
  unfold number
  split
  · exact (manages_place (.refl hs) (l := .imm value) (fun _ h => nomatch h) n).weaken
      (Nat.le_refl _) fun _ _ h => h.1
  · refine (manages_takeReg hs ⟨.rax, List.not_mem_nil⟩ _).bind fun r s₁ h₁ => .emit_bind ?_
    exact manages_result ((Since.refl hs).shifts_all h₁.1) h₁.2.1 hn

/-! ## One operand -/

/-- The operand is brought into a register and the result takes its place. -/
theorem Yielding.bind_register {α : Type} {f : ValueId → Reg → Lowering α}
    {T : α → State → Prop} (ha : Yielding n a) (hn : Width n) (hs : s.Sound)
    (hf : ∀ v r s', Since s s' [v] → s.nextValue ≤ v.index → s'.pool r = some v →
      Manages s.nextValue (f v r) s' T) :
    Manages s.nextValue (a >>= fun v => inRegister v [] >>= f v) s T :=
  (ha s hs).bind fun v _ h₁ =>
    (manages_register h₁.toSince h₁.ready hn h₁.fresh List.mem_cons_self
      ⟨.rax, List.not_mem_nil⟩).bind fun r s₂ h₂ => hf v r s₂ h₂.1 h₁.fresh h₂.2.held

theorem manages_materialize {T : Unit → State → Prop} (c : Comparison) (r : Reg) (k : Nat)
    (hT : T () s) : Manages k (materialize c r) s T := .emit_bind (.emit hT)

theorem yielding_negate (hn : Width n) (ha : Yielding n a) : Yielding n (negate n a) :=
  fun _ hs => .note_bind (by decide) (ha.bind_register hn hs fun _ _ _ h hv hr =>
    .emit_bind (manages_rebind h hv hr hn))

theorem yielding_logicalNot (hn : Width n) (hw : Width w) (ha : Yielding w a) :
    Yielding n (logicalNot n a) := by
  intro s hs
  refine .note_bind (by decide) ((ha s hs).bind fun v s₁ h₁ => .inspect_bind ?_)
  refine (manages_register h₁.toSince h₁.ready hw h₁.fresh List.mem_cons_self
    ⟨.rax, List.not_mem_nil⟩).bind fun r s₂ h₂ => .emit_bind ?_
  refine (manages_materialize .eq r _ (T := fun _ s => s = s₂) rfl).bind fun _ s₃ h₃ => ?_
  subst h₃
  exact manages_rebind h₂.1 h₁.fresh h₂.2.held hn

theorem yielding_deref (hn : Width n) (ha : Yielding 8 a) : Yielding n (deref n a) :=
  fun _ hs => .note_bind (by decide) (ha.bind_register (.inr (.inr rfl)) hs fun _ _ _ h hv hr =>
    .emit_bind (manages_rebind h hv hr hn))

theorem yielding_addressOfTarget (ha : Yielding 8 a) : Yielding 8 (addressOfTarget a) :=
  fun _ hs => .note_bind (by decide) (ha.bind_register (.inr (.inr rfl)) hs fun _ _ _ h hv hr =>
    manages_rebind h hv hr (.inr (.inr rfl)))

/-- A place takes up no register. -/
def Placing (a : Lowering ValueId) : Prop :=
  ∀ s : State, s.Sound → Manages s.nextValue a s fun _ s' => Since s s' []

theorem yielding_addressOfPlace (ha : Placing a) : Yielding 8 (addressOfPlace a) := by
  intro s hs
  refine .note_bind (by decide) ((ha s hs).bind fun v s₁ h₁ => .inspect_bind ?_)
  refine (manages_takeReg h₁.sound ⟨.rax, List.not_mem_nil⟩ _).bind fun r s₂ h₂ => .emit_bind ?_
  exact manages_result (h₁.shifts_all h₂.1) h₂.2.1 (.inr (.inr rfl))

theorem yielding_cast (hn : Width n) (hw : Width w) (ha : Yielding w a) :
    Yielding n (cast n a) := by
  intro s hs
  refine (ha s hs).bind fun v s₁ h₁ => .inspect_bind ?_
  rw [h₁.ready.size]
  split
  · next hsame => exact .pure (hsame ▸ h₁)
  · refine .note_bind (by decide) ((manages_register h₁.toSince h₁.ready hw h₁.fresh
      List.mem_cons_self ⟨.rax, List.not_mem_nil⟩).bind fun r s₂ h₂ => ?_)
    have hrebind := manages_rebind h₂.1 h₁.fresh h₂.2.held hn
    split
    · exact .emit_bind hrebind
    · exact .emit_bind hrebind

/-! ## Two operands -/

/-- Two operands are in their places, of `n` and `w` bytes. -/
structure Both (s s' : State) (l r : ValueId) (n w : Nat) : Prop extends Since s s' [l, r] where
  left : s'.Ready l n
  right : s'.Ready r w
  fresh : s.nextValue ≤ l.index
  lt : l.index < r.index

theorem Both.fresh_right {l r : ValueId} (h : Both s s' l r n w) : s.nextValue ≤ r.index :=
  Nat.le_trans h.fresh (Nat.le_of_lt h.lt)

theorem Both.ne {l r : ValueId} (h : Both s s' l r n w) : r ≠ l := by
  rintro rfl
  exact Nat.lt_irrefl _ h.lt

theorem manages_both {α : Type} {f : ValueId → ValueId → Lowering α} {T : α → State → Prop}
    (ha : Yielding n a) (hb : Yielding w b) (hs : s.Sound)
    (hf : ∀ l r s', Both s s' l r n w → Manages s.nextValue (f l r) s' T) :
    Manages s.nextValue (a >>= fun l => b >>= fun r => f l r) s T := by
  refine (ha s hs).bind fun l s₁ h₁ => ?_
  refine ((hb s₁ h₁.sound).weaken h₁.value fun _ _ h => h).bind fun r s₂ h₂ => ?_
  exact hf l r s₂ ⟨h₁.toSince.trans h₂.toSince, h₂.toEvolves.ready h₁.ready.known h₁.ready,
    h₂.ready, h₁.fresh, Nat.lt_of_lt_of_le h₁.ready.known h₂.fresh⟩

theorem yielding_arithmetic {op : AluOp} {title : String} (htitle : title ≠ "spill")
    (hn : Width n) (ha : Yielding n a) (hb : Yielding n b) :
    Yielding n (arithmetic op title n a b) := by
  refine fun s hs => .note_bind htitle (manages_both ha hb hs fun l r s₂ h => ?_)
  refine (manages_register h.toSince h.left hn h.fresh List.mem_cons_self
    ⟨.rax, List.not_mem_nil⟩).bind fun target s₃ h₃ => .inspect_bind (.emit_bind ?_)
  refine .unbind_bind h.fresh_right (manages_rebind (h₃.1.unbind h.fresh_right ?_) h.fresh ?_ hn)
  · intro u hu
    rcases List.mem_cons.mp hu with rfl | hu
    · exact .inr List.mem_cons_self
    · exact .inl (List.mem_singleton.mp hu)
  · rw [pool_unbind _ _ h₃.1.sound, h₃.2.held, if_neg fun heq => h.ne (Option.some.inj heq).symm]

theorem yielding_divide {title : String} {result : Reg} (htitle : title ≠ "spill")
    (hresult : result = .rax ∨ result = .rdx) (hn : Width n) (ha : Yielding n a)
    (hb : Yielding n b) : Yielding n (divide title result n a b) := by
  refine fun s hs => .note_bind htitle (manages_both ha hb hs fun l r s₂ h => ?_)
  refine (manages_load h.sound h.left hn h.fresh .rax).bind fun _ s₃ h₃ => ?_
  obtain ⟨hshifts, hl, hrax, -⟩ := h₃
  have hr₃ := hshifts.ready h.ne h.right
  have h₃ := h.toSince.shifts_ne hshifts h.fresh List.mem_cons_self
  refine (manages_evict h₃.sound .rdx _).bind fun _ s₄ h₄ => ?_
  obtain ⟨hshifts', hrdx, hother⟩ := h₄
  have h₄ := h₃.shifts_all hshifts'
  have hrax₄ : s₄.pool .rax = some l := by rw [hother _ (by decide), hrax]
  refine (manages_load h₄.sound (hshifts'.ready trivial hr₃) hn h.fresh_right .rcx).bind
    fun _ s₅ h₅ => .emit_bind (.emit_bind ?_)
  obtain ⟨hshifts'', -, hrcx, hother'⟩ := h₅
  have h₅ := h₄.shifts_ne hshifts'' h.fresh_right (List.mem_cons_of_mem _ List.mem_cons_self)
  have hrax₅ : s₅.pool .rax = some l := by
    rw [hother' _ (by decide) fun heq => h.ne (Option.some.inj (heq.symm.trans hrax₄)), hrax₄]
  have hrdx₅ : s₅.pool .rdx = none := by
    rw [← hrdx]
    exact hother' _ (by decide) fun heq => nomatch hrdx.symm.trans heq
  have hright : Since s _ [l] := h₅.unbind h.fresh_right fun u hu => by
    rcases List.mem_cons.mp hu with rfl | hu
    · exact .inr List.mem_cons_self
    · exact .inl (List.mem_singleton.mp hu)
  have hleft : Since s _ [] := hright.unbind h.fresh fun u hu => .inl (List.mem_singleton.mp hu)
  refine .unbind_bind h.fresh_right (.unbind_bind h.fresh (manages_result hleft ?_ hn))
  rw [pool_unbind _ _ hright.sound, pool_unbind _ _ h₅.sound]
  rcases hresult with rfl | rfl
  · rw [hrax₅, if_neg fun heq => h.ne (Option.some.inj heq).symm, if_pos rfl]
  · simp [hrdx₅]

/-! ## Conditions -/

theorem manages_comparison (hn : Width n) (ha : Yielding n a) (hb : Yielding n b) (hs : s.Sound) :
    Manages s.nextValue (comparison a b) s fun sides s' => Since s s' [sides.2] ∧
      s'.pool sides.1 = none ∧ s.nextValue ≤ sides.2.index := by
  refine manages_both ha hb hs fun l r s₂ h => .inspect_bind ?_
  rw [h.left.size]
  refine (manages_register h.toSince h.left hn h.fresh List.mem_cons_self
    ⟨.rax, List.not_mem_nil⟩).bind fun target s₃ h₃ => .inspect_bind (.emit_bind ?_)
  refine .unbind_bind h.fresh (.pure ⟨h₃.1.unbind h.fresh fun u hu => ?_, ?_, h.fresh_right⟩)
  · rcases List.mem_cons.mp hu with rfl | hu
    · exact .inl rfl
    · exact .inr hu
  · rw [pool_unbind _ _ h₃.1.sound, h₃.2.held, if_pos rfl]

theorem Comparison.symbol_ne (q : Comparison) : q.symbol ≠ "spill" := by cases q <;> decide

theorem yielding_compare {q : Comparison} (hn : Width n) (hw : Width w) (ha : Yielding w a)
    (hb : Yielding w b) : Yielding n (compare q n a b) := by
  refine fun s hs => .note_bind (Comparison.symbol_ne q) ((manages_comparison hw ha hb hs).bind
    fun sides s₁ h₁ => ?_)
  obtain ⟨hsince, hfree, hfresh⟩ := h₁
  refine (manages_materialize q sides.1 _ (T := fun _ s => s = s₁) rfl).bind fun _ s₂ h₂ => ?_
  subst h₂
  refine .unbind_bind hfresh (manages_result (hsince.unbind hfresh fun u hu => ?_) ?_ hn)
  · exact .inl (List.mem_singleton.mp hu)
  · rw [pool_unbind _ _ hsince.sound, hfree, if_neg nofun]

/-- Comparing a value with zero uses it up. -/
theorem manages_compareZero (h : Result s s' v n) (hn : Width n) :
    Manages s.nextValue (compareZero v) s' fun _ s'' => Since s s'' [] := by
  refine .inspect_bind ?_
  rw [h.ready.size]
  refine (manages_register h.toSince h.ready hn h.fresh List.mem_cons_self
    ⟨.rax, List.not_mem_nil⟩).bind fun r s₂ h₂ => .emit_bind (.act (.unbind h.fresh) ?_)
  exact h₂.1.unbind h.fresh fun u hu => .inl (List.mem_singleton.mp hu)

theorem manages_test (hn : Width n) (ha : Yielding n a) (hs : s.Sound) :
    Manages s.nextValue (test a) s fun _ s' => Since s s' [] :=
  (ha s hs).bind fun _ _ h => manages_compareZero h hn

theorem yielding_logical {title : String} {skip : Comparison} {w' : Nat}
    (htitle : title ≠ "spill") (hn : Width n) (hw : Width w) (hw' : Width w')
    (ha : Yielding w a) (hb : Yielding w' b) : Yielding n (logical title skip n a b) := by
  intro s hs
  rw [logical_eq]
  refine .note_bind htitle ((manages_spillAll hs _).bind fun _ s₁ h₁ => ?_)
  have hsince := (Since.refl hs).shifts_all h₁.1
  have hle : s.nextValue ≤ s₁.nextValue := hsince.value
  have hskipping : Manages s.nextValue (skipping (test a) skip (test b)) s₁
      fun _ s' => Since s s' [] := by
    refine .newLabel_bind (((manages_test hw ha (hsince.labelled).sound).weaken hle
      fun _ _ h => hsince.labelled.trans h).bind fun _ s₂ h₂ => .emit_bind ?_)
    refine ((manages_test hw' hb h₂.sound).weaken h₂.value fun _ _ h => h₂.trans h).bind
      fun _ s₃ h₃ => ?_
    exact .act (.write nofun) h₃
  refine hskipping.bind fun _ s₂ h₂ => ?_
  refine (manages_takeReg h₂.sound ⟨.rax, List.not_mem_nil⟩ _).bind fun r s₃ h₃ => ?_
  refine (manages_materialize .ne r _ (T := fun _ s => s = s₃) rfl).bind fun _ s₄ h₄ => ?_
  subst h₄
  exact manages_result (h₂.shifts_all h₃.1) h₃.2.1 hn

/-! ## Calls -/

/-- The arguments are in their places. -/
def Arguments (a : Lowering (List ValueId)) : Prop :=
  ∀ s : State, s.Sound → Manages s.nextValue a s fun vs s' => Since s s' vs

theorem manages_passArg (index : Nat) (v : ValueId) (k : Nat) (s : State) :
    Manages k (passArg index v) s fun _ s' => s' = s := by
  refine .inspect_bind ?_
  split
  · exact .emit rfl
  · split
    · exact .emit rfl
    · exact .emit_bind (.emit rfl)

theorem manages_passArgs (k : Nat) (s : State) : ∀ (index : Nat) (vs : List ValueId),
    Manages k (passArgs index vs) s fun _ s' => s' = s
  | _, [] => .pure rfl
  | index, v :: vs => by
      refine (manages_passArgs k s (index + 1) vs).bind fun _ s' hs' => ?_
      subst hs'
      exact manages_passArg index v k s'

theorem manages_emit_if {α : Type} {T : α → State → Prop} {k : Nat} {p : Prop} [Decidable p]
    {i : Instr} {f : Unit → Lowering α} (h : Manages k (f ()) s T) :
    Manages k (if p then emit i >>= f else f ()) s T := by
  split
  · exact .emit_bind h
  · exact h

theorem yielding_call {callee : Symbol} {args : Lowering (List ValueId)} (hn : Width n)
    (ha : Arguments args) : Yielding n (call callee n args) := by
  intro s hs
  refine .note_bind (by decide) ((ha s hs).bind fun vs s₁ h₁ => ?_)
  refine (manages_spillAll h₁.sound _).bind fun _ s₂ h₂ => ?_
  have hsince := (h₁.shifts_all h₂.1).cleared h₂.2
  have hresult := manages_result hsince (h₂.2 .rax) hn
  refine manages_emit_if ((manages_passArgs _ s₂ 0 vs).bind fun _ s₃ h₃ => ?_)
  subst h₃
  exact manages_emit_if (.emit_bind (manages_emit_if hresult))

end

end LittleC.Lowering
