import LittleC.Proofs.Registers.Trees

/-! # How many registers a tree needs

A tree has a demand: the most registers that are in use at one time while it is computed. The
registers are handed out without a store as long as they last, so a store is written exactly when
what is taken already and the demand come to more than there are registers. -/

namespace LittleC

/-! ## Demand -/

/-- Neither a division, which needs registers of its own, nor a choice, which saves all of them. -/
def BinaryOp.isDirect : BinaryOp → Bool
  | .add | .sub | .mul | .compare _ => true
  | .div | .rem | .land | .lor => false

namespace Expr

/-- The registers that the value of an expression takes up. Constants that an instruction can hold
and named values take up none, and a conversion that keeps the size keeps the value. -/
def residency : Expr → Nat
  | number v _ => if Ty.fitsInt v then 0 else 1
  | text .. | ident .. => 0
  | call .. | unary .. | binary .. => 1
  | cast e i => if e.ty.size = i.ty.size then e.residency else 1

/-- The most registers in use while an expression of direct nodes is computed. The left operand of a
binary operator waits while the right one is computed, and is in a register in the end. -/
def demand : Expr → Nat
  | number v _ => if Ty.fitsInt v then 0 else 1
  | text .. | ident .. => 0
  | call .. => 1
  | unary .address (unary .deref p _) _ => max p.demand 1
  | unary .address _ _ => 1
  | unary .negate e _ | unary .logicalNot e _ | unary .deref e _ => max e.demand 1
  | cast e i => if e.ty.size = i.ty.size then e.demand else max e.demand 1
  | binary _ l r _ => max l.demand (max (l.residency + r.demand) (r.residency + 1))

/-- Lowering the node needs no particular register and saves none before it needs one. -/
def Direct : Expr → Prop
  | call .. => False
  | binary op _ _ _ => op.isDirect = true
  | _ => True

instance : DecidablePred Direct
  | call .. => .isFalse id
  | binary op .. => inferInstanceAs (Decidable (op.isDirect = true))
  | number .. | text .. | ident .. | unary .. | cast .. => .isTrue trivial

end Expr

/-- The line is a move to memory. -/
def Line.stores : Line → Bool
  | .instr (.mov _ _ (.mem _)) => true
  | _ => false

namespace Lowering

open State

/-- The number of registers that hold a value. -/
def State.taken (s : State) : Nat := Reg.all.countP fun r => (s.pool r).isSome

/-- The code stores a register into the frame. -/
def Saves (code : List Line) : Prop := ∃ r n offset, saveLine r n offset ∈ code

section
variable {s s' : State} {r : Reg}

theorem taken_of_empty (h : ∀ r, s.pool r = none) : s.taken = 0 := by
  simp [State.taken, h]

theorem taken_le (s : State) : s.taken ≤ 7 := List.countP_le_length

/-- Registers run out when seven are taken. -/
theorem taken_eq_iff : s.taken = 7 ↔ ∀ r, s.pool r ≠ none := by
  have hlength : s.taken = 7 ↔ s.taken = Reg.all.length := Iff.rfl
  rw [hlength, State.taken, List.countP_eq_length]
  simp [Reg.mem_all, Option.ne_none_iff_isSome]

theorem taken_congr (h : ∀ q, (s'.pool q).isSome = (s.pool q).isSome) : s'.taken = s.taken :=
  List.countP_congr fun q _ => by rw [h q]

theorem taken_succ (hr : s.pool r = none) (hr' : (s'.pool r).isSome = true)
    (h : ∀ q, q ≠ r → (s'.pool q).isSome = (s.pool q).isSome) : s'.taken = s.taken + 1 := by
  unfold State.taken
  cases r <;> simp [Reg.all, List.countP_cons, hr, hr', h] <;> omega

end

/-! ## Peaks -/

/-- Up to `p` registers are in use while the action runs: if there are as many, it writes no store
and gives what `T` says, and otherwise it writes one. -/
structure Peaks (p : Nat) {α : Type} (a : Lowering α) (s : State)
    (T : α → State → Prop) : Prop where
  fits : p ≤ 7 → ¬Saves (a s).code ∧ T (a s).result (a s).state
  saves : 7 < p → Saves (a s).code

section
variable {code rest : List Line} {l : Line}

theorem saves_append : Saves (code ++ rest) ↔ Saves code ∨ Saves rest := by
  simp only [Saves, List.mem_append, exists_or]

theorem not_saves_nil : ¬Saves [] := fun ⟨_, _, _, h⟩ => List.not_mem_nil h

theorem not_saves_line (h : l.stores = false) : ¬Saves [l] := by
  rintro ⟨r, n, offset, hl⟩
  rw [← List.mem_singleton.mp hl] at h
  cases h

end

namespace Peaks

variable {α β : Type} {p q : Nat} {a : Lowering α} {f : α → Lowering β} {s : State}
  {T : α → State → Prop} {U : β → State → Prop}

theorem of_eq (h : Peaks p a s T) (hp : p = q) : Peaks q a s T := hp ▸ h

theorem weaken {T' : α → State → Prop} (h : Peaks p a s T) (hT : ∀ x s', T x s' → T' x s') :
    Peaks p a s T' := ⟨fun hp => ⟨(h.fits hp).1, hT _ _ (h.fits hp).2⟩, h.saves⟩

/-- Actions one after the other use as many registers as the one that uses more. -/
theorem bind (ha : Peaks p a s T) (hf : ∀ x s', T x s' → Peaks q (f x) s' U) :
    Peaks (max p q) (a >>= f) s U := by
  constructor
  · intro hfits
    obtain ⟨hquiet, hT⟩ := ha.fits (by omega)
    obtain ⟨hquiet', hU⟩ := (hf _ _ hT).fits (by omega)
    exact ⟨fun h => (saves_append.mp h).elim hquiet hquiet', hU⟩
  · intro hlarge
    refine saves_append.mpr ?_
    by_cases hp : p ≤ 7
    · exact .inr ((hf _ _ (ha.fits hp).2).saves (by omega))
    · exact .inl (ha.saves (by omega))

theorem within (hp : p ≤ 7) (hcode : ¬Saves (a s).code) (hT : T (a s).result (a s).state) :
    Peaks p a s T := ⟨fun _ => ⟨hcode, hT⟩, fun h => absurd hp (Nat.not_le.mpr h)⟩

theorem quiet (hcode : ¬Saves (a s).code) (hT : T (a s).result (a s).state) : Peaks 0 a s T :=
  .within (Nat.zero_le 7) hcode hT

theorem pure {x : α} (hT : T x s) : Peaks 0 (pure x) s T := .quiet not_saves_nil hT

theorem quiet_bind (hcode : ¬Saves (a s).code) (h : Peaks p (f (a s).result) (a s).state U) :
    Peaks p (a >>= f) s U :=
  ((Peaks.quiet (T := fun x s' => x = (a s).result ∧ s' = (a s).state) hcode ⟨rfl, rfl⟩).bind
    fun x s' hx => by rw [hx.1, hx.2]; exact h).of_eq (Nat.zero_max p)

theorem note_bind {f : Unit → Lowering β} {text : String} (h : Peaks p (f ()) s U) :
    Peaks p (note text >>= f) s U := by
  have hquiet : ¬Saves (note text s).code := by
    rw [note_apply, State.noted]
    split
    · exact not_saves_line rfl
    · exact not_saves_nil
  refine quiet_bind hquiet ?_
  rwa [note_apply]

theorem inspect_bind {g : State → α} (h : Peaks p (f (g s)) s U) : Peaks p (inspect g >>= f) s U :=
  quiet_bind not_saves_nil h

theorem emit_bind {f : Unit → Lowering β} {i : Instr} (hi : (Line.instr i).stores = false)
    (h : Peaks p (f ()) s U) : Peaks p (emit i >>= f) s U := quiet_bind (not_saves_line hi) h

theorem materialize_bind {f : Unit → Lowering β} {c : Comparison} {r : Reg}
    (h : Peaks p (f ()) s U) : Peaks p (materialize c r >>= f) s U := by
  refine quiet_bind ?_ h
  rintro ⟨_, _, _, hline⟩
  simp [materialize, saveLine, bind_apply, emit_apply] at hline

theorem unbind_bind {f : Unit → Lowering β} {v : ValueId} (h : Peaks p (f ()) (s.unbind v) U) :
    Peaks p (unbind v >>= f) s U := quiet_bind not_saves_nil h

end Peaks

/-! ## Registers -/

/-- The value takes up that many registers. -/
def State.Rests (R : Nat) (s : State) (v : ValueId) : Prop :=
  R = 0 ∧ s.Unheld v ∨ R = 1 ∧ ∃ r, s.pool r = some v

section
variable {s s' s₁ : State} {v : ValueId} {n w R D : Nat}

/-- A register is handed out without a store as long as one is free. -/
theorem peaks_takeReg (s : State) :
    Peaks (s.taken + 1) (takeReg []) s fun r s' => s' = s ∧ s.pool r = none := by
  have hle := taken_le s
  unfold takeReg
  refine .inspect_bind ?_
  cases hfree : s.freeReg? [] with
  | some r =>
    have hr := (pool_of_freeReg? hfree).1
    have hlt : s.taken ≠ 7 := fun h => taken_eq_iff.mp h r hr
    exact .within (by omega) not_saves_nil ⟨rfl, hr⟩
  | none =>
    have hheld : ∀ r, s.pool r ≠ none := fun r hr =>
      absurd (freeReg?_eq_none_iff.mp hfree r hr) List.not_mem_nil
    have hall := taken_eq_iff.mpr hheld
    obtain ⟨v, hv⟩ := Option.ne_none_iff_exists'.mp (hheld (s.victim []))
    have hsaves : Saves (evict (s.victim []) s).code := by
      rw [evict_of_some hv]
      exact ⟨_, _, _, List.mem_cons_self⟩
    exact .inspect_bind ⟨fun h => absurd h (by omega), fun _ => saves_append.mpr (.inl hsaves)⟩

/-- Loading into a free register needs no store. -/
theorem peaks_load {r : Reg} (hr : s.pool r = none) : Peaks 0 (load v r) s fun _ _ => True := by
  unfold load
  refine .inspect_bind ?_
  rw [hr, if_neg nofun]
  refine .quiet_bind ?_ ?_
  · rw [evict_of_none hr]
    exact not_saves_nil
  · exact .inspect_bind (.inspect_bind (.emit_bind rfl (.quiet not_saves_nil trivial)))

/-- Bringing a value into a register takes one up if the value is in none. -/
theorem peaks_inRegister (hs : s.Sound) (hv : s.Ready v n) (hrests : s.Rests R v) :
    Peaks (s.taken + (1 - R)) (inRegister v []) s fun _ _ => True := by
  unfold inRegister
  refine .inspect_bind ?_
  unfold Value.reg?
  rcases hrests with ⟨rfl, hunheld⟩ | ⟨rfl, r, hr⟩
  · have hfetch : Peaks (s.taken + 1) (fetch v []) s fun _ _ => True :=
      ((peaks_takeReg s).bind (U := fun _ _ => True) fun r s' ⟨hs', hr⟩ =>
        (((peaks_load (hs' ▸ hr)).bind fun _ _ _ => .pure trivial).of_eq (Nat.max_self 0))).of_eq
          (Nat.max_zero _)
    cases hloc : (s.values v).location with
    | reg r => exact absurd (hv.held r hloc) (hunheld r)
    | _ => exact hfetch
  · rw [hs.location hr]
    exact .within (taken_le s) not_saves_nil trivial

theorem peaks_bind_register {α : Type} {f : Reg → Lowering α} {T : α → State → Prop} (hs : s.Sound)
    (hv : s.Ready v n) (hrests : s.Rests R v) (hf : ∀ r s', Peaks 0 (f r) s' T) :
    Peaks (s.taken + (1 - R)) (inRegister v [] >>= f) s T :=
  ((peaks_inRegister hs hv hrests).bind fun r s' _ => hf r s').of_eq (Nat.max_zero _)

theorem peaks_newValue (l : Location) (n : Nat) (s : State) :
    Peaks 0 (newValue l n) s fun v s' => ∀ r, l = .reg r → s'.pool r = some v := by
  refine .quiet not_saves_nil fun r hr => ?_
  subst hr
  exact if_pos rfl

/-- A result in a register takes up one. -/
theorem peaks_result (r : Reg) (n : Nat) (s : State) :
    Peaks 0 (newValue (.reg r) n) s fun v s' => s'.Rests 1 v :=
  (peaks_newValue (.reg r) n s).weaken fun _ _ h => .inr ⟨rfl, r, h r rfl⟩

/-- A value in no register takes up none. -/
theorem needs_unheld (hs : s.Sound) (l : Location) (hl : ∀ r, l ≠ .reg r) (n : Nat) :
    Peaks (s.taken + 0) (newValue l n) s fun v s' => s'.Rests 0 v := by
  refine .within (taken_le s) not_saves_nil (.inl ⟨rfl, fun r hr => ?_⟩)
  rcases pool_of_addValue hr with ⟨hreg, -⟩ | hr
  · exact hl r hreg
  · exact Nat.lt_irrefl _ (hs.known hr)

theorem peaks_rebind (v : ValueId) (r : Reg) (n : Nat) (s : State) :
    Peaks 0 (rebind v r n) s fun v s' => s'.Rests 1 v := .unbind_bind (peaks_result r n _)

end

/-! ## Operands -/

/-- A new value came of it that takes up `R` registers, and what was in registers is there still. -/
structure Adds (R : Nat) (s s' : State) (v : ValueId) (n : Nat) : Prop extends Result s s' v n where
  steady : ∀ r u, s.pool r = some u → s'.pool r = some u
  rests : s'.Rests R v

/-- The action gives a value of `n` bytes that takes up `R` registers, and needs `D` meanwhile. -/
structure Needs (n D R : Nat) (a : Lowering ValueId) : Prop where
  yielding : Yielding n a
  peaks : ∀ s : State, s.Sound → Peaks (s.taken + D) a s fun v s' => s'.Rests R v

section
variable {s s' s₁ : State} {v : ValueId} {n w R R' D D' : Nat} {a b : Lowering ValueId}

/-- Of the registers since then only the result's is taken up. -/
theorem Adds.taken (h : Adds R s s' v n) (hs : s.Sound) : s'.taken = s.taken + R := by
  have hold : ∀ r u, s'.pool r = some u → u = v ∨ s.pool r = some u := by
    intro r u hr
    rcases h.occupants r u hr with hu | hu
    · exact .inr (h.toEvolves.pool_of hu hr)
    · exact .inl (List.mem_singleton.mp hu)
  have hsame : ∀ q, s'.pool q ≠ some v → (s'.pool q).isSome = (s.pool q).isSome := by
    intro q hq
    cases hpool : s.pool q with
    | some u => rw [h.steady q u hpool]
    | none =>
      cases hpool' : s'.pool q with
      | none => rfl
      | some u =>
        rcases hold q u hpool' with rfl | hu
        · exact absurd hpool' hq
        · cases hpool.symm.trans hu
  rcases h.rests with ⟨rfl, hunheld⟩ | ⟨rfl, r, hr⟩
  · exact taken_congr fun q => hsame q (hunheld q)
  · refine taken_succ (r := r) ?_ (by rw [hr]; rfl) fun q hq => hsame q fun hv => ?_
    · cases hpool : s.pool r with
      | none => rfl
      | some u =>
        have hu : u = v := Option.some.inj ((h.steady r u hpool).symm.trans hr)
        exact absurd (hs.known hpool) (Nat.not_lt.mpr (hu ▸ h.fresh))
    · exact hq (h.sound.injective hv hr)

theorem Needs.adds (ha : Needs n D R a) (hs : s.Sound) :
    Peaks (s.taken + D) a s fun v s' => Adds R s s' v n := by
  obtain ⟨hthrough, hresult⟩ := ha.yielding s hs
  have hpeaks := ha.peaks s hs
  refine ⟨fun hp => ?_, hpeaks.saves⟩
  obtain ⟨hquiet, hrests⟩ := hpeaks.fits hp
  refine ⟨hquiet, hresult, fun r u hr => ?_, hrests⟩
  rcases (hthrough.leaves hs).stores r u (hs.known hr) hr with hr' | ⟨offset, -, hline⟩
  · exact hr'
  · exact absurd ⟨r, _, offset, hline⟩ hquiet

/-- A value that waits takes up what it took up. -/
theorem Adds.rests_of_known {l : ValueId} (h : Adds R s s' v n) (hl : l.index < s.nextValue)
    (hrests : s.Rests R' l) : s'.Rests R' l := by
  rcases hrests with ⟨hR, hunheld⟩ | ⟨hR, r, hr⟩
  · exact .inl ⟨hR, (h.toEvolves.unmoved hl hunheld).unheld hunheld⟩
  · exact .inr ⟨hR, r, h.steady r l hr⟩

theorem State.Rests.le {s : State} (h : s.Rests R v) : R ≤ 1 := by
  rcases h with ⟨rfl, -⟩ | ⟨rfl, -⟩
  · exact Nat.zero_le 1
  · exact Nat.le_refl 1

theorem Adds.bind_register {α : Type} {f : Reg → Lowering α} {T : α → State → Prop}
    (h : Adds R s s' v n) (hs : s.Sound) (hf : ∀ r s'', Peaks 0 (f r) s'' T) :
    Peaks (s.taken + 1) (inRegister v [] >>= f) s' T := by
  have htaken := h.taken hs
  have hR := h.rests.le
  exact (peaks_bind_register h.sound h.ready h.rests hf).of_eq (by omega)

theorem Needs.bind {α : Type} {f : ValueId → Lowering α} {T : α → State → Prop} {k : Nat}
    (ha : Needs n D R a) (hs : s.Sound)
    (hf : ∀ v s', Adds R s s' v n → Peaks (s.taken + k) (f v) s' T) :
    Peaks (s.taken + max D k) (a >>= f) s T :=
  ((ha.adds hs).bind hf).of_eq (Nat.add_max_add_left _ _ _)

/-! ## Operators -/

theorem needs_number {value : Int} (hn : Width n) :
    Needs n (if Ty.fitsInt value then 0 else 1) (if Ty.fitsInt value then 0 else 1)
      (number value n) := by
  refine ⟨yielding_number hn, fun s hs => ?_⟩
  unfold number
  split
  · exact needs_unheld hs (.imm value) nofun n
  · exact ((peaks_takeReg s).bind fun r s' _ =>
      .emit_bind rfl (peaks_result r n s')).of_eq (Nat.max_zero _)

theorem needs_negate (hn : Width n) (ha : Needs n D R a) : Needs n (max D 1) 1 (negate n a) :=
  ⟨yielding_negate hn ha.yielding, fun _ hs => .note_bind (ha.bind hs fun v _ h =>
    h.bind_register hs fun r s => .emit_bind rfl (peaks_rebind v r n s))⟩

theorem needs_deref (hn : Width n) (ha : Needs 8 D R a) : Needs n (max D 1) 1 (deref n a) :=
  ⟨yielding_deref hn ha.yielding, fun _ hs => .note_bind (ha.bind hs fun v _ h =>
    h.bind_register hs fun r s => .emit_bind rfl (peaks_rebind v r n s))⟩

theorem needs_addressOfTarget (ha : Needs 8 D R a) : Needs 8 (max D 1) 1 (addressOfTarget a) :=
  ⟨yielding_addressOfTarget ha.yielding, fun _ hs => .note_bind (ha.bind hs fun v _ h =>
    h.bind_register hs fun r s => peaks_rebind v r pointerSize s)⟩

theorem needs_logicalNot (hn : Width n) (hw : Width w) (ha : Needs w D R a) :
    Needs n (max D 1) 1 (logicalNot n a) :=
  ⟨yielding_logicalNot hn hw ha.yielding, fun _ hs => .note_bind (ha.bind hs fun v _ h =>
    .inspect_bind (h.bind_register hs fun r s => .emit_bind rfl
      (.materialize_bind (peaks_rebind v r n s))))⟩

/-- The place itself is not loaded. -/
theorem needs_addressOfPlace {place : Lowering ValueId} (hplace : Placing place)
    (hquiet : ∀ s, ¬Saves (place s).code ∧ (place s).state.pool = s.pool) :
    Needs 8 1 1 (addressOfPlace place) := by
  refine ⟨yielding_addressOfPlace hplace, fun s hs => .note_bind (.quiet_bind (hquiet s).1 ?_)⟩
  have htaken : (place s).state.taken = s.taken := taken_congr fun q => by rw [(hquiet s).2]
  rw [← htaken]
  exact .inspect_bind (((peaks_takeReg _).bind fun r s' _ =>
    .emit_bind rfl (peaks_result r 8 s')).of_eq (Nat.max_zero _))

theorem needs_cast (hn : Width n) (hw : Width w) (ha : Needs w D R a) :
    Needs n (if w = n then D else max D 1) (if w = n then R else 1) (cast n a) := by
  refine ⟨yielding_cast hn hw ha.yielding, fun s hs => ?_⟩
  by_cases hsame : w = n
  · rw [if_pos hsame, if_pos hsame]
    refine (ha.bind (k := 0) hs fun v s₁ h => .inspect_bind ?_).of_eq (by rw [Nat.max_zero])
    rw [h.ready.size, if_pos hsame]
    exact .within (taken_le s) not_saves_nil h.rests
  · rw [if_neg hsame, if_neg hsame]
    refine ha.bind hs fun v s₁ h => .inspect_bind ?_
    rw [h.ready.size, if_neg hsame]
    refine .note_bind (h.bind_register hs fun r s₂ => ?_)
    split
    · exact .emit_bind rfl (peaks_rebind v r n s₂)
    · exact .emit_bind rfl (peaks_rebind v r n s₂)

/-- The left operand waits for the right one and is brought into a register behind it. -/
theorem peaks_both {α : Type} {f : ValueId → ValueId → Lowering α} {T : α → State → Prop}
    (ha : Needs n D R a) (hb : Needs w D' R' b) (hs : s.Sound)
    (hf : ∀ l r s', s'.Sound → s'.Ready l n → s'.Rests R l →
      Peaks (s'.taken + (1 - R)) (f l r) s' T) :
    Peaks (s.taken + max D (max (R + D') (R' + 1))) (a >>= fun l => b >>= fun r => f l r) s T := by
  refine ha.bind hs fun l s₁ h₁ => ?_
  have htaken₁ := h₁.taken hs
  have hR := h₁.rests.le
  refine ((hb.adds h₁.sound).bind (q := s.taken + (R' + 1)) fun r s₂ h₂ => ?_).of_eq (by omega)
  have htaken₂ := h₂.taken h₁.sound
  exact (hf l r s₂ h₂.sound (h₂.toEvolves.ready h₁.ready.known h₁.ready)
    (h₂.rests_of_known h₁.ready.known h₁.rests)).of_eq (by omega)

theorem needs_arithmetic {op : AluOp} {title : String} (htitle : title ≠ "spill") (hn : Width n)
    (ha : Needs n D R a) (hb : Needs n D' R' b) :
    Needs n (max D (max (R + D') (R' + 1))) 1 (arithmetic op title n a b) :=
  ⟨yielding_arithmetic htitle hn ha.yielding hb.yielding, fun _ hs =>
    .note_bind (peaks_both ha hb hs fun l _ _ hs' hl hrests =>
      peaks_bind_register hs' hl hrests fun target _ =>
        .inspect_bind (.emit_bind rfl (.unbind_bind (peaks_rebind l target n _))))⟩

theorem peaks_comparison (ha : Needs n D R a) (hb : Needs w D' R' b) (hs : s.Sound) :
    Peaks (s.taken + max D (max (R + D') (R' + 1))) (comparison a b) s fun _ _ => True :=
  peaks_both ha hb hs fun _ _ _ hs' hl hrests => .inspect_bind (peaks_bind_register hs' hl hrests
    fun _ _ => .inspect_bind (.emit_bind rfl (.unbind_bind (.pure trivial))))

theorem needs_compare {q : Comparison} (hn : Width n) (hw : Width w) (ha : Needs w D R a)
    (hb : Needs w D' R' b) : Needs n (max D (max (R + D') (R' + 1))) 1 (compare q n a b) :=
  ⟨yielding_compare hn hw ha.yielding hb.yielding, fun _ hs =>
    .note_bind (((peaks_comparison ha hb hs).bind fun sides _ _ =>
      .materialize_bind (.unbind_bind (peaks_result sides.1 n _))).of_eq (Nat.max_zero _))⟩

end

/-! ## Trees -/

section
variable {t : SymbolTable}

theorem needs_binary {op : BinaryOp} {n l r : Ty} {a b : Lowering ValueId} {D R D' R' : Nat}
    (hop : op.isDirect = true) (h : op.Operands n l r) (ha : Needs l.size D R a)
    (hb : Needs r.size D' R' b) :
    Needs n.size (max D (max (R + D') (R' + 1))) 1 (op.lower n.size a b) := by
  cases op with
  | add =>
      have hu := BinaryOp.uniform_of_operands h (by simp)
      exact needs_arithmetic (by decide) (.inr hu.wide) (hu.leftSize ▸ ha) (hu.rightSize ▸ hb)
  | sub =>
      have hu := BinaryOp.uniform_of_operands h (by simp)
      exact needs_arithmetic (by decide) (.inr hu.wide) (hu.leftSize ▸ ha) (hu.rightSize ▸ hb)
  | mul =>
      have hu := BinaryOp.uniform_of_operands h (by simp)
      exact needs_arithmetic (by decide) (.inr hu.wide) (hu.leftSize ▸ ha) (hu.rightSize ▸ hb)
  | compare q =>
      obtain ⟨rfl, hl, hr, -, hsize⟩ := h
      exact needs_compare (Or.inr (Or.inl rfl)) (Ty.width_size hl) ha (hsize ▸ hb)
  | div | rem | land | lor => cases hop

/-- A tree of direct nodes needs its demand and gives a value of its residency. -/
theorem needs_expr : ∀ e : Expr, e.Every (Expr.WellFormed t) → e.Every Expr.Direct →
    Needs e.ty.size e.demand e.residency (e.lower t)
  | .number v i, he, _ => by
      rw [Expr.demand, Expr.residency]
      exact needs_number (.inr (Ty.IsWide.size (Expr.every_number.mp he).1))
  | .text string i, he, _ => ⟨yielding_expr _ he, fun s hs => .quiet_bind not_saves_nil
      (needs_unheld (evolves_interned hs string All).sound (.mem (.literal ⟨s.nextLabel⟩)) nofun _)⟩
  | .ident x i, he, _ => ⟨yielding_expr _ he, fun s hs =>
      needs_unheld hs (.mem (t.symbol x).home) nofun _⟩
  | .call f args i, _, hd => (Expr.every_call.mp hd).1.elim
  | .unary .negate e i, he, hd => by
      obtain ⟨⟨⟨hwide, hty⟩, -⟩, hsub⟩ := Expr.every_unary.mp he
      have h := needs_expr e hsub (Expr.every_unary.mp hd).2
      rw [hty] at h
      exact needs_negate (.inr hwide.size) h
  | .unary .logicalNot e i, he, hd => by
      obtain ⟨⟨⟨hty, hoperand, -⟩, -⟩, hsub⟩ := Expr.every_unary.mp he
      have h := needs_expr e hsub (Expr.every_unary.mp hd).2
      refine needs_logicalNot ?_ (Ty.width_size hoperand) h
      rw [show (Expr.unary .logicalNot e i).ty = .int from hty]
      exact .inr (.inl rfl)
  | .unary .deref e i, he, hd => by
      obtain ⟨⟨⟨hpointer, hty⟩, -⟩, hsub⟩ := Expr.every_unary.mp he
      have h := needs_expr e hsub (Expr.every_unary.mp hd).2
      rw [Ty.size_of_isDataPointer hpointer] at h
      have hscalar : i.ty.isScalar = true := by rw [hty]; rfl
      exact needs_deref (Ty.width_size hscalar) h
  | .unary .address e i, he, hd => by
      obtain ⟨⟨haddress, -⟩, hnode⟩ := Expr.every_unary.mp he
      have hsize : i.ty.size = 8 := Ty.size_of_isDataPointer haddress.isDataPointer_address
      show Needs i.ty.size _ _ _
      rw [hsize]
      rcases operand_of_address he with ⟨x, j, rfl⟩ | ⟨string, j, rfl⟩ | ⟨p, j, rfl⟩
      · exact needs_addressOfPlace (placing_ident _ _) fun s => ⟨not_saves_nil, rfl⟩
      · exact needs_addressOfPlace (fun _ hs => (manages_text string _ hs).weaken (Nat.le_refl _)
          fun _ _ h => h.2) fun s => ⟨not_saves_nil, rfl⟩
      · obtain ⟨⟨⟨hpointer, -⟩, -⟩, hsub⟩ := Expr.every_unary.mp hnode
        have hdirect := (Expr.every_unary.mp (Expr.every_unary.mp hd).2).2
        have h := needs_expr p hsub hdirect
        rw [Ty.size_of_isDataPointer hpointer] at h
        exact needs_addressOfTarget h
  | .cast e i, he, hd => by
      obtain ⟨⟨hcanonical, -⟩, hsub⟩ := Expr.every_cast.mp he
      obtain ⟨hoperand, hresult⟩ := hcanonical.isScalar_cast
      exact needs_cast (Ty.width_size hresult) (Ty.width_size hoperand)
        (needs_expr e hsub (Expr.every_cast.mp hd).2)
  | .binary op l r i, he, hd => by
      obtain ⟨⟨hcanonical, -⟩, hl, hr⟩ := Expr.every_binary.mp he
      obtain ⟨hop, hdl, hdr⟩ := Expr.every_binary.mp hd
      exact needs_binary hop hcanonical (needs_expr l hl hdl) (needs_expr r hr hdr)
termination_by e => SizeOf.sizeOf e

/-! ## Main statement -/

/-- Lowered while no register is taken, an accepted tree of direct nodes stores a register exactly
when it demands more than the seven there are. -/
theorem saves_iff_demand {e : Expr} {s : State} (he : e.Built t) (herror : e.hasError = false)
    (hdirect : e.Every Expr.Direct) (hs : ∀ r, s.pool r = none) :
    Saves (e.lower t s).code ↔ 7 < e.demand := by
  have hneeds := needs_expr e (he.every_wellFormed herror) hdirect
  have hpeaks := hneeds.peaks s (sound_of_empty hs)
  rw [taken_of_empty hs, Nat.zero_add] at hpeaks
  constructor
  · intro hsaves
    by_contra hle
    exact (hpeaks.fits (Nat.le_of_not_lt hle)).1 hsaves
  · exact hpeaks.saves

end

/-- Sums of seven and of eight negated variables, nested to the right: all of them wait in registers
for the innermost. -/
theorem saves_iff_demand_nested :
    let t : SymbolTable := ⟨[.fresh "x" .int], [], []⟩
    let leaf := (Typing.negate (Expr.ofSymbol t ⟨0⟩)).node
    let sum := fun n => Nat.repeat (fun e => (Typing.binary .add leaf e).node) n leaf
    ((sum 6).demand = 7 ∧ ¬Saves ((sum 6).lower t (.start true)).code) ∧
      (sum 7).demand = 8 ∧ Saves ((sum 7).lower t (.start true)).code := by
  intro t leaf sum
  have hleaf : leaf.Built t := .negate (.ident ⟨0⟩)
  have hsum : ∀ n, (sum n).Built t := fun n => by
    induction n with
    | zero => exact hleaf
    | succ n ih => exact .binary .add hleaf ih
  have hseven : (sum 6).demand = 7 := by decide
  have height : (sum 7).demand = 8 := by decide
  have hdirect : ∀ n ∈ (sum 6).subexprs ++ (sum 7).subexprs, n.Direct := by decide
  obtain ⟨hdirect, hdirect'⟩ := List.forall_mem_append.mp hdirect
  have hfits := saves_iff_demand (s := .start true) (hsum 6) (by decide) hdirect fun _ => rfl
  have hspills := saves_iff_demand (s := .start true) (hsum 7) (by decide) hdirect' fun _ => rfl
  rw [hseven] at hfits
  rw [height] at hspills
  exact ⟨⟨hseven, fun h => absurd (hfits.mp h) (by decide)⟩, height, hspills.mpr (by decide)⟩

end Lowering

end LittleC
