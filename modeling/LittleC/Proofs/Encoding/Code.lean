import LittleC.Proofs.Encoding.Form
import LittleC.Proofs.Lowering.Evolution

/-! # Forms of written code

One relation says of an action that its code has the forms in which code is written, wherever the
values that it is given are. Their sizes are known, as a register is named at the size of the value
in it. -/

namespace LittleC.Lowering

/-- What is known of a value: a property of its size, and whether it is stored, so that it is no
constant. -/
structure Fact where
  value : ValueId
  size : Nat → Prop
  stored : Bool

namespace Fact

def sized (v : ValueId) (n : Nat) : Fact := ⟨v, (· = n), false⟩

def place (v : ValueId) (n : Nat) : Fact := ⟨v, (· = n), true⟩

def wide (W : Nat → Prop) (v : ValueId) : Fact := ⟨v, W, false⟩

end Fact

/-- The value was handed out and is as the fact says. -/
structure State.Holds (s : State) (k : Fact) : Prop where
  known : k.value.index < s.nextValue
  size : k.size (s.values k.value).size
  stored : k.stored = true → (s.values k.value).isImm = false

/-- All that is or was in a register has a size in `W`, and all constants are small. -/
structure State.Coded (W : Nat → Prop) (s : State) : Prop where
  located : ∀ {v r}, (s.values v).location = .reg r → W (s.values v).size
  small : ∀ {v x}, (s.values v).location = .imm x → Ty.fitsInt x = true
  held : ∀ {r v}, s.pool r = some v → s.Holds (.wide W v)

/-- What is known of the value lets it into a register. -/
def Loadable (W : Nat → Prop) (known : List Fact) (v : ValueId) : Prop :=
  ∃ k ∈ known, k.value = v ∧ ∀ n, k.size n → W n

/-- What an action that started in `s` leaves: what held of values still does, and so do the facts
that it gives. -/
structure Emitted (W : Nat → Prop) {α : Type} (s : State) (gives : α → List Fact) (x : Lowered α) :
    Prop where
  lines : ∀ l ∈ x.code, l.Form W
  coded : x.state.Coded W
  kept : ∀ k, s.Holds k → x.state.Holds k
  given : ∀ k ∈ gives x.result, x.state.Holds k

/-- The action writes code of the known forms, as long as the facts in `known` hold. -/
def Emits (W : Nat → Prop) {α : Type} (known : List Fact) (a : Lowering α) (gives : α → List Fact) :
    Prop :=
  ∀ s : State, s.Coded W → (∀ k ∈ known, s.Holds k) → Emitted W s gives (a s)

section
variable {W : Nat → Prop} {s s' : State} {v : ValueId} {k : Fact} {r : Reg} {n : Nat}
  {known : List Fact} {α β : Type} {gives : α → List Fact} {gives' : β → List Fact}

/-! ## Changes of the state -/

theorem State.Holds.sized (h : s.Holds k) : s.Holds (.sized k.value (s.values k.value).size) :=
  ⟨h.known, rfl, nofun⟩

theorem Loadable.holds (h : Loadable W known v) (hknown : ∀ k ∈ known, s.Holds k) :
    s.Holds (.wide W v) := by
  obtain ⟨k, hk, rfl, hsize⟩ := h
  exact ⟨(hknown k hk).known, hsize _ (hknown k hk).size, nofun⟩

theorem Loadable.sized (hn : W n) : Loadable W (.sized v n :: known) v :=
  ⟨.sized v n, List.mem_cons_self, rfl, fun _ h => h ▸ hn⟩

theorem Loadable.wide : Loadable W (.wide W v :: known) v :=
  ⟨.wide W v, List.mem_cons_self, rfl, fun _ h => h⟩

theorem Loadable.cons (h : Loadable W known v) : Loadable W (k :: known) v := by
  obtain ⟨k', hk', hrest⟩ := h
  exact ⟨k', List.mem_cons_of_mem _ hk', hrest⟩

theorem State.coded_of_empty (hvalues : ∀ v, (s.values v).location = .imm 0)
    (hpool : ∀ r, s.pool r = none) : s.Coded W := by
  refine ⟨?_, ?_, ?_⟩
  · intro v r hlocation
    cases (hvalues v).symm.trans hlocation
  · intro v x hlocation
    cases (hvalues v).symm.trans hlocation
    decide
  · intro r v hr
    cases (hpool r).symm.trans hr

/-- The operand of a value can be read at the size of the value. -/
theorem State.Coded.operand (h : s.Coded W) (v : ValueId) :
    (s.values v).operand.Suits (s.values v).size := by
  unfold Value.operand
  split
  · next x hlocation => exact .imm (h.small hlocation)
  · exact .mem _
  · exact .reg _

/-- A change that keeps all sizes, makes no constants and brings only values of sizes in `W` into
registers. -/
theorem State.Coded.change (h : s.Coded W) (hnext : s'.nextValue = s.nextValue)
    (hsize : ∀ v, (s'.values v).size = (s.values v).size)
    (hlocation : ∀ v, (s'.values v).location = (s.values v).location ∨
      (s'.values v).isImm = false ∧ (∀ r, (s'.values v).location = .reg r → W (s.values v).size))
    (hheld : ∀ r v, s'.pool r = some v → s.pool r = some v ∨ s.Holds (.wide W v)) :
    s'.Coded W ∧ ∀ k, s.Holds k → s'.Holds k := by
  have hkept : ∀ k, s.Holds k → s'.Holds k := by
    intro k hk
    refine ⟨?_, ?_, ?_⟩
    · rw [hnext]
      exact hk.known
    · rw [hsize]
      exact hk.size
    · intro hstored
      rcases hlocation k.value with hsame | ⟨hnew, -⟩
      · have himm := hk.stored hstored
        rwa [Value.isImm, hsame]
      · exact hnew
  refine ⟨⟨?_, ?_, ?_⟩, hkept⟩
  · intro v r hv
    rw [hsize]
    rcases hlocation v with hsame | ⟨-, hnew⟩
    · exact h.located (hsame.symm.trans hv)
    · exact hnew r hv
  · intro v x hv
    rcases hlocation v with hsame | ⟨hnew, -⟩
    · exact h.small (hsame.symm.trans hv)
    · rw [Value.isImm, hv] at hnew
      cases hnew
  · intro r v hr
    rcases hheld r v hr with hold | hwide
    · exact hkept _ (h.held hold)
    · exact hkept _ hwide

/-- A new value changes nothing about the values before it. -/
theorem State.Holds.addValue (h : s.Holds k) (value : Value) : (s.addValue value).Holds k := by
  have hsame := s.values_addValue_of_lt value h.known
  refine ⟨?_, ?_, ?_⟩
  · rw [State.nextValue_addValue]
    exact Nat.lt_succ_of_lt h.known
  · rw [hsame]
    exact h.size
  · rw [hsame]
    exact h.stored

/-- The facts about a new value are those that it was made with. -/
theorem State.holds_addValue {value : Value} (hvalue : k.value = ⟨s.nextValue⟩)
    (hsize : k.size value.size) (hstored : k.stored = true → value.isImm = false) :
    (s.addValue value).Holds k := by
  refine ⟨?_, ?_, ?_⟩
  · rw [hvalue, State.nextValue_addValue]
    exact Nat.lt_succ_self _
  · rw [hvalue, State.values_addValue]
    exact hsize
  · rw [hvalue, State.values_addValue]
    exact hstored

/-- What gives up registers brings no value into one. -/
theorem State.held_of_unbind {u : ValueId} (h : (s.unbind v).pool r = some u) :
    s.pool r = some u := by
  unfold State.unbind at h
  split at h
  · next q hq =>
      split at h
      · rw [State.pool_hold] at h
        split at h
        · cases h
        · exact h
      · exact h
  · exact h

namespace Emits

/-! ## Elementary actions -/

theorem pure {x : α} (h : ∀ k ∈ gives x, k ∈ known) : Emits W known (pure x) gives := by
  intro s hs hknown
  exact ⟨fun _ hl => absurd hl List.not_mem_nil, hs, fun _ hk => hk, fun k hk => hknown k (h k hk)⟩

/-- An action that only gives a result, of which nothing is known. -/
theorem skip (x : α) : Emits W known (Pure.pure x) fun _ => [] := pure nofun

theorem bind {a : Lowering α} {f : α → Lowering β} (ha : Emits W known a gives)
    (hf : ∀ x, Emits W (gives x ++ known) (f x) gives') : Emits W known (a >>= f) gives' := by
  intro s hs hknown
  have h := ha s hs hknown
  have h' := hf (a s).result (a s).state h.coded
    (List.forall_mem_append.mpr ⟨h.given, fun k hk => h.kept k (hknown k hk)⟩)
  refine ⟨?_, h'.coded, ?_, h'.given⟩
  · exact List.forall_mem_append.mpr ⟨h.lines, h'.lines⟩
  · intro k hk
    exact h'.kept k (h.kept k hk)

/-- More facts may be known, and not all need be given. -/
theorem weaken {a : Lowering α} {known' : List Fact} {gives'' : α → List Fact}
    (h : Emits W known a gives) (hknown : ∀ k ∈ known, k ∈ known')
    (hgives : ∀ x, ∀ k ∈ gives'' x, k ∈ gives x) : Emits W known' a gives'' := by
  intro s hs hholds
  have h := h s hs fun k hk => hholds k (hknown k hk)
  exact ⟨h.lines, h.coded, h.kept, fun k hk => h.given k (hgives _ k hk)⟩

/-- What needs no facts goes with all. -/
theorem lift {a : Lowering α} (h : Emits W [] a gives) : Emits W known a gives :=
  h.weaken nofun fun _ _ hk => hk

theorem inspect_bind {f : State → α} {g : α → Lowering β} (hg : ∀ x, Emits W known (g x) gives') :
    Emits W known (inspect f >>= g) gives' := fun s hs hknown => hg (f s) s hs hknown

/-- What a register holds has a size in `W`. -/
theorem pool_bind {g : Option ValueId → Lowering β} (hnone : Emits W known (g none) gives')
    (hsome : ∀ v, Emits W (.wide W v :: known) (g (some v)) gives') :
    Emits W known (inspect (·.pool r) >>= g) gives' := by
  intro s hs hknown
  show Emitted W s gives' (g (s.pool r) s)
  cases hr : s.pool r with
  | none => exact hnone s hs hknown
  | some v => exact hsome v s hs (List.forall_mem_cons.mpr ⟨hs.held hr, hknown⟩)

theorem sizeOf_bind {g : Nat → Lowering β} (hk : k ∈ known)
    (hg : ∀ n, k.size n → Emits W (.sized k.value n :: known) (g n) gives') :
    Emits W known (sizeOf k.value >>= g) gives' := by
  intro s hs hknown
  have hholds := hknown k hk
  exact hg (s.values k.value).size hholds.size s hs
    (List.forall_mem_cons.mpr ⟨hholds.sized, hknown⟩)

theorem operand_bind {g : Operand → Lowering β} (hk : k ∈ known)
    (hg : ∀ x n, k.size n → x.Suits n → (k.stored = true → x.isImm = false) →
      Emits W known (g x) gives') :
    Emits W known (Lowering.operand k.value >>= g) gives' := by
  intro s hs hknown
  have hholds := hknown k hk
  refine hg (s.values k.value).operand _ hholds.size (hs.operand _) ?_ s hs hknown
  intro hstored
  have himm := hholds.stored hstored
  unfold Value.isImm at himm
  unfold Value.operand
  split
  · next hlocation => rw [hlocation] at himm; cases himm
  · rfl
  · rfl

theorem valueOf_bind {g : Value → Lowering β} (hk : k ∈ known)
    (hg : ∀ x : Value, k.size x.size → x.operand.Suits x.size → Emits W known (g x) gives') :
    Emits W known (valueOf k.value >>= g) gives' := by
  intro s hs hknown
  exact hg (s.values k.value) (hknown k hk).size (hs.operand _) s hs hknown

theorem write {l : Line} (hl : l.Form W) : Emits W known (write l) fun _ => [] := by
  intro s hs hknown
  exact ⟨List.forall_mem_singleton.mpr hl, hs, fun _ hk => hk, nofun⟩

theorem emit {i : Instr} (hi : i.Form W) : Emits W known (emit i) fun _ => [] := write hi

theorem write_bind {l : Line} {f : Unit → Lowering β} (hl : l.Form W)
    (hf : Emits W known (f ()) gives') : Emits W known (Lowering.write l >>= f) gives' :=
  (write hl).bind fun _ => hf

theorem emit_bind {i : Instr} {f : Unit → Lowering β} (hi : i.Form W)
    (hf : Emits W known (f ()) gives') : Emits W known (Lowering.emit i >>= f) gives' :=
  write_bind hi hf

theorem note_bind {text : String} {f : Unit → Lowering β} (hf : Emits W known (f ()) gives') :
    Emits W known (note text >>= f) gives' := by
  rw [note, bind_assoc]
  refine inspect_bind fun on => ?_
  split
  · exact write_bind trivial hf
  · exact hf

theorem mark (l : Label) : Emits W known (mark l) fun _ => [] := write trivial

theorem mark_bind {l : Label} {f : Unit → Lowering β} (hf : Emits W known (f ()) gives') :
    Emits W known (Lowering.mark l >>= f) gives' :=
  write_bind trivial hf

/-- An update that keeps all sizes, makes no constants and brings only known values into
registers. -/
theorem update {f : State → State} (hnext : ∀ s, (f s).nextValue = s.nextValue)
    (hsize : ∀ s v, ((f s).values v).size = (s.values v).size)
    (hlocation : ∀ s v, ((f s).values v).location = (s.values v).location ∨
      ((f s).values v).isImm = false ∧
        ((∃ r, ((f s).values v).location = .reg r) → Loadable W known v))
    (hheld : ∀ s r v, (f s).pool r = some v → s.pool r = some v ∨ Loadable W known v) :
    Emits W known (update f) fun _ => [] := by
  intro s hs hknown
  have hwide : ∀ v, Loadable W known v → s.Holds (.wide W v) := fun v hv => hv.holds hknown
  obtain ⟨hcoded, hkept⟩ := hs.change (hnext s) (hsize s)
    (fun v => (hlocation s v).imp_right fun h => ⟨h.1, fun r hr => (hwide v (h.2 ⟨r, hr⟩)).size⟩)
    fun r v hr => (hheld s r v hr).imp_right (hwide v)
  exact ⟨fun _ hl => absurd hl List.not_mem_nil, hcoded, hkept, nofun⟩

/-- An update that is no change to values and registers. -/
theorem update_rest {f : State → State} (hnext : ∀ s, (f s).nextValue = s.nextValue)
    (hvalues : ∀ s, (f s).values = s.values)
    (hpool : ∀ s r v, (f s).pool r = some v → s.pool r = some v) :
    Emits W known (Lowering.update f) fun _ => [] :=
  update hnext (fun s v => by rw [hvalues]) (fun s v => .inl (by rw [hvalues]))
    fun s r v hr => .inl (hpool s r v hr)

theorem newLabel_bind {g : Label → Lowering β} (hg : ∀ l, Emits W known (g l) gives') :
    Emits W known (newLabel >>= g) gives' := by
  intro s hs hknown
  have hsame : ∀ k, s.Holds k → ({ s with nextLabel := s.nextLabel + 1 } : State).Holds k :=
    fun k hk => ⟨hk.known, hk.size, hk.stored⟩
  have h := hg ⟨s.nextLabel⟩ { s with nextLabel := s.nextLabel + 1 }
    ⟨hs.located, hs.small, fun hr => hsame _ (hs.held hr)⟩ fun k hk => hsame k (hknown k hk)
  exact ⟨h.lines, h.coded, fun k hk => h.kept k (hsame k hk), h.given⟩

theorem internText (text : String) : Emits W known (internText text) fun _ => [] := by
  have htexts : ∀ l, Emits W known
      (Lowering.update fun s => { s with texts := s.texts ++ [(l, text)] }) fun _ => [] :=
    fun _ => update_rest (fun _ => rfl) (fun _ => rfl) fun _ _ _ hr => hr
  exact newLabel_bind fun l => (htexts l).bind fun _ => skip l

theorem unbind (v : ValueId) : Emits W known (unbind v) fun _ => [] := by
  apply update_rest
  · intro s
    rw [State.unbind_eq]
  · intro s
    rw [State.values_unbind]
  · intro s r u hr
    exact State.held_of_unbind hr

theorem release : Emits W known release fun _ => [] :=
  update_rest (fun _ => rfl) (fun _ => rfl) nofun

/-! ## New values -/

theorem newValue_of {location : Location} (hsmall : ∀ x, location = .imm x → Ty.fitsInt x = true)
    (hn : ∀ r, location = .reg r → W n) {gives : ValueId → List Fact}
    (hgives : ∀ v, ∀ k ∈ gives v, k.value = v ∧ k.size n ∧
      (k.stored = true → (⟨location, n⟩ : Value).isImm = false)) :
    Emits W known (newValue location n) gives := by
  intro s hs hknown
  refine ⟨fun _ hl => absurd hl List.not_mem_nil, ⟨?_, ?_, ?_⟩, fun k hk => hk.addValue _, ?_⟩
  · intro v r hv
    rw [newValue_apply, State.values_addValue_apply] at hv ⊢
    by_cases hnew : v = ⟨s.nextValue⟩
    · rw [if_pos hnew] at hv ⊢
      exact hn r hv
    · rw [if_neg hnew] at hv ⊢
      exact hs.located hv
  · intro v x hv
    rw [newValue_apply, State.values_addValue_apply] at hv
    split at hv
    · exact hsmall x hv
    · exact hs.small hv
  · intro r v hr
    rcases State.pool_of_addValue hr with ⟨hreg, rfl⟩ | hold
    · exact State.holds_addValue rfl (hn r hreg) nofun
    · exact (hs.held hold).addValue _
  · intro k hk
    obtain ⟨hvalue, hsize, hstored⟩ := hgives _ k hk
    exact State.holds_addValue hvalue hsize hstored

theorem newReg (r : Reg) (hn : W n) :
    Emits W known (newValue (.reg r) n) fun v => [.sized v n] := by
  apply newValue_of
  · nofun
  · intro _ _
    exact hn
  · intro v k hk
    cases List.mem_singleton.mp hk
    exact ⟨rfl, rfl, nofun⟩

theorem newImm {x : Int} (hx : Ty.fitsInt x = true) :
    Emits W known (newValue (.imm x) n) fun v => [.sized v n] := by
  apply newValue_of
  · rintro y ⟨⟩
    exact hx
  · nofun
  · intro v k hk
    cases List.mem_singleton.mp hk
    exact ⟨rfl, rfl, nofun⟩

theorem newMem (place : Mem) (n : Nat) :
    Emits W known (newValue (.mem place) n) fun v => [.place v n] := by
  apply newValue_of
  · nofun
  · nofun
  · intro v k hk
    cases List.mem_singleton.mp hk
    exact ⟨rfl, rfl, fun _ => rfl⟩

/-- Of a place only the size may be of interest. -/
theorem sized_of_place {a : Lowering ValueId} (h : Emits W known a fun v => [.place v n]) :
    Emits W known a fun v => [.sized v n] := by
  intro s hs hknown
  have h := h s hs hknown
  have hplace := h.given _ List.mem_cons_self
  exact ⟨h.lines, h.coded, h.kept, List.forall_mem_singleton.mpr ⟨hplace.known, hplace.size, nofun⟩⟩

/-- Of a value only that it can be loaded may be of interest. -/
theorem wide_of_sized {a : Lowering ValueId} (hn : W n)
    (h : Emits W known a fun v => [.sized v n]) : Emits W known a fun v => [.wide W v] := by
  intro s hs hknown
  have h := h s hs hknown
  have hsized := h.given _ List.mem_cons_self
  have hsize : ((a s).state.values (a s).result).size = n := hsized.size
  exact ⟨h.lines, h.coded, h.kept, List.forall_mem_singleton.mpr ⟨hsized.known, hsize ▸ hn, nofun⟩⟩

end Emits

end

end LittleC.Lowering
