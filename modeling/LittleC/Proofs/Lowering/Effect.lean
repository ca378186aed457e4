import LittleC.Lowering.Stmt
import LittleC.Proofs.Lowering.Branch
import LittleC.Proofs.Semantics.Exec

/-! # What statements do to memory

The code of a statement takes every machine that agrees with one memory to a machine that agrees
with the next. No value lives from one statement to the next, so only labels, string literals and
the frame are carried along, and every way through a branch or loop ends in the same state. -/

namespace LittleC

/-- How the code of a statement is left; returns go to `done`. -/
def Outcome.exit (done : Label) : Outcome → Exit
  | .done => .next
  | .returned _ => .jump done

/-- How code is left that jumps to `l` behind it unless it returned. -/
def Outcome.exitBy (l done : Label) : Outcome → Exit
  | .done => .jump l
  | .returned _ => .jump done

/-- A returned number of `n` bytes is in `%rax`. -/
def Outcome.Leaves (n : Nat) : Outcome → Machine → Prop
  | .done, _ => True
  | .returned x, m => signed n (m.regs .rax) = x

namespace Scene

open Lowering (State)

/-- Between the machines the stack pointer stays, and of the memory that the program does not own
only temporaries change. -/
structure Keeps (S : Scene) (s : State) (m m' : Machine) : Prop where
  stack : m'.stack = m.stack
  memory : ∀ b, S.env.owned b = false → ¬Zone S.base S.floor s.lowest b → m'.memory b = m.memory b

section
variable {S : Scene} {s s' : State} {m m' m'' : Machine} {M M' : Memory} {K L : ValueId → Prop}

theorem Keeps.refl (S : Scene) (s : State) (m : Machine) : S.Keeps s m m :=
  ⟨rfl, fun _ _ _ => rfl⟩

theorem Keeps.trans (h : S.Keeps s m m') (h' : S.Keeps s' m' m'') (hlow : s'.lowest ≤ s.lowest) :
    S.Keeps s m m'' := by
  refine ⟨h'.stack.trans h.stack, fun b hb hz => ?_⟩
  rw [h'.memory b hb fun hz' => hz (hz'.mono (Int.le_refl _) hlow), h.memory b hb hz]

theorem Stays.keeps (h : S.Stays K s m s' m') (hfloor : S.floor ≤ s'.lowest) : S.Keeps s m m' :=
  ⟨h.stack, fun b _ hz => h.memory b fun hz' => hz (hz'.mono hfloor (Int.le_refl _))⟩

/-- A machine agrees with later states too. -/
theorem Agrees.later (h : S.Agrees M s m) (hs : State.Evolves K s s') (hfits : S.Fits s') :
    S.Agrees M s' m :=
  h.after (K := fun _ => False) hs ⟨rfl, rfl, fun _ _ => rfl, fun _ _ _ hv => hv.elim⟩ hfits.lowest

/-- What was apart from temporaries once is apart from them on the way back. -/
theorem Agrees.back (h : S.Agrees M s m) (h' : S.Agrees M' s' m') : S.Agrees M' s m' :=
  ⟨h'.base, h'.memory, h.apart, h.room⟩

end

end Scene

namespace Lowering

open State

/-- From `s` to `s'` counters only grew, and `c` string literals were met. -/
structure Passes (s s' : State) (c : Nat) : Prop extends Evolves (Before 0) s s' where
  count : s'.texts.length = s.texts.length + c

/-- Between the states the code takes every machine that agrees with `M` to one of `R` that agrees
with `M'`, and is left by `e`. -/
def Carries (S : Scene) (s s' : State) (code : List Line) (M M' : Memory) (e : Exit)
    (R : Machine → Prop) : Prop :=
  ∀ m, S.Agrees M s m → S.Fits s' →
    ∃ m', S.world.Reaches s.nextLabel code m e m' ∧ S.Agrees M' s' m' ∧ S.Keeps s m m' ∧ R m'

/-- Between the states the code has the effect `f`. -/
structure Achieves (S : Scene) (s s' : State) (code : List Line) (done : Label) (n c : Nat)
    (f : Effect) : Prop where
  passes : Passes s s' c
  labels : LabelsIn s.nextLabel s'.nextLabel code
  runs : ∀ M o M', f M o M' → Carries S s s' code M M' (o.exit done) (o.Leaves n)

/-- After `k` string literals the action, with `c` of its own, has the effect `f` on memory; it
returns numbers of `n` bytes by a jump to `done`. -/
def Performs (S : Scene) (a : Lowering Unit) (done : Label) (n k c : Nat) (f : Effect) : Prop :=
  ∀ s : State, s.Sound → s.texts.length = k → Achieves S s (a s).state (a s).code done n c f

/-- A state in which every register is free. -/
def State.released (s : State) : State := { s with pool := fun _ => none }

section
variable {S : Scene} {s s₀ s₁ s' : State} {code rest : List Line} {M M₁ M' : Memory} {e : Exit}
  {Q R : Machine → Prop} {c d d₀ j n : Nat} {l done : Label}

/-! ## Passing states -/

theorem Passes.trans (h : Passes s s₁ c) (h' : Passes s₁ s' d) : Passes s s' (c + d) :=
  ⟨h.toEvolves.trans h'.toEvolves, by rw [h'.count, h.count, Nat.add_assoc]⟩

theorem Reached.passes (h : Reached s s' c) : Passes s s' c :=
  ⟨h.mono fun _ hv => absurd hv (Nat.not_lt_zero _), h.count⟩

theorem passes_labelled (hs : s.Sound) : Passes s s.labelled 0 := ⟨evolves_labelled hs _, rfl⟩

theorem passes_released (s : State) : Passes s s.released 0 := by
  have hs : s.released.Sound := sound_of_empty fun _ => rfl
  exact ⟨⟨hs, Nat.le_refl _, Nat.le_refl _, Int.le_refl _, List.prefix_refl _,
    fun _ hv => absurd hv (Nat.not_lt_zero _)⟩, rfl⟩

/-! ## Code in sequence -/

theorem Carries.append (h : Carries S s s₁ code M M₁ .next Q)
    (hlabels : LabelsIn j s₁.nextLabel code) (hpasses : Passes s s₁ c)
    (h' : Carries S s₁ s' rest M₁ M' e R) (hpasses' : Passes s₁ s' d) :
    Carries S s s' (code ++ rest) M M' e R := by
  intro m hm hfits
  obtain ⟨m₁, hrun, hagrees, hkeeps, -⟩ := h m hm (hfits.before hpasses'.toEvolves)
  obtain ⟨m', hrun', hagrees', hkeeps', hR⟩ := h' m₁ hagrees hfits
  exact ⟨m', hrun.append hlabels hpasses.label hrun', hagrees', hkeeps.trans hkeeps' hpasses.lowest,
    hR⟩

theorem Carries.later (h : Carries S s s₁ code M M' e R) (hpasses : Passes s₁ s' d) :
    Carries S s s' code M M' e R := by
  intro m hm hfits
  obtain ⟨m', hrun, hagrees, hrest⟩ := h m hm (hfits.before hpasses.toEvolves)
  exact ⟨m', hrun, hagrees.later hpasses.toEvolves hfits, hrest⟩

/-- Code behind a jump is not run. -/
theorem Carries.append_jump (h : Carries S s s' code M M' (.jump l) R) (rest : List Line) :
    Carries S s s' (code ++ rest) M M' (.jump l) R := by
  intro m hm hfits
  obtain ⟨m', hrun, hrest⟩ := h m hm hfits
  exact ⟨m', hrun.append_jump rest, hrest⟩

/-- Changes of the state need no code. -/
theorem carries_nil (hpasses : Passes s s' c) (M : Memory) :
    Carries S s s' [] M M .next fun _ => True :=
  fun m hm hfits =>
    ⟨m, World.reaches_nil _ _ m, hm.later hpasses.toEvolves hfits, .refl S s m, trivial⟩

/-- What changed the state before the code is passed over. -/
theorem Carries.earlier (h : Carries S s₁ s' code M M' e R) (hpasses : Passes s s₁ c)
    (hpasses' : Passes s₁ s' d) : Carries S s s' code M M' e R :=
  (carries_nil hpasses M).append (labelsIn_nil 0 _) hpasses h hpasses'

theorem carries_noted (s : State) (text : String) (M : Memory) :
    Carries S s s (s.noted text) M M .next fun _ => True :=
  fun m hm _ => ⟨m, s.reaches_noted text _ _ m, hm, .refl S s m, trivial⟩

theorem carries_label (s : State) (l : Label) (M : Memory) :
    Carries S s s [.label l] M M .next fun _ => True :=
  fun m hm _ => ⟨m, World.reaches_label _ _ l m, hm, .refl S s m, trivial⟩

theorem Carries.then_jump (h : Carries S s s' code M M' .next R)
    (hlabels : LabelsIn j s'.nextLabel code) (hpasses : Passes s s' c) (l : Label) :
    Carries S s s' (code ++ [.instr (.jmp l)]) M M' (.jump l) R := by
  intro m hm hfits
  obtain ⟨m', hrun, hrest⟩ := h m hm hfits
  exact ⟨m', hrun.append hlabels hpasses.label (World.reaches_jmp _ _ l m'), hrest⟩

/-- A label where the code goes on, for those who jump there too. -/
theorem Carries.mark (h : Carries S s s' code M M' e R) (he : e = .next ∨ e = .jump l)
    (hl : s.nextLabel ≤ l.number) (hcode : Line.label l ∉ code) :
    Carries S s s' (code ++ [.label l]) M M' .next R := by
  intro m hm hfits
  obtain ⟨m', hrun, hrest⟩ := h m hm hfits
  exact ⟨m', hrun.mark he (Nat.le_refl _) hl hcode, hrest⟩

section
variable {o : Outcome}

/-- A label behind code that may have returned. -/
theorem Carries.mark_outcome (h : Carries S s s' code M M' (o.exit done) (o.Leaves n))
    (hl : s.nextLabel ≤ l.number) (hcode : Line.label l ∉ code) :
    Carries S s s' (code ++ [.label l]) M M' (o.exit done) (o.Leaves n) := by
  cases o with
  | done => exact h.mark (Or.inl rfl) hl hcode
  | returned x => exact h.append_jump _

/-- Code that may have returned jumps on otherwise. -/
theorem Carries.then_exit (h : Carries S s s' code M M' (o.exit done) R)
    (hlabels : LabelsIn j s'.nextLabel code) (hpasses : Passes s s' c) (l : Label) :
    Carries S s s' (code ++ [.instr (.jmp l)]) M M' (o.exitBy l done) R := by
  cases o with
  | done => exact h.then_jump hlabels hpasses l
  | returned x => exact h.append_jump _

theorem Carries.append_exit (h : Carries S s s' code M M' (o.exitBy l done) R)
    (rest : List Line) : Carries S s s' (code ++ rest) M M' (o.exitBy l done) R := by
  cases o with
  | done => exact h.append_jump rest
  | returned x => exact h.append_jump rest

/-- The label that code jumps to unless it returned. -/
theorem Carries.mark_exit (h : Carries S s s' code M M' (o.exitBy l done) (o.Leaves n))
    (hl : s.nextLabel ≤ l.number) (hcode : Line.label l ∉ code) :
    Carries S s s' (code ++ [.label l]) M M' (o.exit done) (o.Leaves n) := by
  cases o with
  | done => exact h.mark (Or.inr rfl) hl hcode
  | returned x => exact h.append_jump _

end

/-! ## Effects in sequence -/

theorem Achieves.released {f : Effect} (h : Achieves S s s' code done n c f) :
    Achieves S s s'.released code done n c f :=
  ⟨h.passes.trans (passes_released s'), h.labels,
    fun M o M' hf => (h.runs M o M' hf).later (passes_released s')⟩

theorem Achieves.seq {f g : Effect} (h : Achieves S s s₁ code done n c f)
    (h' : Achieves S s₁ s' rest done n d g) :
    Achieves S s s' (code ++ rest) done n (c + d) (f.seq g) := by
  refine ⟨h.passes.trans h'.passes, h.labels.append h'.labels h.passes.label h'.passes.label, ?_⟩
  rintro M o M' (⟨M₁, hf, hg⟩ | ⟨x, rfl, hf⟩)
  · exact (h.runs _ _ _ hf).append h.labels h.passes (h'.runs _ _ _ hg) h'.passes
  · exact ((h.runs _ _ _ hf).append_jump rest).later h'.passes

theorem Performs.seq {a b : Lowering Unit} {k : Nat} {f g : Effect}
    (ha : Performs S a done n k c f) (hb : Performs S b done n (k + c) d g) :
    Performs S (a >>= fun _ => b) done n k (c + d) (f.seq g) := by
  intro s hs hk
  have hfirst := ha s hs hk
  exact hfirst.seq (hb _ hfirst.passes.sound (by rw [hfirst.passes.count, hk]))

/-- Registers are released behind a statement, which has the effect of the statement. -/
theorem Performs.release {a : Lowering Unit} {k : Nat} {f : Effect}
    (ha : Performs S a done n k c f) : Performs S (a >>= fun _ => release) done n k c f := by
  intro s hs hk
  have hcode : ((a >>= fun _ => Lowering.release) s).code = (a s).code := List.append_nil _
  rw [hcode]
  exact (ha s hs hk).released

theorem performs_nothing (S : Scene) (done : Label) (n k : Nat) :
    Performs S (pure ()) done n k 0 .nothing := by
  intro s hs _
  have hpasses : Passes s s 0 := ⟨.refl hs _, rfl⟩
  refine ⟨hpasses, labelsIn_nil _ _, ?_⟩
  rintro M o M' ⟨rfl, rfl⟩
  exact carries_nil hpasses _

/-! ## Branches and loops -/

/-- Between the states the code jumps to `l` if the condition is zero and goes on otherwise. -/
structure Decides (S : Scene) (s s' : State) (code : List Line) (l : Label) (c : Nat)
    (condition : Memory → Option Int) : Prop where
  passes : Passes s s' c
  labels : LabelsIn s.nextLabel s'.nextLabel code
  runs : ∀ M x, condition M = some x →
    Carries S s s' code M M (if x ≠ 0 then .next else .jump l) fun _ => True

variable {condition : Memory → Option Int} {f g : Effect} {s₂ : State} {other : List Line}

/-- Code with a label to skip it. -/
theorem Decides.ifThen (htest : Decides S s.labelled s₁ code ⟨s.nextLabel⟩ c condition)
    (hs : s.Sound) (hbody : Achieves S s₁ s' rest done n d f) :
    Achieves S s s' (code ++ rest ++ [.label ⟨s.nextLabel⟩]) done n (c + d)
      (.choice condition f .nothing) := by
  have hlabelled := passes_labelled hs
  have hstart : Passes s s₁ (0 + c) := hlabelled.trans htest.passes
  have hinner := htest.labels.append hbody.labels htest.passes.label hbody.passes.label
  have hgrow : s.nextLabel < s'.nextLabel :=
    Nat.le_trans htest.passes.label hbody.passes.label
  have hskip : Line.label ⟨s.nextLabel⟩ ∉ code ++ rest :=
    hinner.not_mem (Or.inl (Nat.lt_succ_self _))
  refine ⟨?_, (hinner.mono (Nat.le_succ _) (Nat.le_refl _)).union
    (labelsIn_label (Nat.le_refl _) hgrow), ?_⟩
  · have hpasses := hstart.trans hbody.passes
    rwa [Nat.zero_add] at hpasses
  rintro M o M' ⟨x, hx, h⟩
  have htested := (htest.runs M x hx).earlier hlabelled htest.passes
  split at h
  · next hne =>
      rw [if_pos hne] at htested
      exact (htested.append htest.labels hstart (hbody.runs M o M' h) hbody.passes).mark_outcome
        (Nat.le_refl _) hskip
  · next heq =>
      obtain ⟨rfl, rfl⟩ := h
      rw [if_neg heq] at htested
      exact ((htested.append_jump rest).later hbody.passes).mark (Or.inr rfl) (Nat.le_refl _) hskip

/-- Two ways that meet at a label; the label of the second is jumped to from the condition. -/
theorem Decides.ifElse (htest : Decides S s.labelled s₁ code ⟨s.nextLabel⟩ c condition)
    (hs : s.Sound) (hbody : Achieves S s₁ s₂ rest done n d f) {d' : Nat}
    (hother : Achieves S s₂.labelled s' other done n d' g) :
    Achieves S s s' (code ++ rest ++ [.instr (.jmp ⟨s₂.nextLabel⟩)] ++ [.label ⟨s.nextLabel⟩] ++
      other ++ [.label ⟨s₂.nextLabel⟩]) done n (c + d + d') (.choice condition f g) := by
  have hlabelled := passes_labelled hs
  have hlabelled' := passes_labelled hbody.passes.sound
  have hstart : Passes s s₁ (0 + c) := hlabelled.trans htest.passes
  have hmiddle : Passes s s₂ (0 + c + d) := hstart.trans hbody.passes
  have hend : Passes s₂ s' (0 + d') := hlabelled'.trans hother.passes
  have hgrow : s.nextLabel < s₂.nextLabel :=
    Nat.le_trans htest.passes.label hbody.passes.label
  have hgrow' : s₂.nextLabel < s'.nextLabel := hother.passes.label
  -- The two new labels are apart from all labels of the parts.
  have hway := htest.labels.append hbody.labels htest.passes.label hbody.passes.label
  have htaken := hway.union (labelsIn_instr _ _ (.jmp ⟨s₂.nextLabel⟩))
  have hskip := htaken.not_mem (l := ⟨s.nextLabel⟩) (Or.inl (Nat.lt_succ_self _))
  have hfirst := (htaken.mono (Nat.le_succ s.nextLabel) (Nat.le_refl _)).union
    (labelsIn_label (l := ⟨s.nextLabel⟩) (Nat.le_refl _) hgrow)
  have hexit : Line.label ⟨s₂.nextLabel⟩ ∉ code ++ rest ++ [.instr (.jmp ⟨s₂.nextLabel⟩)] ++
      [.label ⟨s.nextLabel⟩] ++ other := by
    rw [List.mem_append, not_or]
    exact ⟨hfirst.not_mem (Or.inr (Nat.le_refl _)),
      hother.labels.not_mem (Or.inl (Nat.lt_succ_self _))⟩
  refine ⟨?_, ?_, ?_⟩
  · have hpasses := hmiddle.trans hend
    rwa [Nat.zero_add, Nat.zero_add] at hpasses
  · exact ((hfirst.mono (Nat.le_refl _) (Nat.le_of_lt hgrow')).union
      (hother.labels.mono (Nat.le_of_lt (Nat.lt_succ_of_lt hgrow)) (Nat.le_refl _))).union
        (labelsIn_label (Nat.le_of_lt hgrow) hgrow')
  rintro M o M' ⟨x, hx, h⟩
  have htested := (htest.runs M x hx).earlier hlabelled htest.passes
  split at h
  · next hne =>
      rw [if_pos hne] at htested
      have hran := (htested.append htest.labels hstart (hbody.runs M o M' h) hbody.passes).then_exit
        hway hmiddle ⟨s₂.nextLabel⟩
      exact (((hran.append_exit [.label ⟨s.nextLabel⟩]).append_exit other).later hend).mark_exit
        (Nat.le_of_lt hgrow) hexit
  · next heq =>
      rw [if_neg heq] at htested
      have hpast := (htested.append_jump rest).append_jump [.instr (.jmp ⟨s₂.nextLabel⟩)]
      have hskipped := (hpast.later hbody.passes).mark (Or.inr rfl) (Nat.le_refl _) hskip
      have hran := (hother.runs M o M' h).earlier hlabelled' hother.passes
      exact (hskipped.append hfirst hmiddle hran hend).mark_outcome (Nat.le_of_lt hgrow) hexit

/-- The lines of a loop up to the label behind it. -/
def roundLines (head : Label) (test body : List Line) : List Line :=
  .label head :: (test ++ body ++ [.instr (.jmp head)])

/-- The rounds of a loop. Every round starts from the same state of lowering. -/
theorem Decides.rounds {head exit : Label} (htest : Decides S s₀ s₁ code exit c condition)
    (hhead : Passes s s₀ d₀) (hlo : s.nextLabel ≤ head.number) (hhi : head.number < s₀.nextLabel)
    (hbody : Achieves S s₁ s' rest done n d f) {o : Outcome}
    (h : Effect.repeated condition f M o M') :
    Carries S s s' (roundLines head code rest) M M' (o.exitBy exit done) (o.Leaves n) := by
  have hstart : Passes s s₁ (d₀ + c) := hhead.trans htest.passes
  have hround : Passes s s' (d₀ + c + d) := hstart.trans hbody.passes
  have hmark : LabelsIn s.nextLabel s₀.nextLabel [.label head] := labelsIn_label hlo hhi
  have hcode : LabelsIn s.nextLabel s₁.nextLabel (.label head :: code) :=
    hmark.append htest.labels hhead.label htest.passes.label
  have htested : ∀ M x, condition M = some x → Carries S s s₁ (.label head :: code) M M
      (if x ≠ 0 then .next else .jump exit) fun _ => True := fun M x hx =>
    ((carries_label s head M).later hhead).append hmark hhead (htest.runs M x hx) htest.passes
  unfold roundLines
  -- Induction on the rounds: a new one starts from the machine that the one before it left.
  induction h with
  | stop hM =>
      have hstop := htested _ _ hM
      rw [if_neg (not_not_intro rfl)] at hstop
      rw [List.append_assoc]
      exact (hstop.append_jump (rest ++ [.instr (.jmp head)])).later hbody.passes
  | again hM hx hran _ ih =>
      have hgo := htested _ _ hM
      rw [if_pos hx] at hgo
      have hback := (hgo.append hcode hstart (hbody.runs _ _ _ hran) hbody.passes).then_jump
        (hcode.append hbody.labels hstart.label hbody.passes.label) hround head
      intro m hm hfits
      obtain ⟨m₁, hrun, hagrees, hkeeps, -⟩ := hback m hm hfits
      obtain ⟨m', hrun', hagrees', hkeeps', hR⟩ := ih m₁ (hm.back hagrees) hfits
      exact ⟨m', hrun.again hlo hrun', hagrees', hkeeps.trans hkeeps' (Int.le_refl _), hR⟩
  | returned hM hx hran =>
      have hgo := htested _ _ hM
      rw [if_pos hx] at hgo
      exact (hgo.append hcode hstart (hbody.runs _ _ _ hran) hbody.passes).append_jump
        [.instr (.jmp head)]

/-- A loop between its two labels. -/
theorem Decides.loop
    (htest : Decides S s.labelled.labelled.released s₁ code ⟨s.nextLabel + 1⟩ c condition)
    (hs : s.Sound) (hbody : Achieves S s₁ s' rest done n d f) :
    Achieves S s s' (roundLines ⟨s.nextLabel⟩ code rest ++ [.label ⟨s.nextLabel + 1⟩]) done n
      (c + d) (.repeated condition f) := by
  have hhead : Passes s s.labelled.labelled.released (0 + 0 + 0) :=
    ((passes_labelled hs).trans (passes_labelled (passes_labelled hs).sound)).trans
      (passes_released _)
  have hround : Passes s s' (0 + 0 + 0 + c + d) := (hhead.trans htest.passes).trans hbody.passes
  have hgrow : s.nextLabel + 1 < s'.nextLabel :=
    Nat.le_trans htest.passes.label hbody.passes.label
  have hinner := (htest.labels.append hbody.labels htest.passes.label hbody.passes.label).union
    (labelsIn_instr _ _ (.jmp ⟨s.nextLabel⟩))
  have hlabels : LabelsIn s.nextLabel s'.nextLabel (roundLines ⟨s.nextLabel⟩ code rest) :=
    (labelsIn_label (Nat.le_refl _) (Nat.lt_of_succ_lt hgrow)).union
      (hinner.mono (Nat.le_add_right _ 2) (Nat.le_refl _))
  have hexit : Line.label ⟨s.nextLabel + 1⟩ ∉ roundLines ⟨s.nextLabel⟩ code rest := by
    rw [roundLines, List.mem_cons, not_or]
    exact ⟨fun h => Nat.succ_ne_self _ (Label.mk.inj (Line.label.inj h)),
      hinner.not_mem (Or.inl (Nat.lt_succ_self _))⟩
  refine ⟨?_, hlabels.union (labelsIn_label (Nat.le_succ _) hgrow), fun M o M' h => ?_⟩
  · rwa [Nat.zero_add] at hround
  · have hhere : s.nextLabel < s.nextLabel + 2 := Nat.lt_add_of_pos_right Nat.two_pos
    have hran : Carries S s s' (roundLines ⟨s.nextLabel⟩ code rest) M M'
        (o.exitBy ⟨s.nextLabel + 1⟩ done) (o.Leaves n) :=
      htest.rounds hhead (Nat.le_refl _) hhere hbody h
    exact hran.mark_exit (Nat.le_succ _) hexit

end

end Lowering

end LittleC
