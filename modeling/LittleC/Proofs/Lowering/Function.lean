import LittleC.Proofs.Frame.Layout
import LittleC.Proofs.Lowering.Stmt

/-! # Functions do what their bodies denote

A routine saves the frame of its caller and its arguments, runs the body over its own frame, and
gives the caller's frame back before it returns. -/

namespace LittleC

open Lowering (State)

/-! ## The caller's side -/

/-- The memory once the arguments in registers are in the places of their parameters. -/
def Routine.arrive (base : Word) (regs : Reg → Word) : List Symbol → List Reg → Memory → Memory
  | p :: ps, r :: rs, M =>
    arrive base regs ps rs (M.store (base + .ofInt 64 (p.offset.getD 0)) p.ty.size (regs r))
  | _, _, M => M

namespace Function

/-- The memory that the body of a function starts from. -/
def arrival (f : Function) (t : SymbolTable) (m : Machine) : Memory :=
  Routine.arrive (m.stack - 8) m.regs (Routine.registerParams t f) Reg.args m.memory

/-- The bytes that the code of a function reserves below the frame base. -/
def frame (t : SymbolTable) (l : Layout) (f : Function) (s : State) : Int :=
  alignFrame (-(f.lower t l s).2.lowest)

/-- The byte belongs to a parameter or local that the caller does not place. -/
def Local (f : Function) (t : SymbolTable) (base b : Word) : Prop :=
  ∃ x offset, (x, none) ∈ Frame.demands t f ∧ (t.symbol x).offset = some offset ∧
    Covers (base + .ofInt 64 offset) (t.symbol x).ty.size b

/-- A call of the code that is lowered from `s`: names and string literals are where the program has
them, and beside parameters and locals the program owns neither temporaries nor what links the frame
to that of the caller. -/
structure Entered (f : Function) (t : SymbolTable) (l : Layout) (s : State) (w : World) (E : Env)
    (m : Machine) : Prop where
  places : ∀ x, w.fixed? (m.stack - 8) (t.symbol x).home = some (E.place x)
  texts : ∀ k label string, (f.lower t l s).2.texts[k]? = some (label, string) →
    w.literals label = E.text k
  apart : ∀ b, E.owned b = true → f.Local t (m.stack - 8) b ∨
    ¬Zone (m.stack - 8) (-f.frame t l s) (-l.displacement) b ∧ ¬Zone (m.stack - 8) 0 16 b
  room : f.frame t l s + 16 ≤ 2 ^ 64

end Function

/-! ## Arguments -/

namespace Routine

section
variable {base b : Word} {regs : Reg → Word} {w : World}

/-- Arguments go to the same places whatever was there. -/
theorem arrive_congr : ∀ (ps : List Symbol) (rs : List Reg) {M M' : Memory}, M b = M' b →
    arrive base regs ps rs M b = arrive base regs ps rs M' b
  | [], _, _, _, h => h
  | _ :: _, [], _, _, h => h
  | p :: ps, r :: rs, M, M', h => by
      refine arrive_congr ps rs ?_
      simp only [Memory.store, h]

theorem arrive_of_not_covers : ∀ (ps : List Symbol) (rs : List Reg) (M : Memory),
    (∀ p ∈ ps, ¬Covers (base + .ofInt 64 (p.offset.getD 0)) p.ty.size b) →
      arrive base regs ps rs M b = M b
  | [], _, _, _ => rfl
  | _ :: _, [], _, _ => rfl
  | p :: ps, r :: rs, M, h => by
      rw [arrive, arrive_of_not_covers ps rs _ fun q hq => h q (List.mem_cons_of_mem _ hq)]
      exact Memory.store_of_not_covers _ (h p List.mem_cons_self)

theorem reaches_saveParam (m : Machine) (n : Nat) {p : Symbol} (hp : p.ty.isScalar = true)
    (r : Reg) :
    w.Reaches n [saveParam p r] m .next
      { m with memory :=
          m.memory.store (m.base + .ofInt 64 (p.offset.getD 0)) p.ty.size (m.regs r) } := by
  refine World.reaches_instr ?_ rfl n
  simp [Instr.encodable, Instr.movable, Operand.fits, Ty.width_size hp]

/-- The prologue puts the arguments into place. -/
theorem reaches_saveParams (n : Nat) : ∀ (ps : List Symbol) (rs : List Reg) (m : Machine),
    (∀ p ∈ ps, p.ty.isScalar = true) →
      w.Reaches n (List.zipWith saveParam ps rs) m .next
        { m with memory := arrive m.base m.regs ps rs m.memory }
  | [], _, m, _ => World.reaches_nil w n m
  | _ :: _, [], m, _ => World.reaches_nil w n m
  | p :: ps, r :: rs, m, h => by
      have hfirst := reaches_saveParam (w := w) m n (h p List.mem_cons_self) r
      exact hfirst.append (labelsIn_instr 0 n _) (Nat.le_refl n)
        (reaches_saveParams n ps rs _ fun q hq => h q (List.mem_cons_of_mem _ hq))

theorem labelsIn_saveParams (lo hi : Nat) : ∀ (ps : List Symbol) (rs : List Reg),
    LabelsIn lo hi (List.zipWith saveParam ps rs)
  | [], _ => labelsIn_nil lo hi
  | _ :: _, [] => labelsIn_nil lo hi
  | _ :: ps, _ :: rs => (labelsIn_instr lo hi _).union (labelsIn_saveParams lo hi ps rs)

/-! ## Prologue and epilogue -/

variable {t : SymbolTable} {f : Function} {done : Label}

theorem labelsIn_prologue (lo hi : Nat) (t : SymbolTable) (f : Function) (size : Int) :
    LabelsIn lo hi (prologue t f size) := by
  have hreserve : LabelsIn lo hi (if 0 < size then [.instr (.reserve size)] else []) := by
    split
    · exact labelsIn_instr lo hi _
    · exact labelsIn_nil lo hi
  exact (((labelsIn_instr lo hi .saveFrame).union (labelsIn_instr lo hi .enterFrame)).union
    hreserve).union (labelsIn_saveParams lo hi _ _)

/-- The prologue links the new frame to that of the caller and saves the arguments. -/
theorem reaches_prologue (hparams : ∀ p ∈ registerParams t f, p.ty.isScalar = true) (size : Int)
    (m : Machine) (n : Nat) :
    ∃ m', w.Reaches n (prologue t f size) m .next m' ∧ m'.base = m.stack - 8 ∧
      m'.memory = arrive (m.stack - 8) m.regs (registerParams t f) Reg.args
        (m.memory.store (m.stack - 8) 8 m.base) := by
  let linked : Machine := { m.push m.base with base := m.stack - 8 }
  have hsave : w.Reaches n [.instr .saveFrame] m .next (m.push m.base) :=
    World.reaches_instr rfl rfl n
  have henter : w.Reaches n [.instr .enterFrame] (m.push m.base) .next linked :=
    World.reaches_instr rfl rfl n
  have hlink := hsave.append (labelsIn_instr 0 n _) (Nat.le_refl n) henter
  have hreserve : ∃ m', w.Reaches n (if 0 < size then [.instr (.reserve size)] else []) linked
      .next m' ∧ m'.base = linked.base ∧ m'.regs = linked.regs ∧ m'.memory = linked.memory := by
    split
    · exact ⟨{ linked with stack := linked.stack - .ofInt 64 size, flags := none },
        World.reaches_instr rfl rfl n, rfl, rfl, rfl⟩
    · exact ⟨linked, World.reaches_nil w n linked, rfl, rfl, rfl⟩
  obtain ⟨m₁, hrun, hbase, hregs, hmemory⟩ := hreserve
  have hframe := hlink.append ((labelsIn_instr 0 n _).union (labelsIn_instr 0 n _)) (Nat.le_refl n)
    hrun
  have hlabels : LabelsIn 0 n ([.instr .saveFrame] ++ [.instr .enterFrame] ++
      if 0 < size then [.instr (.reserve size)] else []) :=
    (labelsIn_prologue 0 n t f size).left
  have hparams' := reaches_saveParams (w := w) n (registerParams t f) Reg.args m₁ hparams
  rw [hbase, hregs, hmemory] at hparams'
  exact ⟨_, hframe.append hlabels (Nat.le_refl n) hparams', rfl, rfl⟩

/-- Behind the body the caller's frame is restored from where the prologue saved it. -/
theorem reaches_epilogue (m : Machine) (n : Nat) :
    w.Reaches n [.instr .leaveFrame, .instr .restoreFrame] m .next
      { m with base := m.memory.load m.base 8, stack := m.base + 8 } := by
  have hleave : w.Reaches n [.instr .leaveFrame] m .next { m with stack := m.base } :=
    World.reaches_instr rfl rfl n
  exact hleave.append (labelsIn_instr 0 n _) (Nat.le_refl n) (World.reaches_instr rfl rfl n)

end

end Routine

/-! ## Functions -/

namespace Function

/-- What the caller finds at the return: its own frame and return address, the memory that the body
leaves, all else as it was except the frame of the routine, and the result in `%rax`. -/
structure Returned (f : Function) (t : SymbolTable) (l : Layout) (s : State) (E : Env)
    (m : Machine) (o : Outcome) (M' : Memory) (m' : Machine) : Prop where
  stack : m'.stack = m.stack
  base : m'.base = m.base
  address : m'.memory.load m.stack 8 = m.memory.load m.stack 8
  owned : ∀ b, E.owned b = true → m'.memory b = M' b
  rest : ∀ b, E.owned b = false → ¬Zone (m.stack - 8) (-f.frame t l s) 8 b →
    m'.memory b = m.memory b
  result : ∀ x, o = .returned x →
    signed (t.symbol f.symbol).ty.result.size (m'.regs .rax) = x

section
variable {f : Function} {t : SymbolTable} {l : Layout} {s : State} {w : World} {E : Env}
  {m : Machine}

/-- The state in which the body is lowered. -/
def bodyStart (s : State) (l : Layout) : State := s.labelled.enter (-l.displacement)

theorem code_lower (f : Function) (t : SymbolTable) (l : Layout) (s : State) :
    (f.lower t l s).1.code = Routine.prologue t f (f.frame t l s) ++
      (Stmt.lowerAll t ⟨s.nextLabel⟩ f.body (bodyStart s l)).code ++
        Routine.epilogue ⟨s.nextLabel⟩ := rfl

theorem state_lower (f : Function) (t : SymbolTable) (l : Layout) (s : State) :
    (f.lower t l s).2 = (Stmt.lowerAll t ⟨s.nextLabel⟩ f.body (bodyStart s l)).state := rfl

theorem le_alignFrame {n : Int} (h : 0 ≤ n) : n ≤ alignFrame n := by
  unfold alignFrame
  rw [Int.tdiv_eq_ediv_of_nonneg (by omega)]
  omega

/-- Outside the variables of the frame the arguments change nothing. -/
theorem Laid.arrive_of_not_zone (h : f.Laid t l) {base b : Word} {regs : Reg → Word} {M : Memory}
    (hb : ¬Zone base (-l.displacement) 0 b) :
    Routine.arrive base regs (Routine.registerParams t f) Reg.args M b = M b := by
  refine Routine.arrive_of_not_covers _ _ _ fun p hp hcovers => hb ?_
  obtain ⟨offset, hoffset, hlo, hhi⟩ := h.offset hp
  rw [hoffset, Option.getD_some] at hcovers
  exact (zone_of_covers hcovers).mono hlo hhi

/-- The frame has room for all that the body put into it. -/
theorem frame_bounds (hlaid : f.Laid t l) (h : (f.lower t l s).2.lowest ≤ -l.displacement) :
    l.displacement ≤ f.frame t l s ∧ -f.frame t l s ≤ (f.lower t l s).2.lowest := by
  have hnonneg := hlaid.nonneg
  have hle : -(f.lower t l s).2.lowest ≤ f.frame t l s := le_alignFrame (by omega)
  omega

/-- Parameters and locals lie in the part of the frame that the layout counts. -/
theorem Laid.zone_of_local (h : f.Laid t l) {base b : Word} (hb : f.Local t base b) :
    Zone base (-l.displacement) 0 b := by
  obtain ⟨x, offset, hx, hoffset, hcovers⟩ := hb
  obtain ⟨o, ho, hlo, hhi⟩ := h.places x hx
  cases hoffset.symm.trans ho
  exact (zone_of_covers hcovers).mono hlo hhi

/-- The program owns no temporary. -/
theorem Entered.temporaries (h : f.Entered t l s w E m) (hlaid : f.Laid t l) {b : Word}
    (hb : E.owned b = true) : ¬Zone (m.stack - 8) (-f.frame t l s) (-l.displacement) b := by
  have hroom := h.room
  rcases h.apart b hb with hlocal | ⟨hnot, -⟩
  · exact fun hz => hz.not_above (Int.le_refl _) (by omega) (hlaid.zone_of_local hlocal)
  · exact hnot

/-- The program owns nothing of what links the frame to that of the caller. -/
theorem Entered.link (h : f.Entered t l s w E m) (hlaid : f.Laid t l)
    (hle : l.displacement ≤ f.frame t l s) {b : Word} (hb : E.owned b = true) :
    ¬Zone (m.stack - 8) 0 16 b := by
  have hroom := h.room
  rcases h.apart b hb with hlocal | ⟨-, hnot⟩
  · exact (hlaid.zone_of_local hlocal).not_above (Int.le_refl _) (by omega)
  · exact hnot

/-- The frame lies below what links it to the caller. -/
theorem Entered.not_zone (h : f.Entered t l s w E m) {b : Word} (hb : Zone (m.stack - 8) 0 16 b) :
    ¬Zone (m.stack - 8) (-f.frame t l s) 0 b := by
  have hroom := h.room
  exact fun hz => hz.not_above (Int.le_refl 0) (by omega) hb

/-- The setting in which the body runs. -/
def scene (f : Function) (t : SymbolTable) (l : Layout) (s : State) (w : World) (E : Env)
    (m : Machine) : Scene := ⟨w, E, m.stack - 8, -f.frame t l s⟩

/-- Behind the prologue the machine agrees with the memory that has the arguments in place. -/
theorem Entered.agrees (h : f.Entered t l s w E m) (hlaid : f.Laid t l)
    (hle : l.displacement ≤ f.frame t l s) {m₁ : Machine} (hbase : m₁.base = m.stack - 8)
    (hmemory : m₁.memory = Routine.arrive (m.stack - 8) m.regs (Routine.registerParams t f) Reg.args
      (m.memory.store (m.stack - 8) 8 m.base)) :
    (f.scene t l s w E m).Agrees (f.arrival t m) (bodyStart s l) m₁ := by
  have hroom := h.room
  have hnonneg := hlaid.nonneg
  refine ⟨hbase, fun b hb => ?_, fun b hb => h.temporaries hlaid hb, ?_⟩
  · rw [hmemory]
    refine Routine.arrive_congr _ _ (Memory.store_of_not_covers _ fun hcovers => ?_)
    exact h.link hlaid hle hb ((zone_of_covers_base hcovers).mono (Int.le_refl 0) (by decide))
  · show -l.displacement - -f.frame t l s ≤ 2 ^ 64
    omega

/-- Behind the body the memory outside the frame has only the caller's frame base added, as far as
the program does not own it. -/
theorem Laid.memory_of_keeps (h : f.Laid t l) {m₁ m₂ : Machine}
    (hmemory : m₁.memory = Routine.arrive (m.stack - 8) m.regs (Routine.registerParams t f) Reg.args
      (m.memory.store (m.stack - 8) 8 m.base))
    (hkeeps : (f.scene t l s w E m).Keeps (bodyStart s l) m₁ m₂)
    (hle : l.displacement ≤ f.frame t l s) {b : Word} (howned : E.owned b = false)
    (hb : ¬Zone (m.stack - 8) (-f.frame t l s) 0 b) :
    m₂.memory b = m.memory.store (m.stack - 8) 8 m.base b := by
  have hnonneg := h.nonneg
  rw [hkeeps.memory b howned fun hz => hb (hz.mono (Int.le_refl _) ?_), hmemory,
    h.arrive_of_not_zone fun hz => hb (hz.mono (by omega) (Int.le_refl 0))]
  show -l.displacement ≤ 0
  omega

/-- Prologue, body and epilogue run one after the other, up to the return. -/
theorem steps_lower {m₁ m₂ : Machine} {e : Exit}
    (hgrow : s.nextLabel < (f.lower t l s).2.nextLabel)
    (hprologue : w.Reaches s.nextLabel (Routine.prologue t f (f.frame t l s)) m .next m₁)
    (hlabels : LabelsIn (s.nextLabel + 1) (f.lower t l s).2.nextLabel
      (Stmt.lowerAll t ⟨s.nextLabel⟩ f.body (bodyStart s l)).code)
    (hbody : w.Reaches (s.nextLabel + 1)
      (Stmt.lowerAll t ⟨s.nextLabel⟩ f.body (bodyStart s l)).code m₁ e m₂)
    (he : e = .next ∨ e = .jump ⟨s.nextLabel⟩) :
    ∃ i, w.Steps (f.lower t l s).1.code (0, m)
        (i, { m₂ with base := m₂.memory.load m₂.base 8, stack := m₂.base + 8 }) ∧
      (f.lower t l s).1.code[i]? = some (.instr .ret) := by
  -- The label of the epilogue was handed out before all labels of the body.
  have hdone := hlabels.not_mem (l := ⟨s.nextLabel⟩) (Or.inl (Nat.lt_succ_self _))
  have hmarked := hbody.mark he (Nat.le_succ _) (Nat.le_refl s.nextLabel) hdone
  have hlabels' := (hlabels.mono (Nat.zero_le _) (Nat.le_refl _)).union
    (labelsIn_label (l := ⟨s.nextLabel⟩) (Nat.zero_le _) hgrow)
  have hrest := hmarked.append hlabels' (Nat.le_of_lt hgrow) (Routine.reaches_epilogue m₂ _)
  have hrun := hprologue.append (Routine.labelsIn_prologue 0 s.nextLabel t f _) (Nat.le_refl _)
    hrest
  have hcode : (f.lower t l s).1.code = Routine.prologue t f (f.frame t l s) ++
      ((Stmt.lowerAll t ⟨s.nextLabel⟩ f.body (bodyStart s l)).code ++ [.label ⟨s.nextLabel⟩] ++
        [.instr .leaveFrame, .instr .restoreFrame]) ++ [.instr .ret] := by
    simp [code_lower, Routine.epilogue]
  rw [hcode]
  have hsteps := hrun _ 0 ⟨[], [.instr .ret], rfl, rfl, fun _ h => absurd h List.not_mem_nil⟩
  rw [Nat.zero_add] at hsteps
  exact ⟨_, hsteps, List.getElem?_concat_length⟩

/-- The body of an accepted function has the effect of its statements. -/
theorem performs_body {S : Scene} {result : Ty} (hplaces : S.Places t)
    (hresult : result.isScalar = true) (hbody : ∀ st ∈ f.body, st.Accepted t result)
    (hplain : ∀ st ∈ f.body, ∀ e ∈ st.exprs, e.Every Expr.Plain) (done : Label) (k : Nat) :
    Lowering.Performs S (Stmt.lowerAll t done f.body) done result.size k
      (Stmt.textCountAll f.body) (Stmt.execAll S.env k f.body) :=
  Lowering.performs_all f.body k fun st hst =>
    Lowering.performs_accepted hplaces hresult (hbody st hst) (hplain st hst)

/-- Where the body kept what links the frame to the caller, the epilogue gives all of it back. -/
theorem Entered.returned (h : f.Entered t l s w E m) (hlaid : f.Laid t l)
    (hle : l.displacement ≤ f.frame t l s)
    {m₂ : Machine} {o : Outcome} {M' : Memory} (hbase : m₂.base = m.stack - 8)
    (hmemory : ∀ b, E.owned b = false → ¬Zone (m.stack - 8) (-f.frame t l s) 0 b →
      m₂.memory b = m.memory.store (m.stack - 8) 8 m.base b)
    (howned : ∀ b, E.owned b = true → m₂.memory b = M' b)
    (hleaves : o.Leaves (t.symbol f.symbol).ty.result.size m₂) :
    f.Returned t l s E m o M'
      { m₂ with base := m₂.memory.load m₂.base 8, stack := m₂.base + 8 } := by
  -- What links the frame to the caller is neither owned nor a temporary, so it is as it was.
  have hlink : ∀ b, Zone (m.stack - 8) 0 16 b →
      m₂.memory b = m.memory.store (m.stack - 8) 8 m.base b := by
    intro b hb
    refine hmemory b ?_ (h.not_zone hb)
    cases hb' : E.owned b with
    | true => exact absurd hb (h.link hlaid hle hb')
    | false => rfl
  refine ⟨?_, ?_, ?_, howned, ?_, ?_⟩
  · show m₂.base + 8 = m.stack
    rw [hbase, BitVec.sub_add_cancel]
  · show m₂.memory.load m₂.base 8 = m.base
    rw [hbase, Memory.load_congr (Nat.le_refl 8) fun b hb =>
      hlink b ((zone_of_covers_base hb).mono (Int.le_refl 0) (by decide)), Memory.load_store]
  · refine Memory.load_congr (Nat.le_refl 8) fun b hb => ?_
    have hstack : m.stack = m.stack - 8 + BitVec.ofInt 64 8 := (BitVec.sub_add_cancel _ _).symm
    rw [hstack] at hb
    have hzone := zone_of_covers hb
    rw [hlink b (hzone.mono (by decide) (by decide))]
    refine Memory.store_of_not_covers _ fun hcovers => ?_
    exact (zone_of_covers_base hcovers).not_above (Int.le_refl 8) (by decide) hzone
  · intro b hb hz
    show m₂.memory b = m.memory b
    rw [hmemory b hb fun hz' => hz (hz'.mono (Int.le_refl _) (by decide))]
    refine Memory.store_of_not_covers _ fun hcovers => hz ?_
    have hnonneg := hlaid.nonneg
    exact (zone_of_covers_base hcovers).mono (by omega) (Int.le_refl _)
  · rintro x rfl
    exact hleaves

/-- The code reaches its return with the body's effect, if the body has one. -/
theorem lower_function_correct (hfunction : (t.symbol f.symbol).ty.isFunction = true)
    (hbody : ∀ st ∈ f.body, st.Accepted t (t.symbol f.symbol).ty.result)
    (hplain : ∀ st ∈ f.body, ∀ e ∈ st.exprs, e.Every Expr.Plain) (hlaid : f.Laid t l)
    (hentered : f.Entered t l s w E m) {o : Outcome} {M' : Memory}
    (hexec : Stmt.execAll E s.texts.length f.body (f.arrival t m) o M') :
    ∃ i m', w.Steps (f.lower t l s).1.code (0, m) (i, m') ∧
      (f.lower t l s).1.code[i]? = some (.instr .ret) ∧ f.Returned t l s E m o M' m' := by
  have hresult := Ty.isScalar_result hfunction
  have hplaces : (f.scene t l s w E m).Places t := hentered.places
  have hachieves := performs_body hplaces hresult hbody hplain ⟨s.nextLabel⟩ s.texts.length
    (bodyStart s l) (State.sound_of_empty fun _ => rfl) rfl
  rw [← state_lower f t l s] at hachieves
  obtain ⟨hle, hfloor⟩ := frame_bounds hlaid hachieves.passes.lowest
  obtain ⟨m₁, hprologue, hbase₁, hmemory₁⟩ := Routine.reaches_prologue (w := w)
    hlaid.params (f.frame t l s) m s.nextLabel
  have hagrees := hentered.agrees hlaid hle hbase₁ hmemory₁
  obtain ⟨m₂, hrun, hagrees₂, hkeeps, hleaves⟩ :=
    hachieves.runs _ o M' hexec m₁ hagrees ⟨hfloor, hentered.texts⟩
  have hexit : o.exit ⟨s.nextLabel⟩ = .next ∨ o.exit ⟨s.nextLabel⟩ = .jump ⟨s.nextLabel⟩ := by
    cases o with
    | done => exact Or.inl rfl
    | returned x => exact Or.inr rfl
  obtain ⟨i, hsteps, hret⟩ :=
    steps_lower hachieves.passes.label hprologue hachieves.labels hrun hexit
  refine ⟨i, _, hsteps, hret, hentered.returned hlaid hle hagrees₂.base ?_ hagrees₂.memory hleaves⟩
  exact fun b => hlaid.memory_of_keeps hmemory₁ hkeeps hle

/-- A function that counts its parameter down to zero and returns it. -/
theorem lower_function_correct_countdown :
    let t : SymbolTable := ⟨[.fresh "f" (.func .int 0 [.int]), ⟨"x", .int, some (-4)⟩],
      [⟨none, [("f", ⟨0⟩)], [⟨1⟩]⟩, ⟨some ⟨0⟩, [("x", ⟨1⟩)], []⟩], []⟩
    let x := Expr.ofSymbol t ⟨1⟩
    let less := (Typing.binary .sub x (Expr.ofInteger ⟨1, false⟩)).node
    let f : Function := ⟨⟨0⟩, ⟨1⟩,
      [(Typing.loop x (Typing.assign x less).node).node, (Typing.ret .int x).node]⟩
    let l : Layout := ⟨[⟨⟨1⟩, -4⟩], 4⟩
    let w : World := ⟨fun _ => 0, fun _ => 0, fun _ _ => none⟩
    let E : Env := ⟨fun x => match x.index with | 1 => 65532 | _ => 0, fun _ => 0,
      fun b => Covers 65532 4 b⟩
    let m : Machine := ⟨fun _ => 1, 131072, 65544, fun _ => 0, none⟩
    f.Laid t l ∧ f.Entered t l (.start true) w E m ∧
      ∃ M', Stmt.execAll E 0 f.body (f.arrival t m) (.returned 0) M' ∧
        ∃ i m', w.Steps (f.lower t l (.start true)).1.code (0, m) (i, m') ∧
          (f.lower t l (.start true)).1.code[i]? = some (.instr .ret) ∧
          f.Returned t l (.start true) E m (.returned 0) M' m' := by
  intro t x less f l w E m
  have hx : x.Built t := .ident ⟨1⟩
  have hless : less.Built t := .binary .sub hx (.number ⟨1, false⟩)
  have hassign : Stmt.Accepted t .int (Typing.assign x less).node :=
    .assign hx hless ⟨rfl, rfl⟩ rfl
  have hbody : ∀ st ∈ f.body, st.Accepted t (t.symbol f.symbol).ty.result := by
    intro st hst
    rcases List.mem_cons.mp hst with rfl | hst
    · exact .loop hx rfl rfl hassign
    · cases List.mem_singleton.mp hst
      exact .ret hx rfl rfl
  have hplain : ∀ st ∈ f.body, ∀ e ∈ st.exprs, e.Every Expr.Plain := by
    have hname : x.Every Expr.Plain := Expr.every_ident.mpr trivial
    have hvalue : less.Every Expr.Plain :=
      Expr.every_binary.mpr ⟨trivial, hname, Expr.every_number.mpr rfl⟩
    intro st hst e he
    rcases List.mem_cons.mp hst with rfl | hst
    · rcases List.mem_cons.mp he with rfl | he
      · exact hname
      · rcases List.mem_cons.mp he with rfl | he
        · exact hname
        · cases List.mem_singleton.mp he
          exact hvalue
    · cases List.mem_singleton.mp hst
      cases List.mem_singleton.mp he
      exact hname
  have hdemands : Frame.demands t f = [(⟨1⟩, none)] := by
    rw [Frame.demands, SymbolTable.nested]
    rfl
  have hlaid : f.Laid t l := by
    refine ⟨by decide, fun y hy => ?_, fun p hp => ?_⟩
    · rw [hdemands] at hy
      cases List.mem_singleton.mp hy
      exact ⟨-4, rfl, by decide, by decide⟩
    · cases List.mem_singleton.mp hp
      rfl
  have hlocal : ∀ b, E.owned b = true → f.Local t 65536 b := by
    intro b hb
    refine ⟨⟨1⟩, -4, by rw [hdemands]; exact List.mem_singleton.mpr rfl, rfl, ?_⟩
    exact (of_decide_eq_true hb : Covers 65532 4 b)
  have hbase : m.stack - 8 = 65536 := by decide
  have hframe : f.frame t l (.start true) = 16 := by decide +kernel
  have hentered : f.Entered t l (.start true) w E m := by
    refine ⟨?_, fun _ _ _ _ => rfl, fun b hb => Or.inl (hbase ▸ hlocal b hb), ?_⟩
    · rintro ⟨_ | _ | i⟩
      · rfl
      · decide
      · rfl
    · rw [hframe]
      decide
  let M₀ := f.arrival t m
  let M₁ := M₀.store (.ofInt 64 65532) 4 (.ofInt 64 0)
  have hone : x.eval E M₀ 0 = some 1 := by decide
  have hstore : (Typing.assign x less).node.exec E 0 M₀ .done M₁ :=
    ⟨65532, 0, by decide, by decide, by decide, rfl, rfl⟩
  have hzero : x.eval E M₁ 0 = some 0 := by decide
  have hloop : (Typing.loop x (Typing.assign x less).node).node.exec E 0 M₀ .done M₁ :=
    .again hone (by decide) hstore (.stop hzero)
  have hret : (Typing.ret .int x).node.exec E 0 M₁ (.returned 0) M₁ := ⟨0, hzero, rfl, rfl⟩
  have hexec : Stmt.execAll E 0 f.body M₀ (.returned 0) M₁ :=
    Or.inl ⟨M₁, hloop, Or.inr ⟨0, rfl, hret⟩⟩
  exact ⟨hlaid, hentered, M₁, hexec, lower_function_correct rfl hbody hplain hlaid hentered hexec⟩

end

end Function

end LittleC
