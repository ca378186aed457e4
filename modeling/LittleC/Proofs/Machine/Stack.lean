import LittleC.Proofs.Machine.Run

/-! # The stack along a path

The paths through a routine and what they do to the stack pointer and the frame base. Code is
disciplined when it pushes only what it hands over to a call, and the line behind the call pops all
of it. -/

namespace LittleC

/-! ## Paths -/

namespace Line

/-- How far the line raises the stack pointer. -/
def rise : Line → Int
  | .instr (.push _) => -8
  | .instr (.reserve n) => -n
  | .instr (.discard n) => n
  | _ => 0

/-- Control goes on behind the line, and the line is none of those that change frames. -/
def isStraight : Line → Bool
  | .instr (.jmp _) | .instr .ret => false
  | .instr .saveFrame | .instr .enterFrame | .instr .leaveFrame | .instr .restoreFrame => false
  | _ => true

/-- Control comes together or parts at the line. -/
def isMark : Line → Bool
  | .label _ | .instr (.jmp _) | .instr (.jcc _ _) => true
  | _ => false

def isCall : Line → Bool
  | .instr (.call _) => true
  | _ => false

/-- What takes arguments to where a call expects them. -/
def handsOver : Line → Bool
  | .instr (.mov _ _ _) | .instr (.push _) | .instr (.reserve _) => true
  | _ => false

end Line

/-- How far code raises the stack pointer from its first line to behind its last. -/
def rise (code : List Line) : Int := (code.map Line.rise).sum

@[simp] theorem rise_nil : rise [] = 0 := rfl

@[simp] theorem rise_cons (l : Line) (code : List Line) : rise (l :: code) = l.rise + rise code :=
  rfl

theorem rise_append (code rest : List Line) : rise (code ++ rest) = rise code + rise rest := by
  simp [rise]

/-- A moment of a run, as far as the stack is concerned. -/
structure Position where
  line : Nat
  stack : Word
  base : Word

/-- One step along a path. Of a conditional jump both ways are taken, a called function gives back
the stack pointer and the frame base, and nothing is known of a frame base that comes off the
stack. -/
inductive Flows (code : List Line) : Position → Position → Prop where
  | next {i : Nat} {sp bp : Word} {l : Line} (hl : code[i]? = some l) (hs : l.isStraight = true) :
      Flows code ⟨i, sp, bp⟩ ⟨i + 1, sp + .ofInt 64 l.rise, bp⟩
  | jump {i j : Nat} {sp bp : Word} {l : Label} (hi : code[i]? = some (.instr (.jmp l)))
      (hj : l.line? code = some j) : Flows code ⟨i, sp, bp⟩ ⟨j, sp, bp⟩
  | branch {i j : Nat} {sp bp : Word} {c : Comparison} {l : Label}
      (hi : code[i]? = some (.instr (.jcc c l))) (hj : l.line? code = some j) :
      Flows code ⟨i, sp, bp⟩ ⟨j, sp, bp⟩
  | save {i : Nat} {sp bp : Word} (hi : code[i]? = some (.instr .saveFrame)) :
      Flows code ⟨i, sp, bp⟩ ⟨i + 1, sp - 8, bp⟩
  | enter {i : Nat} {sp bp : Word} (hi : code[i]? = some (.instr .enterFrame)) :
      Flows code ⟨i, sp, bp⟩ ⟨i + 1, sp, sp⟩
  | leave {i : Nat} {sp bp : Word} (hi : code[i]? = some (.instr .leaveFrame)) :
      Flows code ⟨i, sp, bp⟩ ⟨i + 1, bp, bp⟩
  | restore {i : Nat} {sp bp bp' : Word} (hi : code[i]? = some (.instr .restoreFrame)) :
      Flows code ⟨i, sp, bp⟩ ⟨i + 1, sp + 8, bp'⟩

/-- Paths of any number of steps. -/
def Path (code : List Line) : Position → Position → Prop := Relation.ReflTransGen (Flows code)

def Machine.position (m : Machine) (i : Nat) : Position := ⟨i, m.stack, m.base⟩

namespace Machine

theorem stack_write (w : World) (m : Machine) (n : Nat) (v : Word) (o : Operand) :
    (m.write w n v o).stack = m.stack := by cases o <;> rfl

theorem base_write (w : World) (m : Machine) (n : Nat) (v : Word) (o : Operand) :
    (m.write w n v o).base = m.base := by cases o <;> rfl

/-- A straight instruction moves the stack pointer as its line says. -/
theorem exec_straight {w : World} {i : Instr} {m m' : Machine}
    (hcalls : ∀ name m m', w.calls name m = some m' → m'.stack = m.stack ∧ m'.base = m.base)
    (hi : (Line.instr i).isStraight = true) (h : m.exec w i = some m') :
    m'.stack = m.stack + .ofInt 64 (Line.instr i).rise ∧ m'.base = m.base := by
  have hzero : m.stack + BitVec.ofInt 64 0 = m.stack := by simp
  have hkeep : ∀ {o : Machine}, some o = some m' → o.stack = m.stack → o.base = m.base →
      m'.stack = m.stack + BitVec.ofInt 64 0 ∧ m'.base = m.base := by
    rintro o ⟨⟩ hstack hbase
    exact ⟨by rw [hstack, hzero], hbase⟩
  cases i with
  | mov n source target => exact hkeep h (stack_write ..) (base_write ..)
  | movs narrow wide r => exact hkeep h rfl rfl
  | movzb r => exact hkeep h rfl rfl
  | lea source r =>
      cases source with
      | mem p => exact hkeep h rfl rfl
      | imm v => cases h
      | reg r size => cases h
  | alu op n source r => exact hkeep h rfl rfl
  | neg n r => exact hkeep h rfl rfl
  | cmp n source r => exact hkeep h rfl rfl
  | set c r =>
      obtain ⟨f, -, hf⟩ := Option.map_eq_some_iff.mp h
      exact hkeep (congrArg some hf) rfl rfl
  | signExtend wide => exact hkeep h rfl rfl
  | idiv n divisor =>
      simp only [exec, divide] at h
      split at h
      · exact hkeep h rfl rfl
      · cases h
  | push source =>
      cases h
      exact ⟨BitVec.sub_eq_add_neg .., rfl⟩
  | call name =>
      obtain ⟨hstack, hbase⟩ := hcalls name m m' h
      exact hkeep rfl hstack hbase
  | reserve n =>
      cases h
      exact ⟨by simp [Line.rise, BitVec.ofInt_neg, BitVec.sub_eq_add_neg], rfl⟩
  | discard n =>
      cases h
      exact ⟨rfl, rfl⟩
  | jmp l => cases h
  | jcc c l => cases h
  | saveFrame => cases hi
  | enterFrame => cases hi
  | leaveFrame => cases hi
  | restoreFrame => cases hi
  | ret => cases h

end Machine

namespace World

variable {w : World} {code : List Line}

theorem flows_of_exec {i : Nat} {instr : Instr} {m m' : Machine}
    (hcalls : ∀ name m m', w.calls name m = some m' → m'.stack = m.stack ∧ m'.base = m.base)
    (hi : code[i]? = some (.instr instr)) (h : m.exec w instr = some m') :
    Flows code (m.position i) (m'.position (i + 1)) := by
  by_cases hs : (Line.instr instr).isStraight = true
  · obtain ⟨hstack, hbase⟩ := Machine.exec_straight hcalls hs h
    rw [Machine.position, Machine.position, hstack, hbase]
    exact .next hi hs
  · cases instr with
    | saveFrame =>
        cases h
        exact .save hi
    | enterFrame =>
        cases h
        exact .enter hi
    | leaveFrame =>
        cases h
        exact .leave hi
    | restoreFrame =>
        cases h
        exact .restore hi
    | jmp l => cases h
    | ret => cases h
    | _ => exact absurd rfl hs

/-- What neither jumps nor moves the stack pointer is passed by. -/
theorem flows_next {i : Nat} {l : Line} (m : Machine) (hi : code[i]? = some l)
    (hs : l.isStraight = true) (hrise : l.rise = 0) :
    Flows code (m.position i) (m.position (i + 1)) := by
  have hflows : Flows code ⟨i, m.stack, m.base⟩ _ := .next hi hs
  rwa [hrise, BitVec.ofInt_ofNat, BitVec.add_zero] at hflows

/-- A step of the machine is a step along a path. -/
theorem flows_of_step {c d : Nat × Machine}
    (hcalls : ∀ name m m', w.calls name m = some m' → m'.stack = m.stack ∧ m'.base = m.base)
    (h : w.step code c.1 c.2 = some d) : Flows code (c.2.position c.1) (d.2.position d.1) := by
  obtain ⟨i, m⟩ := c
  simp only [step] at h
  split at h
  case h_1 l hi =>
      obtain ⟨j, hj, rfl⟩ := Option.map_eq_some_iff.mp h
      exact .jump hi hj
  case h_2 c l hi =>
      obtain ⟨f, -, hf⟩ := Option.bind_eq_some_iff.mp h
      split at hf
      · obtain ⟨j, hj, rfl⟩ := Option.map_eq_some_iff.mp hf
        exact .branch hi hj
      · cases hf
        exact flows_next m hi rfl rfl
  case h_3 instr hjmp hjcc hi =>
      split at h
      · obtain ⟨m', hexec, rfl⟩ := Option.map_eq_some_iff.mp h
        exact flows_of_exec hcalls hi hexec
      · cases h
  case h_4 l hi =>
      cases h
      exact flows_next m hi rfl rfl
  case h_5 text hi =>
      cases h
      exact flows_next m hi rfl rfl
  case h_6 hi => cases h

/-- A run of the machine is a path through the code. -/
theorem path_of_steps {c d : Nat × Machine}
    (hcalls : ∀ name m m', w.calls name m = some m' → m'.stack = m.stack ∧ m'.base = m.base)
    (h : w.Steps code c d) : Path code (c.2.position c.1) (d.2.position d.1) :=
  h.lift (fun c : Nat × Machine => c.2.position c.1) fun _ _ => flows_of_step hcalls

end World

/-! ## Disciplined code -/

namespace Line

/-- The line leaves the stack and the frame as they are and calls nothing. -/
def isPlain (l : Line) : Bool := l.rise == 0 && (l.isStraight || l.isMark) && !l.isCall

theorem rise_of_isPlain {l : Line} (h : l.isPlain = true) : l.rise = 0 := by
  simp only [isPlain, Bool.and_eq_true, beq_iff_eq] at h
  exact h.1.1

theorem not_isCall_of_isPlain {l : Line} (h : l.isPlain = true) : l.isCall = false := by
  simp only [isPlain, Bool.and_eq_true, Bool.not_eq_true'] at h
  exact h.2

theorem straight_of_handsOver {l : Line} (h : l.handsOver = true) :
    l.isStraight = true ∧ l.isMark = false ∧ l.isCall = false := by
  cases l with
  | instr i => cases i <;> simp_all [handsOver, isStraight, isMark, isCall]
  | label l => cases h
  | note text => cases h

end Line

/-- The bytes that the first line takes off the stack. -/
def popped : List Line → Int
  | .instr (.discard n) :: _ => n
  | _ => 0

/-- Code for the time when `h` bytes are pushed for a call to come: from the first of them to the
call nothing happens but that more arguments are handed over, and the line behind the call pops them
all. -/
inductive Disciplined : Int → List Line → Prop where
  | nil : Disciplined 0 []
  | plain {l : Line} {rest : List Line} (hl : l.isPlain = true) (hrest : Disciplined 0 rest) :
      Disciplined 0 (l :: rest)
  | handOver {h : Int} {l : Line} {rest : List Line} (hl : l.handsOver = true)
      (hrest : Disciplined (h - l.rise) rest) : Disciplined h (l :: rest)
  | call {name : String} {rest : List Line} (hrest : Disciplined 0 rest) :
      Disciplined 0 (.instr (.call name) :: rest)
  | callPushed {h : Int} {name : String} {rest : List Line} (hh : 16 ∣ h)
      (hrest : Disciplined 0 rest) :
      Disciplined h (.instr (.call name) :: .instr (.discard h) :: rest)

/-- The lines from `k` up to `i` hand over arguments. -/
def Handover (code : List Line) (k i : Nat) : Prop :=
  k ≤ i ∧ ∀ l ∈ (code.take i).drop k, l.handsOver = true

theorem popped_append_cons (code rest : List Line) {l : Line} (hl : popped [l] = 0) :
    popped (code ++ l :: rest) = popped code := by
  cases code with
  | nil =>
      cases l with
      | instr i => cases i <;> first | rfl | exact hl
      | _ => rfl
  | cons l' code =>
      cases l' with
      | instr i => cases i <;> rfl
      | _ => rfl

namespace Disciplined

variable {h : Int} {code rest : List Line} {i : Nat} {l : Line}

theorem append (hcode : Disciplined h code) (hrest : Disciplined 0 rest) :
    Disciplined h (code ++ rest) := by
  induction hcode with
  | nil => exact hrest
  | plain hl _ ih => exact .plain hl ih
  | handOver hl _ ih => exact .handOver hl ih
  | call _ ih => exact .call ih
  | callPushed hh _ ih => exact .callPushed hh ih

/-- Handing over arguments comes before what is disciplined with their bytes pushed. -/
theorem handOver_append : ∀ {pass : List Line} {h : Int}, (∀ l ∈ pass, l.handsOver = true) →
    Disciplined (h - LittleC.rise pass) rest → Disciplined h (pass ++ rest)
  | [], h, _, hrest => by simpa using hrest
  | l :: pass, h, hpass, hrest => by
      refine .handOver (hpass l List.mem_cons_self) ?_
      refine handOver_append (fun l' hl' => hpass l' (List.mem_cons_of_mem _ hl')) ?_
      rwa [Int.sub_sub]

/-- In the end nothing is left of what was pushed. -/
theorem rise_eq (hcode : Disciplined h code) : rise code = h := by
  induction hcode with
  | nil => rfl
  | plain hl _ ih => simp [Line.rise_of_isPlain hl, ih]
  | handOver _ _ ih =>
      rw [rise_cons, ih]
      omega
  | call _ ih => simp [ih, Line.rise]
  | callPushed _ _ ih => simp [ih, Line.rise]

/-- Where control comes together or parts, nothing is pushed. -/
theorem rise_of_isMark (hcode : Disciplined h code) (hl : l.isMark = true)
    (hi : code[i]? = some l) : rise (code.take i) = h := by
  induction hcode generalizing i with
  | nil => simp at hi
  | plain hplain _ ih =>
      cases i with
      | zero => rfl
      | succ i => simp [Line.rise_of_isPlain hplain, ih hi]
  | @handOver h l' rest hpass _ ih =>
      cases i with
      | zero =>
          cases hi
          simp [(Line.straight_of_handsOver hpass).2.1] at hl
      | succ i =>
          rw [List.take_succ_cons, rise_cons, ih hi]
          omega
  | call _ ih =>
      cases i with
      | zero => rfl
      | succ i => simp [Line.rise, ih hi]
  | callPushed _ _ ih =>
      match i with
      | 0 =>
          cases hi
          cases hl
      | 1 =>
          cases hi
          cases hl
      | i + 2 => simp [Line.rise, ih hi]

theorem popped_eq_zero (hcode : Disciplined 0 code) : popped code = 0 := by
  cases hcode with
  | nil => rfl
  | @plain l rest hl _ =>
      unfold popped
      split
      · rename_i n _ heq
        cases heq
        exact Line.rise_of_isPlain hl
      · rfl
  | @handOver _ l rest hl _ =>
      unfold popped
      split
      · rename_i heq
        cases heq
        cases hl
      · rfl
  | call _ => rfl
  | callPushed _ _ => rfl

/-- At a call the bytes pushed keep the alignment, and they are what the next line pops. -/
theorem at_call {name : String} (hcode : Disciplined h code)
    (hi : code[i]? = some (.instr (.call name))) :
    16 ∣ h - rise (code.take i) ∧ popped (code.drop (i + 1)) = h - rise (code.take i) := by
  induction hcode generalizing i with
  | nil => simp at hi
  | @plain l rest hplain _ ih =>
      cases i with
      | zero =>
          cases hi
          cases Line.not_isCall_of_isPlain hplain
      | succ i => simpa [Line.rise_of_isPlain hplain] using ih hi
  | @handOver h l rest hpass _ ih =>
      cases i with
      | zero =>
          cases hi
          cases hpass
      | succ i =>
          rw [List.take_succ_cons, rise_cons, ← Int.sub_sub]
          exact ih hi
  | call hrest ih =>
      cases i with
      | zero => exact ⟨by simp, by simpa using hrest.popped_eq_zero⟩
      | succ i => simpa [Line.rise] using ih hi
  | callPushed hh _ ih =>
      match i with
      | 0 => exact ⟨by simpa using hh, by simp [popped]⟩
      | 1 => cases hi
      | i + 2 => simpa [Line.rise] using ih hi

/-- Since nothing was pushed, arguments have been handed over and nothing else. -/
theorem handover_of_call {name : String} (hcode : Disciplined h code)
    (hi : code[i]? = some (.instr (.call name))) :
    Handover code 0 i ∨ ∃ k, Handover code k i ∧ rise (code.take k) = h := by
  induction hcode generalizing i with
  | nil => simp at hi
  | @plain l rest hplain _ ih =>
      cases i with
      | zero => exact .inl ⟨Nat.le_refl 0, by simp⟩
      | succ i =>
          refine .inr ?_
          rcases ih hi with ⟨-, hpass⟩ | ⟨k, ⟨hk, hpass⟩, hrise⟩
          · exact ⟨1, ⟨by omega, by simpa using hpass⟩, by simp [Line.rise_of_isPlain hplain]⟩
          · exact ⟨k + 1, ⟨by omega, by simpa using hpass⟩,
              by simp [Line.rise_of_isPlain hplain, hrise]⟩
  | @handOver h l rest hl _ ih =>
      cases i with
      | zero => exact .inl ⟨Nat.le_refl 0, by simp⟩
      | succ i =>
          rcases ih hi with ⟨-, hpass⟩ | ⟨k, ⟨hk, hpass⟩, hrise⟩
          · refine .inl ⟨Nat.zero_le _, ?_⟩
            intro l' hl'
            rcases List.mem_cons.mp hl' with rfl | hl'
            · exact hl
            · exact hpass l' hl'
          · refine .inr ⟨k + 1, ⟨by omega, by simpa using hpass⟩, ?_⟩
            rw [List.take_succ_cons, rise_cons, hrise]
            omega
  | call _ ih =>
      cases i with
      | zero => exact .inl ⟨Nat.le_refl 0, by simp⟩
      | succ i =>
          refine .inr ?_
          rcases ih hi with ⟨-, hpass⟩ | ⟨k, ⟨hk, hpass⟩, hrise⟩
          · exact ⟨1, ⟨by omega, by simpa using hpass⟩, rfl⟩
          · exact ⟨k + 1, ⟨by omega, by simpa using hpass⟩, by simp [Line.rise, hrise]⟩
  | @callPushed h name' rest _ _ ih =>
      match i with
      | 0 => exact .inl ⟨Nat.le_refl 0, by simp⟩
      | 1 => cases hi
      | i + 2 =>
          refine .inr ?_
          rcases ih hi with ⟨-, hpass⟩ | ⟨k, ⟨hk, hpass⟩, hrise⟩
          · exact ⟨2, ⟨by omega, by simpa using hpass⟩, by simp [Line.rise]⟩
          · exact ⟨k + 2, ⟨by omega, by simpa using hpass⟩, by simp [Line.rise, hrise]⟩

/-- Disciplined code does not change frames. -/
theorem straight_or_mark (hcode : Disciplined h code) (hl : l ∈ code) :
    l.isStraight = true ∨ l.isMark = true := by
  induction hcode with
  | nil => exact absurd hl List.not_mem_nil
  | plain hplain _ ih =>
      rcases List.mem_cons.mp hl with rfl | hl
      · simp only [Line.isPlain, Bool.and_eq_true, Bool.or_eq_true] at hplain
        exact hplain.1.2
      · exact ih hl
  | handOver hpass _ ih =>
      rcases List.mem_cons.mp hl with rfl | hl
      · exact .inl (Line.straight_of_handsOver hpass).1
      · exact ih hl
  | call _ ih =>
      rcases List.mem_cons.mp hl with rfl | hl
      · exact .inl rfl
      · exact ih hl
  | callPushed _ _ ih =>
      rcases List.mem_cons.mp hl with rfl | hl
      · exact .inl rfl
      · rcases List.mem_cons.mp hl with rfl | hl
        · exact .inl rfl
        · exact ih hl

end Disciplined

/-! ## Routines -/

namespace Flows

variable {code : List Line} {p q : Position} {l : Line}

theorem exists_line (h : Flows code p q) : ∃ l, code[p.line]? = some l := by
  cases h <;> exact ⟨_, by assumption⟩

/-- Control goes on behind every line but a jump. -/
theorem line_eq (h : Flows code p q) (hl : code[p.line]? = some l) (hmark : l.isMark = false) :
    q.line = p.line + 1 := by
  cases h with
  | jump hi hj =>
      cases hl.symm.trans hi
      cases hmark
  | branch hi hj =>
      cases hl.symm.trans hi
      cases hmark
  | _ => rfl

theorem of_save (h : Flows code p q) (hl : code[p.line]? = some (.instr .saveFrame)) :
    q = ⟨p.line + 1, p.stack - 8, p.base⟩ := by
  cases h with
  | save hi => rfl
  | next hi hs =>
      cases hl.symm.trans hi
      cases hs
  | jump hi hj => cases hl.symm.trans hi
  | branch hi hj => cases hl.symm.trans hi
  | enter hi => cases hl.symm.trans hi
  | leave hi => cases hl.symm.trans hi
  | restore hi => cases hl.symm.trans hi

theorem of_enter (h : Flows code p q) (hl : code[p.line]? = some (.instr .enterFrame)) :
    q = ⟨p.line + 1, p.stack, p.stack⟩ := by
  cases h with
  | enter hi => rfl
  | next hi hs =>
      cases hl.symm.trans hi
      cases hs
  | jump hi hj => cases hl.symm.trans hi
  | branch hi hj => cases hl.symm.trans hi
  | save hi => cases hl.symm.trans hi
  | leave hi => cases hl.symm.trans hi
  | restore hi => cases hl.symm.trans hi

end Flows

theorem Label.getElem?_of_line? {l : Label} {code : List Line} {j : Nat}
    (h : l.line? code = some j) : code[j]? = some (.label l) := by
  obtain ⟨hj, hl, -⟩ := List.idxOf?_eq_some_iff.mp h
  exact List.getElem?_eq_some_iff.mpr ⟨hj, eq_of_beq (by simpa using hl)⟩

/-- A routine: code that runs in a frame of its own. -/
def framed (code : List Line) : List Line :=
  [.instr .saveFrame, .instr .enterFrame] ++ code ++
    [.instr .leaveFrame, .instr .restoreFrame, .instr .ret]

/-- Between setting up the frame and giving it back: so many lines of the code are behind. -/
def Inside (code : List Line) (p : Position) (j : Nat) : Prop :=
  p.line = j + 2 ∧ j ≤ code.length ∧ p.base.toNat % 16 = 0 ∧
    p.stack = p.base + .ofInt 64 (rise (code.take j))

/-- What holds all along a path through a routine. -/
def Steady (code : List Line) (p : Position) : Prop :=
  (p.line = 0 ∧ p.stack.toNat % 16 = 8) ∨ (p.line = 1 ∧ p.stack.toNat % 16 = 0) ∨
    (∃ j, Inside code p j) ∨ code.length + 2 < p.line

section
variable {h : Int} {code : List Line} {p q : Position} {i : Nat} {l : Line}

theorem getElem?_framed (hi : i < code.length) : (framed code)[i + 2]? = code[i]? := by
  simp [framed, List.getElem?_append_left, hi]

theorem framed_of_le (hi : code.length ≤ i) (hl : (framed code)[i + 2]? = some l) :
    (i = code.length ∧ l = .instr .leaveFrame) ∨
      (code.length < i ∧ (l = .instr .restoreFrame ∨ l = .instr .ret)) := by
  obtain ⟨k, rfl⟩ := Nat.exists_eq_add_of_le hi
  have hback : (framed code)[code.length + k + 2]? =
      [Line.instr .leaveFrame, .instr .restoreFrame, .instr .ret][k]? := by
    rw [framed, List.getElem?_append_right (by simp)]
    congr 1
    simp
  rw [hback] at hl
  match k with
  | 0 =>
      cases hl
      exact .inl ⟨rfl, rfl⟩
  | 1 =>
      cases hl
      exact .inr ⟨by omega, .inl rfl⟩
  | 2 =>
      cases hl
      exact .inr ⟨by omega, .inr rfl⟩
  | k + 3 => cases hl

/-- All but the lines that change frames stand inside. -/
theorem exists_of_framed (hl : l.isStraight = true ∨ l.isMark = true)
    (hi : (framed code)[i]? = some l) : ∃ j, i = j + 2 ∧ code[j]? = some l := by
  match i with
  | 0 =>
      cases hi
      rcases hl with hl | hl <;> cases hl
  | 1 =>
      cases hi
      rcases hl with hl | hl <;> cases hl
  | i + 2 =>
      by_cases hlt : i < code.length
      · exact ⟨i, rfl, by rw [← getElem?_framed hlt, hi]⟩
      · rcases framed_of_le (by omega) hi with ⟨-, rfl⟩ | ⟨-, rfl | rfl⟩ <;>
          rcases hl with hl | hl <;> cases hl

theorem Steady.inside (hp : Steady code p) (hline : p.line = i + 2) (hi : i ≤ code.length) :
    Inside code p i := by
  rcases hp with ⟨h, -⟩ | ⟨h, -⟩ | ⟨j, hinside⟩ | h
  · omega
  · omega
  · obtain rfl : i = j := by
      have := hinside.1
      omega
    exact hinside
  · omega

theorem rise_take_succ (hi : code[i]? = some l) :
    rise (code.take (i + 1)) = rise (code.take i) + l.rise := by
  rw [List.take_add_one, hi, rise_append]
  simp

/-- Wherever control jumps to from inside, as little is pushed there as here. -/
theorem Inside.jump (hcode : Disciplined h code) (hp : Inside code p i) (hl : l.isMark = true)
    (hi : code[i]? = some l) {target : Label} {j : Nat} (hj : target.line? (framed code) = some j) :
    Steady code ⟨j, p.stack, p.base⟩ := by
  obtain ⟨k, rfl, hk⟩ := exists_of_framed (.inl rfl) (Label.getElem?_of_line? hj)
  obtain ⟨-, -, hbase, hstack⟩ := hp
  refine .inr (.inr (.inl ⟨k, rfl, Nat.le_of_lt (List.getElem?_eq_some_iff.mp hk).1, hbase, ?_⟩))
  rw [hcode.rise_of_isMark rfl hk, ← hcode.rise_of_isMark hl hi]
  exact hstack

/-- One step along a path keeps what holds all along it. -/
theorem Inside.step (hcode : Disciplined h code) (hp : Inside code p i)
    (hstep : Flows (framed code) p q) : Steady code q := by
  have hline := hp.1
  obtain ⟨-, hlen, hbase, hstack⟩ := hp
  by_cases hlt : i < code.length
  · -- The line is one of the code: it is no line that changes frames.
    have hinside : ∀ {l : Line}, (framed code)[p.line]? = some l → code[i]? = some l :=
      fun hl => by rw [← getElem?_framed hlt, ← hline, hl]
    have hkind : ∀ {l : Line}, (framed code)[p.line]? = some l →
        l.isStraight = true ∨ l.isMark = true :=
      fun hl => hcode.straight_or_mark (List.mem_of_getElem? (hinside hl))
    cases hstep with
    | next hl hs =>
        refine .inr (.inr (.inl ⟨i + 1, by simp [← hline], hlt, hbase, ?_⟩))
        rw [rise_take_succ (hinside hl), BitVec.ofInt_add, ← BitVec.add_assoc, ← hstack]
    | jump hi hj => exact Inside.jump hcode ⟨hline, hlen, hbase, hstack⟩ rfl (hinside hi) hj
    | branch hi hj => exact Inside.jump hcode ⟨hline, hlen, hbase, hstack⟩ rfl (hinside hi) hj
    | save hi => rcases hkind hi with h | h <;> cases h
    | enter hi => rcases hkind hi with h | h <;> cases h
    | leave hi => rcases hkind hi with h | h <;> cases h
    | restore hi => rcases hkind hi with h | h <;> cases h
  · -- The frame is given back.
    have hleave : ∀ {l : Line}, (framed code)[p.line]? = some l → l = .instr .leaveFrame := by
      intro l hl
      rw [hline] at hl
      rcases framed_of_le (by omega) hl with ⟨-, h⟩ | ⟨h, -⟩
      · exact h
      · omega
    obtain ⟨l, hl⟩ := hstep.exists_line
    have hnext := hstep.line_eq hl (by rw [hleave hl]; rfl)
    exact .inr (.inr (.inr (by omega)))

theorem Steady.step (hcode : Disciplined h code) (hp : Steady code p)
    (hstep : Flows (framed code) p q) : Steady code q := by
  rcases hp with ⟨hline, hstack⟩ | ⟨hline, hstack⟩ | ⟨j, hinside⟩ | hline
  · have hl : (framed code)[p.line]? = some (.instr .saveFrame) := by rw [hline]; rfl
    rw [hstep.of_save hl]
    refine .inr (.inl ⟨by simp [hline], ?_⟩)
    show (p.stack - 8).toNat % 16 = 0
    bv_omega
  · have hl : (framed code)[p.line]? = some (.instr .enterFrame) := by rw [hline]; rfl
    rw [hstep.of_enter hl]
    exact .inr (.inr (.inl ⟨0, by simp [hline], Nat.zero_le _, hstack, by simp⟩))
  · exact hinside.step hcode hstep
  · obtain ⟨i, hi⟩ := Nat.exists_eq_add_of_lt hline
    have hl : ∀ l, (framed code)[p.line]? = some l →
        l = .instr .restoreFrame ∨ l = .instr .ret := by
      intro l hl
      rw [show p.line = code.length + i + 1 + 2 by omega] at hl
      rcases framed_of_le (by omega) hl with ⟨h, -⟩ | ⟨-, h⟩
      · omega
      · exact h
    obtain ⟨l, hl'⟩ := hstep.exists_line
    have hnext := hstep.line_eq hl' (by rcases hl l hl' with rfl | rfl <;> rfl)
    exact .inr (.inr (.inr (by omega)))

/-- What holds at the entry of a routine holds all along the paths through it. -/
theorem steady_of_path (hcode : Disciplined h code) {sp bp : Word} (halign : sp.toNat % 16 = 8)
    (hpath : Path (framed code) ⟨0, sp, bp⟩ p) : Steady code p := by
  induction hpath with
  | refl => exact .inl ⟨rfl, halign⟩
  | tail _ hstep ih => exact ih.step hcode hstep

end

end LittleC
