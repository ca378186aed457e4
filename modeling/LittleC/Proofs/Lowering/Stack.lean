import LittleC.Proofs.Lowering.Discipline
import LittleC.Proofs.Lowering.Function

/-! # Functions keep the stack's discipline

On every path through a function the stack is aligned at each call, what is pushed for a call is
popped behind it, and nothing is pushed where control comes together or parts and between
statements. -/

namespace LittleC

open Lowering (State)

/-! ## Between statements -/

namespace Stmt

mutual
/-- Line `i` of the code of a statement, lowered in state `s`, is where the statement or one in it
begins or ends. -/
inductive Boundary (t : SymbolTable) (done : Label) : Stmt → State → Nat → Prop where
  | start (x : Stmt) (s : State) : Boundary t done x s 0
  | finish (x : Stmt) (s : State) : Boundary t done x s (x.lower t done s).code.length
  | loop {c : Expr} {body : Stmt} {s : State} {i : Nat}
      (h : Boundary t done body (loopFront t c s).state i) :
      Boundary t done (.loop c body) s ((loopFront t c s).code.length + i)
  | ifThen {c : Expr} {body : Stmt} {s : State} {i : Nat}
      (h : Boundary t done body (ifFront t c s).state i) :
      Boundary t done (.ifThen c body) s ((ifFront t c s).code.length + i)
  | ifElse {c : Expr} {body other : Stmt} {s : State} {i : Nat}
      (h : Boundary t done body (ifFront t c s).state i) :
      Boundary t done (.ifElse c body other) s ((ifFront t c s).code.length + i)
  | other {c : Expr} {body other : Stmt} {s : State} {i : Nat}
      (h : Boundary t done other (elseFront t done c body s).state i) :
      Boundary t done (.ifElse c body other) s ((elseFront t done c body s).code.length + i)
  | block {scope : ScopeId} {body : List Stmt} {s : State} {i : Nat}
      (h : BoundaryAll t done body s i) : Boundary t done (.block scope body) s i

/-- Likewise of statements in sequence. -/
inductive BoundaryAll (t : SymbolTable) (done : Label) : List Stmt → State → Nat → Prop where
  | head {x : Stmt} {xs : List Stmt} {s : State} {i : Nat} (h : Boundary t done x s i) :
      BoundaryAll t done (x :: xs) s i
  | tail {x : Stmt} {xs : List Stmt} {s : State} {i : Nat}
      (h : BoundaryAll t done xs (x.lower t done s).state i) :
      BoundaryAll t done (x :: xs) s ((x.lower t done s).code.length + i)
end

/-- Nothing is pushed at line `i`. -/
def LevelAt (code : List Line) (i : Nat) : Prop := i ≤ code.length ∧ rise (code.take i) = 0

section
variable {front code rest : List Line} {i : Nat}

theorem LevelAt.left (h : LevelAt code i) (rest : List Line) : LevelAt (code ++ rest) i := by
  obtain ⟨hi, hrise⟩ := h
  exact ⟨by simp; omega, by rw [List.take_append_of_le_length hi, hrise]⟩

theorem LevelAt.right (h : LevelAt code i) (hfront : Disciplined 0 front) :
    LevelAt (front ++ code) (front.length + i) := by
  obtain ⟨hi, hrise⟩ := h
  refine ⟨by simp; omega, ?_⟩
  rw [List.take_length_add_append, rise_append, hfront.rise_eq, hrise, Int.add_zero]

theorem levelAt_length (h : Disciplined 0 code) : LevelAt code code.length :=
  ⟨Nat.le_refl _, by rw [List.take_length, h.rise_eq]⟩

end

variable {t : SymbolTable} {done : Label}

mutual
theorem Boundary.levelAt : ∀ {x : Stmt} {s : State} {i : Nat}, Boundary t done x s i →
    LevelAt (x.lower t done s).code i
  | _, _, _, .start x s => ⟨Nat.zero_le _, rfl⟩
  | _, _, _, .finish x s => levelAt_length (balances_lower t done x s)
  | .loop c body, s, _, .loop h => by
      rw [code_loop]
      exact (h.levelAt.right (balances_loopFront t c s)).left _
  | .ifThen c body, s, _, .ifThen h => by
      rw [code_ifThen]
      exact (h.levelAt.right (balances_ifFront t c s)).left _
  | .ifElse c body other, s, _, .ifElse h => by
      rw [code_ifElse, code_elseFront]
      exact ((((h.levelAt.right (balances_ifFront t c s)).left _).left _).left _)
  | .ifElse c body other, s, _, .other h => by
      rw [code_ifElse]
      exact (h.levelAt.right (balances_elseFront t done c (balances_lower t done body) s)).left _
  | .block scope body, s, _, .block h => by
      have hbody := h.levelAt
      simpa [lower, Lowering.bind_apply, Lowering.release, Lowering.update_apply] using hbody

theorem BoundaryAll.levelAt : ∀ {xs : List Stmt} {s : State} {i : Nat},
    BoundaryAll t done xs s i → LevelAt (lowerAll t done xs s).code i
  | _ :: _, _, _, .head h => h.levelAt.left _
  | x :: _, s, _, .tail h => h.levelAt.right (balances_lower t done x s)
end

end Stmt

namespace Function

variable {f : Function} {t : SymbolTable} {l : Layout} {s : State}

/-- The bytes that the prologue takes off the stack pointer. -/
def reserved (f : Function) (t : SymbolTable) (l : Layout) (s : State) : Int :=
  max 0 (f.frame t l s)

/-- What the stack's discipline asks of a moment on a path through a function. -/
structure Balanced (f : Function) (t : SymbolTable) (l : Layout) (s : State) (p : Position) :
    Prop where
  /-- The stack is aligned at a call. -/
  aligned : ∀ name, (f.lower t l s).1.code[p.line]? = some (.instr (.call name)) →
    p.stack.toNat % 16 = 0
  /-- What was pushed while arguments were handed over is below the frame at a call, and the next
  line pops it. -/
  popped : ∀ name, (f.lower t l s).1.code[p.line]? = some (.instr (.call name)) →
    p.stack = p.base - .ofInt 64 (f.reserved t l s) -
      .ofInt 64 (popped ((f.lower t l s).1.code.drop (p.line + 1))) ∧
    ∃ k, Handover (f.lower t l s).1.code k p.line ∧
      -rise (((f.lower t l s).1.code.take p.line).drop k) =
        LittleC.popped ((f.lower t l s).1.code.drop (p.line + 1))
  /-- Nothing is pushed at labels and jumps. -/
  mark : ∀ line : Line, line.isMark = true → (f.lower t l s).1.code[p.line]? = some line →
    p.stack = p.base - .ofInt 64 (f.reserved t l s)
  /-- Nothing is pushed between statements. -/
  boundary : ∀ i, Stmt.BoundaryAll t ⟨s.nextLabel⟩ f.body (bodyStart s l) i →
    p.line = (Routine.prologue t f (f.frame t l s)).length + i →
    p.stack = p.base - .ofInt 64 (f.reserved t l s)

/-! ## The parts of a function -/

/-- The lines that set up the frame. -/
def opening (f : Function) (t : SymbolTable) (l : Layout) (s : State) : List Line :=
  [.instr .saveFrame, .instr .enterFrame] ++
    if 0 < f.frame t l s then [.instr (.reserve (f.frame t l s))] else []

/-- The lines that run in the frame. -/
def inner (f : Function) (t : SymbolTable) (l : Layout) (s : State) : List Line :=
  List.zipWith Routine.saveParam (Routine.registerParams t f) Reg.args ++
    (Stmt.lowerAll t ⟨s.nextLabel⟩ f.body (bodyStart s l)).code ++ [.label ⟨s.nextLabel⟩]

theorem code_eq (f : Function) (t : SymbolTable) (l : Layout) (s : State) :
    (f.lower t l s).1.code = f.opening t l s ++ f.inner t l s ++
      [.instr .leaveFrame, .instr .restoreFrame, .instr .ret] := by
  simp [code_lower, opening, inner, Routine.prologue, Routine.epilogue]

theorem code_framed (f : Function) (t : SymbolTable) (l : Layout) (s : State) :
    (f.lower t l s).1.code = framed ((f.opening t l s).drop 2 ++ f.inner t l s) := by
  simp [code_eq, framed, opening]

theorem disciplined_saveParams : ∀ (ps : List Symbol) (rs : List Reg),
    Disciplined 0 (List.zipWith Routine.saveParam ps rs)
  | [], _ => .nil
  | _ :: _, [] => .nil
  | _ :: ps, _ :: rs => .plain rfl (disciplined_saveParams ps rs)

theorem disciplined_inner (f : Function) (t : SymbolTable) (l : Layout) (s : State) :
    Disciplined 0 (f.inner t l s) :=
  have hbody := Stmt.balances_lowerAll t (Lowering.newLabel s).result f.body
    (fun x _ => x.balances_lower t _) _
  ((disciplined_saveParams _ _).append hbody).append (.plain rfl .nil)

theorem rise_opening (f : Function) (t : SymbolTable) (l : Layout) (s : State) :
    rise ((f.opening t l s).drop 2) = -f.reserved t l s := by
  by_cases hpos : 0 < f.frame t l s
  · rw [opening, if_pos hpos, reserved, Int.max_eq_right (by omega)]
    simp [Line.rise]
  · rw [opening, if_neg hpos, reserved, Int.max_eq_left (by omega)]
    rfl

/-- Counted from the frame base, the frame is what was pushed first. -/
theorem disciplined_framed (f : Function) (t : SymbolTable) (l : Layout) (s : State) :
    Disciplined (-f.reserved t l s) ((f.opening t l s).drop 2 ++ f.inner t l s) := by
  refine .handOver_append ?_ ?_
  · intro line hline
    by_cases hpos : 0 < f.frame t l s
    · simp only [opening, if_pos hpos] at hline
      cases List.mem_singleton.mp hline
      rfl
    · simp [opening, if_neg hpos] at hline
  · rw [rise_opening, Int.sub_self]
    exact f.disciplined_inner t l s

theorem dvd_reserved (f : Function) (t : SymbolTable) (l : Layout) (s : State) :
    16 ∣ f.reserved t l s := by
  simp only [reserved, frame, alignFrame]
  omega

theorem length_opening (f : Function) (t : SymbolTable) (l : Layout) (s : State) :
    (f.opening t l s).length = ((f.opening t l s).drop 2).length + 2 := by
  simp [opening]

/-- A line that is neither of the opening nor of the end. -/
theorem exists_inner {i : Nat} {line : Line} (hline : line.isMark = true ∨ line.isCall = true)
    (hi : (f.lower t l s).1.code[i]? = some line) :
    ∃ j, i = (f.opening t l s).length + j ∧ (f.inner t l s)[j]? = some line := by
  have hplace : line.isStraight = true ∨ line.isMark = true := by
    rcases hline with h | h
    · exact .inr h
    · cases line with
      | instr i => cases i <;> first | exact .inl rfl | cases h
      | _ => cases h
  rw [code_framed] at hi
  obtain ⟨j, rfl, hj⟩ := exists_of_framed hplace hi
  by_cases hlt : j < ((f.opening t l s).drop 2).length
  · rw [List.getElem?_append_left hlt] at hj
    have hmem := List.mem_of_getElem? hj
    simp only [opening] at hmem
    split at hmem
    · cases List.mem_singleton.mp hmem
      rcases hline with h | h <;> cases h
    · simp at hmem
  · rw [List.getElem?_append_right (by omega)] at hj
    exact ⟨_, by rw [length_opening]; omega, hj⟩

theorem drop_code {i : Nat} {line : Line} (hi : (f.inner t l s)[i]? = some line) :
    (f.lower t l s).1.code.drop ((f.opening t l s).length + (i + 1)) =
      (f.inner t l s).drop (i + 1) ++ [.instr .leaveFrame, .instr .restoreFrame, .instr .ret] := by
  have hlt := (List.getElem?_eq_some_iff.mp hi).1
  rw [code_eq, List.append_assoc, List.drop_length_add_append, List.drop_append_of_le_length hlt]

theorem take_drop_code {i k : Nat} (hi : i ≤ (f.inner t l s).length) :
    ((f.lower t l s).1.code.take ((f.opening t l s).length + i)).drop
      ((f.opening t l s).length + k) = ((f.inner t l s).take i).drop k := by
  rw [code_eq, List.append_assoc, List.take_length_add_append, List.drop_length_add_append,
    List.take_append_of_le_length hi]

/-! ## Along a path -/

theorem toNat_sub_ofInt_mod {a : Word} {n : Int} (ha : a.toNat % 16 = 0) (hn : 16 ∣ n) :
    (a - .ofInt 64 n).toNat % 16 = 0 := by
  obtain ⟨k, rfl⟩ := hn
  rw [BitVec.toNat_sub, BitVec.toNat_ofInt]
  omega

theorem sub_sub_word (a b c : Word) : a - (b + c) = a - b - c := by bv_omega

theorem rise_take_drop {code : List Line} {i k : Nat} (hk : k ≤ i) :
    rise ((code.take i).drop k) = rise (code.take i) - rise (code.take k) := by
  have hsplit := rise_append ((code.take i).take k) ((code.take i).drop k)
  rw [List.take_append_drop, List.take_take, Nat.min_eq_left hk] at hsplit
  omega

section
variable {sp bp : Word} {p : Position} {i : Nat}

/-- Inside its frame a function has the stack pointer below the frame by what is pushed. -/
theorem inside_of_path (halign : sp.toNat % 16 = 8)
    (hpath : Path (f.lower t l s).1.code ⟨0, sp, bp⟩ p)
    (hline : p.line = (f.opening t l s).length + i) (hi : i ≤ (f.inner t l s).length) :
    p.base.toNat % 16 = 0 ∧
      p.stack = p.base - .ofInt 64 (f.reserved t l s - rise ((f.inner t l s).take i)) := by
  rw [code_framed] at hpath
  have hsteady := steady_of_path (f.disciplined_framed t l s) halign hpath
  rw [length_opening] at hline
  obtain ⟨-, -, hbase, hstack⟩ := hsteady.inside
    (i := ((f.opening t l s).drop 2).length + i) (by omega) (by simp; omega)
  refine ⟨hbase, ?_⟩
  rw [hstack, List.take_length_add_append, rise_append, rise_opening, BitVec.sub_eq_add_neg,
    ← BitVec.ofInt_neg]
  congr 2
  omega

/-- Where nothing is pushed, the stack pointer is right below the frame. -/
theorem stack_of_level (halign : sp.toNat % 16 = 8)
    (hpath : Path (f.lower t l s).1.code ⟨0, sp, bp⟩ p)
    (hline : p.line = (f.opening t l s).length + i) (hi : Stmt.LevelAt (f.inner t l s) i) :
    p.stack = p.base - .ofInt 64 (f.reserved t l s) := by
  rw [(inside_of_path halign hpath hline hi.1).2, hi.2, Int.sub_zero]

/-- On every path through a function that is entered with the stack eight bytes off its alignment,
the stack's discipline is kept. -/
theorem stack_disciplined (f : Function) (t : SymbolTable) (l : Layout) (s : State) {sp bp : Word}
    {p : Position} (halign : sp.toNat % 16 = 8)
    (hpath : Path (f.lower t l s).1.code ⟨0, sp, bp⟩ p) : f.Balanced t l s p := by
  have hinner := f.disciplined_inner t l s
  constructor
  case aligned =>
      intro name hcall
      obtain ⟨i, hline, hi⟩ := exists_inner (.inr rfl) hcall
      obtain ⟨hdvd, -⟩ := hinner.at_call hi
      obtain ⟨hbase, hstack⟩ := inside_of_path halign hpath hline
        (Nat.le_of_lt (List.getElem?_eq_some_iff.mp hi).1)
      rw [hstack]
      exact toNat_sub_ofInt_mod hbase (Int.dvd_sub (f.dvd_reserved t l s) (by simpa using hdvd))
  case popped =>
      intro name hcall
      obtain ⟨i, hline, hi⟩ := exists_inner (.inr rfl) hcall
      have hlen := Nat.le_of_lt (List.getElem?_eq_some_iff.mp hi).1
      obtain ⟨-, hpopped⟩ := hinner.at_call hi
      rw [Int.zero_sub] at hpopped
      have hnext : popped ((f.lower t l s).1.code.drop (p.line + 1)) =
          -rise ((f.inner t l s).take i) := by
        rw [hline, Nat.add_assoc, drop_code hi, popped_append_cons _ _ rfl, hpopped]
      obtain ⟨k, ⟨hk, hpass⟩, hlevel⟩ : ∃ k, Handover (f.inner t l s) k i ∧
          rise ((f.inner t l s).take k) = 0 := by
        rcases hinner.handover_of_call hi with h | h
        · exact ⟨0, h, rfl⟩
        · exact h
      refine ⟨?_, (f.opening t l s).length + k, ⟨by omega, ?_⟩, ?_⟩
      · rw [(inside_of_path halign hpath hline hlen).2, hnext, Int.sub_eq_add_neg,
          BitVec.ofInt_add, sub_sub_word]
      · rwa [hline, take_drop_code hlen]
      · rw [hline, take_drop_code hlen, ← hline, hnext, rise_take_drop hk, hlevel, Int.sub_zero]
  case mark =>
      intro line hmark hi
      obtain ⟨i, hline, hi⟩ := exists_inner (.inl hmark) hi
      exact stack_of_level halign hpath hline
        ⟨Nat.le_of_lt (List.getElem?_eq_some_iff.mp hi).1, hinner.rise_of_isMark hmark hi⟩
  case boundary =>
      intro i hi hline
      have hlevel := ((hi.levelAt.right (disciplined_saveParams (Routine.registerParams t f)
        Reg.args)).left [.label ⟨s.nextLabel⟩])
      refine stack_of_level halign hpath ?_ hlevel
      rw [hline, Routine.prologue, opening]
      simp
      omega

/-- A function with a local of four bytes on the way to a call with a pushed argument: 16 bytes are
reserved, 8 are padding and 8 the argument. -/
theorem stack_disciplined_pushed :
    let t : SymbolTable := ⟨[.fresh "main" (.func .int 0 []), .fresh "h" (.func .int 0 [])], [], []⟩
    let f : Function := ⟨⟨0⟩, ⟨0⟩,
      [.expr (.call ⟨1⟩ ((List.range 7).map fun i => .number i (.value .int)) (.value .int))]⟩
    let l : Layout := ⟨[], 4⟩
    let p : Position := ⟨12, 65504, 65536⟩
    (65544 : Word).toNat % 16 = 8 ∧ Path (f.lower t l (.start true)).1.code ⟨0, 65544, 0⟩ p ∧
      (f.lower t l (.start true)).1.code[p.line]? = some (.instr (.call "h")) ∧
      f.Balanced t l (.start true) p := by
  intro t f l p
  have hcode : (f.lower t l (.start true)).1.code =
      [.instr .saveFrame, .instr .enterFrame, .instr (.reserve 16), .note "call",
        .instr (.reserve 8), .instr (.push (.imm 6)), .instr (.mov 4 (.imm 5) (.reg .r9 4)),
        .instr (.mov 4 (.imm 4) (.reg .r8 4)), .instr (.mov 4 (.imm 3) (.reg .rcx 4)),
        .instr (.mov 4 (.imm 2) (.reg .rdx 4)), .instr (.mov 4 (.imm 1) (.reg .rsi 4)),
        .instr (.mov 4 (.imm 0) (.reg .rdi 4)), .instr (.call "h"), .instr (.discard 16),
        .label ⟨0⟩, .instr .leaveFrame, .instr .restoreFrame, .instr .ret] := by
    decide +kernel
  have hpath : Path (f.lower t l (.start true)).1.code ⟨0, 65544, 0⟩ p := by
    rw [hcode]
    exact .head (.save rfl) (.head (.enter rfl) (.head (.next rfl rfl) (.head (.next rfl rfl)
      (.head (.next rfl rfl) (.head (.next rfl rfl) (.head (.next rfl rfl) (.head (.next rfl rfl)
        (.head (.next rfl rfl) (.head (.next rfl rfl) (.head (.next rfl rfl)
          (.head (.next rfl rfl) .refl)))))))))))
  exact ⟨by decide, hpath, by rw [hcode]; rfl,
    stack_disciplined f t l (.start true) (by decide) hpath⟩

end

end Function

end LittleC
