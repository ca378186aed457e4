import LittleC.Proofs.Encoding.Trees
import LittleC.Proofs.Lowering.Stack

/-! # Forms of the code of functions

A function is written in the known forms from its first line to its last. Its instructions move the
stack pointer by no more than the depth of the frame at some line, so in a small frame all are
well-formed. -/

namespace LittleC

open Lowering (State)

/-! ## The depth of a frame -/

/-- At no line of the routine do `bound` bytes lie below the frame base, those included that are
pushed for a call. -/
def Routine.FrameBelow (r : Routine) (bound : Int) : Prop :=
  ∀ front : List Line, front <+: r.code → -rise front < bound

theorem Line.rise_le_of_handsOver {l : Line} (hl : l.handsOver = true)
    (hreserve : ∀ n, l = .instr (.reserve n) → 0 ≤ n) : l.rise ≤ 0 := by
  cases l with
  | instr i =>
      cases i with
      | mov n source target => exact Int.le_refl 0
      | push source => exact (by decide : (-8 : Int) ≤ 0)
      | reserve n => exact Int.neg_nonpos_of_nonneg (hreserve n rfl)
      | _ => cases hl
  | label l => cases hl
  | note text => cases hl

/-- The line moves the stack pointer by `n` bytes, one way or the other. -/
def Line.Moves (n : Int) (l : Line) : Prop := l = .instr (.reserve n) ∨ l = .instr (.discard n)

theorem Line.Moves.eq_zero {n : Int} {l : Line} (h : l.Moves n) (hl : l.rise = 0) : n = 0 := by
  rcases h with rfl | rfl
  · exact Int.neg_eq_zero.mp hl
  · exact hl

/-- The bytes lie on the stack behind some of the lines, where `h` did before all of them. -/
def Reaches (h n : Int) (code : List Line) : Prop :=
  ∃ front : List Line, front <+: code ∧ n ≤ h - rise front

theorem Reaches.cons {h n : Int} {code : List Line} (l : Line)
    (hcode : Reaches (h - l.rise) n code) : Reaches h n (l :: code) := by
  obtain ⟨front, hfront, hle⟩ := hcode
  refine ⟨l :: front, (List.prefix_cons_inj l).mpr hfront, ?_⟩
  rw [rise_cons]
  omega

/-- The stack pointer moves by no more than what lies on the stack before the move or behind it. -/
theorem Disciplined.reaches {h n : Int} {code : List Line} (hcode : Disciplined h code) (hh : 0 ≤ h)
    (hreserve : ∀ k, .instr (.reserve k) ∈ code → 0 ≤ k) {line : Line} (hline : line ∈ code)
    (hn : line.Moves n) : Reaches h n code := by
  induction hcode with
  | nil => cases hline
  | @plain l rest hl _ ih =>
      have hrise := Line.rise_of_isPlain hl
      rcases List.mem_cons.mp hline with rfl | hrest
      · exact ⟨[], List.nil_prefix, Int.le_of_eq (hn.eq_zero hrise)⟩
      · have hlater := ih hh (fun k hk => hreserve k (List.mem_cons_of_mem _ hk)) hrest
        refine .cons l ?_
        rwa [hrise]
  | @handOver h l rest hl _ ih =>
      have hle : l.rise ≤ 0 := Line.rise_le_of_handsOver hl fun k hk =>
        hreserve k (hk ▸ List.mem_cons_self)
      rcases List.mem_cons.mp hline with rfl | hrest
      · refine .cons line ⟨[], List.nil_prefix, ?_⟩
        rcases hn with rfl | rfl
        · simp only [rise_nil, Line.rise]
          omega
        · cases hl
      · exact .cons l (ih (by omega) (fun k hk => hreserve k (List.mem_cons_of_mem _ hk)) hrest)
  | @call name rest _ ih =>
      rcases List.mem_cons.mp hline with rfl | hrest
      · rcases hn with hn | hn <;> cases hn
      · exact .cons _ (ih hh (fun k hk => hreserve k (List.mem_cons_of_mem _ hk)) hrest)
  | @callPushed h name rest _ _ ih =>
      rcases List.mem_cons.mp hline with rfl | hline
      · rcases hn with hn | hn <;> cases hn
      rcases List.mem_cons.mp hline with rfl | hrest
      · rcases hn with hn | hn
        · cases hn
        · cases hn
          exact ⟨[], List.nil_prefix, by rw [rise_nil]; omega⟩
      · have hlater := ih (Int.le_refl 0)
          (fun k hk => hreserve k (List.mem_cons_of_mem _ (List.mem_cons_of_mem _ hk))) hrest
        refine .cons _ (.cons _ ?_)
        simp only [Line.rise, Int.sub_zero, Int.sub_self]
        exact hlater

namespace Function

section
variable {W : Nat → Prop} {t : SymbolTable} {f : Function}

/-! ## All lines of a function -/

/-- The code of accepted statements has the known forms from its first line to its last. -/
theorem forms_lower (f : Function) (hW : ∀ n, Width n → W n)
    (hfunction : (t.symbol f.symbol).ty.isFunction = true)
    (hparameters : ∀ p ∈ Routine.registerParams t f, W p.ty.size)
    (hbody : ∀ st ∈ f.body, st.Accepted t (t.symbol f.symbol).ty.result)
    (hpasses : ∀ e ∈ Stmt.exprsAll f.body, e.Every (Expr.Passes W)) (l : Layout) (s : State) :
    ∀ line ∈ (f.lower t l s).1.code, line.Form W := by
  have hstatements : Lowering.Emits W [] (Stmt.lowerAll t ⟨s.nextLabel⟩ f.body) fun _ => [] :=
    Lowering.emits_statements f.body fun st hst =>
      Lowering.emits_accepted hW (Ty.isScalar_result hfunction) (hbody st hst)
        (fun e he => hpasses e (Stmt.mem_exprsAll.mpr ⟨st, hst, he⟩)) _
  have hstart : (bodyStart s l).Coded W := State.coded_of_empty (fun _ => rfl) fun _ => rfl
  have hemitted := hstatements (bodyStart s l) hstart nofun
  have hsaved : ∀ line ∈ List.zipWith Routine.saveParam (Routine.registerParams t f) Reg.args,
      line.Form W := by
    intro line hline
    obtain ⟨i, hi, rfl⟩ := List.mem_iff_getElem.mp hline
    rw [List.getElem_zipWith]
    exact .store (hparameters _ (List.getElem_mem (List.lt_length_left_of_zipWith hi))) _ _
  have hopening : ∀ line ∈ f.opening t l s, line.Form W := by
    unfold opening
    rw [List.forall_mem_append, List.forall_mem_cons, List.forall_mem_singleton]
    refine ⟨⟨.bare rfl, .bare rfl⟩, ?_⟩
    split
    · next hpos => exact List.forall_mem_singleton.mpr (.reserve (Int.le_of_lt hpos))
    · exact nofun
  rw [code_eq, inner]
  simp only [List.forall_mem_append, List.forall_mem_cons]
  exact ⟨⟨hopening, ⟨hsaved, hemitted.lines⟩, trivial, List.forall_mem_nil _⟩, .bare rfl, .bare rfl,
    .bare rfl, List.forall_mem_nil _⟩

/-! ## Small frames -/

theorem nonneg_of_form {n : Int} {line : Line} (h : line.Form W) (hn : line.Moves n) : 0 ≤ n := by
  rcases hn with rfl | rfl
  · cases h with
    | reserve hle => exact hle
    | bare hbare => cases hbare
  · cases h with
    | discard hle => exact hle
    | bare hbare => cases hbare

/-- Before the body only the frame is reserved. -/
theorem le_reserved_of_moves {l : Layout} {s : State} {line : Line} (hline : line ∈ f.opening t l s)
    {n : Int} (hn : line.Moves n) : n ≤ f.reserved t l s := by
  unfold opening at hline
  rcases List.mem_append.mp hline with hfirst | hreserve
  · simp only [List.mem_cons, List.not_mem_nil, or_false] at hfirst
    rcases hfirst with rfl | rfl <;> rcases hn with hn | hn <;> cases hn
  · split at hreserve
    · cases List.mem_singleton.mp hreserve
      rcases hn with hn | hn <;> cases hn
      exact Int.le_max_right 0 _
    · cases hreserve

/-- The stack pointer moves by no more than the depth of the frame at some line. -/
theorem reaches_lower {l : Layout} {s : State}
    (hforms : ∀ line ∈ (f.lower t l s).1.code, line.Form W)
    {line : Line} (hline : line ∈ (f.lower t l s).1.code) {n : Int} (hn : line.Moves n) :
    Reaches 0 n (f.lower t l s).1.code := by
  have hrise : rise (f.opening t l s) = -f.reserved t l s := by
    have hframe : rise (f.opening t l s) = 0 + (0 + rise ((f.opening t l s).drop 2)) := rfl
    rw [hframe, rise_opening, Int.zero_add, Int.zero_add]
  have hreserved : 0 ≤ f.reserved t l s := Int.le_max_left 0 _
  rw [code_eq] at hline hforms ⊢
  rcases List.mem_append.mp hline with hline | hend
  · rcases List.mem_append.mp hline with hopening | hinner
    · refine ⟨f.opening t l s, List.prefix_append_of_prefix (List.prefix_append _ _), ?_⟩
      rw [hrise, Int.sub_neg, Int.zero_add]
      exact le_reserved_of_moves hopening hn
    · have hpositive : ∀ k, .instr (.reserve k) ∈ f.inner t l s → 0 ≤ k := fun k hk =>
        nonneg_of_form (hforms _ (by simp [hk])) (.inl rfl)
      obtain ⟨front, hfront, hle⟩ :=
        (f.disciplined_inner t l s).reaches (Int.le_refl 0) hpositive hinner hn
      refine ⟨f.opening t l s ++ front, ?_, ?_⟩
      · rw [List.append_assoc]
        exact (List.prefix_append_right_inj _).mpr (List.prefix_append_of_prefix hfront)
      · rw [rise_append, hrise]
        omega
  · simp only [List.mem_cons, List.not_mem_nil, or_false] at hend
    rcases hend with rfl | rfl | rfl <;> rcases hn with hn | hn <;> cases hn

/-- In a frame below 2 GiB all instructions are well-formed. -/
theorem assembles_lower {target : Target} {l : Layout} {s : State}
    (hforms : ∀ line ∈ (f.lower t l s).1.code, line.Form W)
    (hframe : (f.lower t l s).1.FrameBelow 0x80000000) {i : Instr}
    (hi : .instr i ∈ (f.lower t l s).1.code) : i.Assembles target := by
  have hform : i.Form W := hforms _ hi
  refine hform.assembles fun n hn => ?_
  have hmoves : (Line.instr i).Moves n := hn.imp (congrArg _) (congrArg _)
  obtain ⟨front, hfront, hle⟩ := reaches_lower hforms hi hmoves
  have hdepth := hframe front hfront
  have hpos := nonneg_of_form (hforms _ hi) hmoves
  simp only [Ty.fitsInt, Bool.and_eq_true, decide_eq_true_eq]
  omega

theorem exists_of_mem_lowerAll : ∀ (fs : List (Function × Layout)) (s : State) {r : Routine},
    r ∈ (lowerAll t fs s).1 → ∃ p ∈ fs, ∃ s', r = (p.1.lower t p.2 s').1
  | [], _, _, hr => nomatch hr
  | (f, l) :: rest, s, r, hr => by
      rcases List.mem_cons.mp hr with rfl | hr
      · exact ⟨(f, l), List.mem_cons_self, s, rfl⟩
      · obtain ⟨p, hp, s', heq⟩ := exists_of_mem_lowerAll rest _ hr
        exact ⟨p, List.mem_cons_of_mem _ hp, s', heq⟩

end

end Function

end LittleC
