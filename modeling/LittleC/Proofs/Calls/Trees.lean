import LittleC.Proofs.Calls.Calling
import LittleC.Proofs.Lowering.Expr

/-! # Trees with calls

Every checked tree computes what it denotes, with calls anywhere in it, as long as no call writes a
variable that is an operand of the tree. -/

namespace LittleC

open Lowering (State Computes Gathers)

theorem Ty.CallTypes.eq_result {callee : Ty} {args : List Ty} {n : Ty}
    (h : callee.CallTypes args n) : callee.isFunction = true ∧ n = callee.result := by
  unfold CallTypes at h
  split at h
  · exact ⟨rfl, h.1⟩
  · exact ⟨rfl, h.1⟩
  · exact h.elim

namespace Expr

/-- A node that can be computed in the setting: a constant fits a register, and there is room for
what a call pushes. -/
def Handled (S : Setting) : Expr → Prop
  | number v _ => wrap 8 v = v
  | call _ args _ => S.floor ≤ -S.frame - pushedBytes args.length
  | _ => True

instance (S : Setting) : DecidablePred (Handled S)
  | number v _ => inferInstanceAs (Decidable (wrap 8 v = v))
  | call _ args _ => inferInstanceAs (Decidable (S.floor ≤ -S.frame - pushedBytes args.length))
  | text .. | ident .. | unary .. | cast .. | binary .. => .isTrue trivial

/-- No call writes the operands of the tree. -/
def Spared (S : Setting) (e : Expr) : Prop :=
  ∀ p ∈ e.operands, (S.env.place p.1, p.2) ∈ S.callees.spared

theorem mem_operandsAll {p : SymbolId × Nat} : ∀ {es : List Expr},
    p ∈ operandsAll es ↔ ∃ e ∈ es, p ∈ e.operands
  | [] => by simp [operandsAll]
  | e :: es => by
      rw [operandsAll, List.mem_append, mem_operandsAll]
      simp

/-- There is an argument for each tree, of the size of its type. -/
theorem sizes_runAll {E : Env} {C : Callees} : ∀ {es : List Expr} {k : Nat} {M M' : Memory}
    {args : List Argument}, runAll E C k es M = some (args, M') →
      args.map (·.size) = es.map (·.ty.size)
  | [], _, _, _, _, h => by
      cases h
      rfl
  | e :: es, k, M, M', args, h => by
      obtain ⟨v, M₁, -, h⟩ := bind_eq_some h
      obtain ⟨vs, M₂, hvs, h⟩ := bind_eq_some h
      cases h
      rw [List.map_cons, List.map_cons, sizes_runAll hvs]

theorem length_runAll {E : Env} {C : Callees} {es : List Expr} {k : Nat} {M M' : Memory}
    {args : List Argument} (h : runAll E C k es M = some (args, M')) : args.length = es.length := by
  have hlength := congrArg List.length (sizes_runAll h)
  rwa [List.length_map, List.length_map] at hlength

/-- Without calls the memory stays, and both meanings of a tree are the same. -/
theorem run_eq_reading (E : Env) (C : Callees) : ∀ (e : Expr) (k : Nat), e.Every Plain →
    e.run E C k = reading (e.eval E · k)
  | number v i, k, he => congrArg pure (show wrap i.ty.size v = v from every_number.mp he)
  | text _ _, _, _ => rfl
  | ident x i, k, _ => by
      funext M
      rw [run, reading, eval]
      split <;> rfl
  | call .., _, he => absurd (every_call.mp he).1 id
  | unary .negate e i, k, he => by
      rw [run, run_eq_reading E C e k (every_unary.mp he).2, reading_map]
      rfl
  | unary .logicalNot e i, k, he => by
      rw [run, run_eq_reading E C e k (every_unary.mp he).2, reading_map]
      rfl
  | unary .deref e i, k, he => by
      rw [run, run_eq_reading E C e k (every_unary.mp he).2, reading_bind]
      rfl
  | unary .address e i, k, he => by
      have hoperand := (every_unary.mp he).2
      cases e with
      | unary op p j =>
          cases op with
          | deref => exact run_eq_reading E C p k (every_unary.mp hoperand).2
          | _ => rfl
      | _ => rfl
  | cast e i, k, he => by
      rw [run, run_eq_reading E C e k (every_cast.mp he).2, reading_map]
      rfl
  | binary op l r i, k, he => by
      obtain ⟨-, hl, hr⟩ := every_binary.mp he
      have hright : ∀ x, (if op.skips x then pure (truth (x != 0))
          else r.run E C (k + l.textCount) >>= fun y => reading fun _ => op.apply i.ty.size x y) =
          reading fun M => if op.skips x then some (truth (x != 0))
            else (r.eval E M (k + l.textCount)).bind (op.apply i.ty.size x) := by
        intro x
        split
        · rfl
        · rw [run_eq_reading E C r _ hr, reading_bind]
      rw [run, run_eq_reading E C l k hl, funext hright, reading_bind]
      rfl
termination_by e => SizeOf.sizeOf e

/-- Only a tree of a single value has a number. -/
theorem isScalar_of_run {t : SymbolTable} {E : Env} {C : Callees} {k : Nat} {M M' : Memory}
    {x : Int} {e : Expr} (he : e.Canonical t) (h : e.run E C k M = some (x, M')) :
    e.ty.isScalar = true := by
  rcases he.isScalar with ⟨y, i, rfl⟩ | ⟨string, i, rfl⟩ | hscalar
  · rw [run] at h
    split at h
    · next hscalar => exact hscalar
    · cases h
  · cases h
  · exact hscalar

end Expr

namespace Lowering

open State

section
variable {S : Setting} {k c d n w : Nat} {a b : Lowering ValueId} {f g : StateT Memory Option Int}

/-! ## Leaves -/

theorem computes_number {v : Int} (hn : n = 4 ∨ n = 8) (hv : wrap 8 v = v) :
    Computes S (number v n) k n 0 (pure (wrap n v)) := by
  refine Computes.of_evaluates (g := fun _ => some (wrap n v)) (fun _ => evaluates_constant hn hv)
    fun s _ _ _ => ?_
  unfold number
  split
  · exact endsFirm_newValue (l := .imm v) trivial s
  · have hreg : EndsInReg (takeReg [] >>= fun r => emit (.mov 8 (.imm v) (.reg r 8)) >>= fun _ =>
        newValue (.reg r) n) := .bind fun r => .bind fun _ => endsInReg_newValue r n
    exact hreg.firm s n

/-- A name is read where it is, when its value is needed. -/
theorem computes_place {p : Mem} {place : Word} (hp : S.world.fixed? S.base p = some place)
    (hn : n ≤ 8) (hspared : (place, n) ∈ S.callees.spared) :
    Computes S (newValue (.mem p) n) k n 0 (reading (S.env.load · n place)) := by
  refine Computes.of_evaluates (fun _ => evaluates_place hp hn) fun s M x hx =>
    endsFirm_newValue (l := .mem p) (fun a ha => ?_) s
  cases hp.symm.trans ha
  exact Or.inl ⟨hspared, (Env.load_eq_some hx).1⟩

/-- What has no number is lowered all the same. -/
theorem computes_failure (h : ∀ s : State, s.Sound → ∀ M, ∃ R,
    Does S.toScene M s.nextValue a s (fun v s' => Yields s s' v n c) (fun _ => False) R) :
    Computes S a k n c failure := by
  intro s hs _ x M'
  obtain ⟨R, hR⟩ := h s hs M'
  exact ⟨hR.evolves, hR.labels, hR.gives, fun _ _ _ _ hP => nomatch hP⟩

theorem computes_ident_failure (p : Mem) (n : Nat) :
    Computes S (newValue (.mem p) n) k n 0 failure :=
  computes_failure fun _ hs _ => ⟨_, does_place (z := none) (.refl hs) (fun _ h => nomatch h)
    fun _ _ hP => hP.elim⟩

theorem computes_text (literal : String) (n : Nat) :
    Computes S (internText literal >>= fun label => newValue (.mem (.literal label)) n) k n 1
      failure :=
  computes_failure fun _ hs _ => ⟨_, ((does_internText hs literal).given (φ := False)).weaken
    (Nat.le_refl _) (fun _ _ h => h) (fun _ h => ⟨h, trivial⟩) (fun _ _ _ _ h => h) |>.bind
      fun _ _ h₁ => does_place (z := none) h₁ (fun _ h => nomatch h) fun _ _ hP => hP.1.elim⟩

/-! ## One operand -/

theorem computes_negate (hn : Width n) (ha : Computes S a k n c f) :
    Computes S (negate n a) k n c (f >>= fun v => pure (wrap n (-v))) :=
  (ha.turn (g := fun v _ => some (wrap n (-v))) (fun _ => turns_negate hn) fun _ s _ _ =>
    (EndsInReg.bind fun _ => .bind fun _ => endsInReg_rebind _ _ n).firm s n).note "negate"

theorem computes_logicalNot (hn : Width n) (hw : Width w) (ha : Computes S a k w c f) :
    Computes S (logicalNot n a) k n c (f >>= fun v => pure (truth (v == 0))) :=
  (ha.turn (g := fun v _ => some (truth (v == 0))) (fun _ => turns_logicalNot hn hw) fun _ s _ _ =>
    (EndsInReg.bind fun _ => .bind fun _ => .bind fun _ => .bind fun _ =>
      endsInReg_rebind _ _ n).firm s n).note "not"

theorem computes_deref (hn : Width n) (ha : Computes S a k 8 c f) :
    Computes S (deref n a) k n c (f >>= fun p => reading (S.env.load · n (.ofInt 64 p))) :=
  (ha.turn (g := fun p M => S.env.load M n (.ofInt 64 p)) (fun _ => turns_deref hn) fun _ s _ _ =>
    (EndsInReg.bind fun _ => .bind fun _ => endsInReg_rebind _ _ n).firm s n).note "dereference"

theorem computes_addressOfTarget (ha : Computes S a k 8 c f) :
    Computes S (addressOfTarget a) k 8 c f := by
  have h := (ha.turn (g := fun p _ => some p) (fun _ => turns_addressOfTarget) fun _ s _ _ =>
    (EndsInReg.bind fun _ => endsInReg_rebind _ _ pointerSize).firm s 8).note "address"
  have hpure : (f >>= fun p => reading fun _ => some p) = f := bind_pure f
  rwa [hpure] at h

theorem computes_addressOfPlace {place : Lowering ValueId} {address : Word}
    (h : ∀ M, Locates S.toScene M place k c address) :
    Computes S (addressOfPlace place) k 8 c (pure (signed 8 address)) :=
  Computes.of_evaluates (g := fun _ => some (signed 8 address))
    (fun M => evaluates_addressOfPlace (h M)) fun s _ _ _ =>
      (EndsInReg.bind fun _ => .bind fun _ => .bind fun _ => .bind fun _ => .bind fun _ =>
        endsInReg_newValue _ pointerSize).firm s 8

/-- A conversion that keeps the size keeps the value where it is. -/
theorem computes_cast (hn : Width n) (hw : Width w) (ha : Computes S a k w c f) :
    Computes S (cast n a) k n c (f >>= fun v => pure (wrap n v)) := by
  refine ha.turn (g := fun v _ => some (wrap n v)) (fun _ => turns_cast hn hw)
    fun v s hsize hfirm => ?_
  show EndsFirm S n (if (s.values v).size = n then pure v else _) s
  split
  · next hsame =>
      rw [← hsize.symm.trans hsame]
      exact hfirm
  · refine (EndsInReg.bind fun _ => .bind fun r => ?_).firm s n
    split <;> exact .bind fun _ => endsInReg_rebind v r n

/-! ## Two operands -/

theorem computes_arithmetic {op : AluOp} {title : String} (hn : n = 4 ∨ n = 8)
    (ha : Computes S a k n c f) (hb : Computes S b (k + c) n d g) :
    Computes S (arithmetic op title n a b) k n (c + d)
      (f >>= fun x => g >>= fun y => reading fun _ => some (wrap n (op.eval x y))) :=
  (ha.merge (Or.inr hn) hb (fun _ => merges_arithmetic hn) fun l _ => .bind fun r => .bind fun _ =>
    .bind fun _ => .bind fun _ => endsInReg_rebind l r n).note title

theorem computes_divide {op : BinaryOp} {result : Reg} {title : String}
    (hop : (op = .div ∧ result = .rax) ∨ (op = .rem ∧ result = .rdx)) (hn : n = 4 ∨ n = 8)
    (ha : Computes S a k n c f) (hb : Computes S b (k + c) n d g) :
    Computes S (divide title result n a b) k n (c + d)
      (f >>= fun x => g >>= fun y => reading fun _ => op.apply n x y) :=
  (ha.merge (Or.inr hn) hb (fun _ => merges_divide hop hn) fun _ _ => .bind fun _ => .bind fun _ =>
    .bind fun _ => .bind fun _ => .bind fun _ => .bind fun _ => .bind fun _ =>
      endsInReg_newValue result n).note title

theorem computes_compare {q : Comparison} (hn : Width n) (hw : Width w) (ha : Computes S a k w c f)
    (hb : Computes S b (k + c) w d g) :
    Computes S (compare q n a b) k n (c + d)
      (f >>= fun x => g >>= fun y => reading fun _ => some (truth (q.eval x y))) := by
  rw [compare_eq]
  exact (ha.merge hw hb (fun _ => merges_compare hn hw) fun _ _ => .bind fun sides => .bind fun _ =>
    .bind fun _ => endsInReg_newValue sides.1 n).note q.symbol

theorem computes_binary {op : BinaryOp} {n l r : Ty} (h : op.Operands n l r)
    (ha : Computes S a k l.size c f) (hb : Computes S b (k + c) r.size d g) :
    Computes S (op.lower n.size a b) k n.size (c + d)
      (f >>= fun x => if op.skips x then pure (truth (x != 0))
        else g >>= fun y => reading fun _ => op.apply n.size x y) := by
  have hlogical : n = .int ∧ (l.isScalar = true ∧ l ≠ .char) ∧ r.isScalar = true ∧ r ≠ .char →
      ∀ {title skip}, ((op = .land ∧ skip = .eq) ∨ (op = .lor ∧ skip = .ne)) →
        Computes S (logical title skip n.size a b) k n.size (c + d)
          (f >>= fun x => if op.skips x then pure (truth (x != 0))
            else g >>= fun y => reading fun _ => op.apply n.size x y) := by
    rintro ⟨rfl, ⟨hl, -⟩, hr, -⟩ title skip hop
    exact computes_logical hop (Or.inr (Or.inl rfl)) (Ty.width_size hl) (Ty.width_size hr) ha hb
  cases op with
  | add =>
      have hu := BinaryOp.uniform_of_operands h (by simp)
      exact computes_arithmetic hu.wide (hu.leftSize ▸ ha) (hu.rightSize ▸ hb)
  | sub =>
      have hu := BinaryOp.uniform_of_operands h (by simp)
      exact computes_arithmetic hu.wide (hu.leftSize ▸ ha) (hu.rightSize ▸ hb)
  | mul =>
      have hu := BinaryOp.uniform_of_operands h (by simp)
      exact computes_arithmetic hu.wide (hu.leftSize ▸ ha) (hu.rightSize ▸ hb)
  | div =>
      have hu := BinaryOp.uniform_of_operands h (by simp)
      exact computes_divide (Or.inl ⟨rfl, rfl⟩) hu.wide (hu.leftSize ▸ ha) (hu.rightSize ▸ hb)
  | rem =>
      have hu := BinaryOp.uniform_of_operands h (by simp)
      exact computes_divide (Or.inr ⟨rfl, rfl⟩) hu.wide (hu.leftSize ▸ ha) (hu.rightSize ▸ hb)
  | compare q =>
      obtain ⟨rfl, hl, hr, -, hsize⟩ := h
      exact computes_compare (Or.inr (Or.inl rfl)) (Ty.width_size hl) ha (hsize ▸ hb)
  | land => exact hlogical h (Or.inl ⟨rfl, rfl⟩)
  | lor => exact hlogical h (Or.inr ⟨rfl, rfl⟩)

end

/-! ## Trees -/

section
variable {S : Setting} {t : SymbolTable}

/-- Arguments are computed from the first to the last, each at the size of its type. -/
theorem gathers_lowerAll : ∀ (es : List Expr) (k : Nat), (∀ e ∈ es, e.Canonical t) →
    (∀ e ∈ es, ∀ k, Computes S (e.lower t) k e.ty.size e.textCount (e.run S.env S.callees k)) →
      Gathers S (Expr.lowerAll t es) k (Expr.textCountAll es) (Expr.runAll S.env S.callees k es)
  | [], _, _, _ => gathers_nil
  | e :: es, k, hes, h => by
      refine gathers_cons (h e List.mem_cons_self k) (fun M x M' hx => ?_) ?_
      · exact Ty.width_size (Expr.isScalar_of_run (hes e List.mem_cons_self) hx)
      · exact gathers_lowerAll es (k + e.textCount)
          (fun e' he' => hes e' (List.mem_cons_of_mem _ he'))
          fun e' he' => h e' (List.mem_cons_of_mem _ he')

/-- A tree of well-formed nodes computes its number, at the size of its type. -/
theorem computes_expr (hplaces : S.Places t) (hconforms : S.Conforms t) :
    ∀ (e : Expr) (k : Nat), e.Every (Expr.WellFormed t) → e.Every (Expr.Handled S) → e.Spared S →
      Computes S (e.lower t) k e.ty.size e.textCount (e.run S.env S.callees k)
  | .number v i, k, he, hh, _ =>
      computes_number (Ty.IsWide.size (Expr.every_number.mp he).1) (Expr.every_number.mp hh)
  | .text string i, k, _, _, _ => computes_text string i.ty.size
  | .ident x i, k, _, _, hspared => by
      show Computes S _ k i.ty.size 0 (if i.ty.isScalar then _ else failure)
      split
      · next hscalar =>
          refine computes_place (hplaces x) (Ty.width_size hscalar).le (hspared (x, i.ty.size) ?_)
          rw [Expr.operands, if_pos hscalar]
          exact List.mem_singleton_self _
      · exact computes_ident_failure _ _
  | .call f args i, k, he, hh, hspared => by
      obtain ⟨⟨hcanonical, -⟩, hargs⟩ := Expr.every_call.mp he
      obtain ⟨hroom, hhandled⟩ := Expr.every_call.mp hh
      obtain ⟨hfunction, hresult⟩ := Ty.CallTypes.eq_result hcanonical
      show Computes S (call (t.symbol f) i.ty.size _) k i.ty.size _ _
      rw [hresult]
      refine computes_call (n := args.length) hconforms
        (gathers_lowerAll args k (fun a ha => (hargs a ha).root.1) fun a ha k => ?_)
        (fun _ _ _ h => Expr.length_runAll h) hroom (Ty.width_size (Ty.isScalar_result hfunction))
      exact computes_expr hplaces hconforms a k (hargs a ha) (hhandled a ha)
        fun p hp => hspared p (Expr.mem_operandsAll.mpr ⟨a, ha, hp⟩)
  | .unary .negate e i, k, he, hh, hspared => by
      obtain ⟨⟨⟨hwide, hty⟩, -⟩, hsub⟩ := Expr.every_unary.mp he
      have h := computes_expr hplaces hconforms e k hsub (Expr.every_unary.mp hh).2 hspared
      rw [hty] at h
      exact computes_negate (Or.inr hwide.size) h
  | .unary .logicalNot e i, k, he, hh, hspared => by
      obtain ⟨⟨⟨hty, hoperand, -⟩, -⟩, hsub⟩ := Expr.every_unary.mp he
      have hn : Width i.ty.size := by
        rw [hty]
        exact Or.inr (Or.inl rfl)
      exact computes_logicalNot hn (Ty.width_size hoperand)
        (computes_expr hplaces hconforms e k hsub (Expr.every_unary.mp hh).2 hspared)
  | .unary .deref e i, k, he, hh, hspared => by
      obtain ⟨⟨⟨hpointer, hty⟩, -⟩, hsub⟩ := Expr.every_unary.mp he
      have h := computes_expr hplaces hconforms e k hsub (Expr.every_unary.mp hh).2 hspared
      rw [Ty.size_of_isDataPointer hpointer] at h
      have hscalar : i.ty.isScalar = true := by
        rw [hty]
        rfl
      exact computes_deref (Ty.width_size hscalar) h
  | .unary .address e i, k, he, hh, hspared => by
      obtain ⟨⟨haddress, -⟩, hnode⟩ := Expr.every_unary.mp he
      have hsize : i.ty.size = 8 := Ty.size_of_isDataPointer haddress.isDataPointer_address
      show Computes S _ k i.ty.size _ _
      rw [hsize]
      rcases operand_of_address he with ⟨x, j, rfl⟩ | ⟨string, j, rfl⟩ | ⟨p, j, rfl⟩
      · exact computes_addressOfPlace fun _ => locates_place (hplaces x) j.ty.size
      · exact computes_addressOfPlace fun _ => locates_text string j.ty.size
      · obtain ⟨⟨⟨hpointer, -⟩, -⟩, hsub⟩ := Expr.every_unary.mp hnode
        have h := computes_expr hplaces hconforms p k hsub
          (Expr.every_unary.mp (Expr.every_unary.mp hh).2).2 hspared
        rw [Ty.size_of_isDataPointer hpointer] at h
        exact computes_addressOfTarget h
  | .cast e i, k, he, hh, hspared => by
      obtain ⟨⟨hcanonical, -⟩, hsub⟩ := Expr.every_cast.mp he
      obtain ⟨hoperand, hresult⟩ := hcanonical.isScalar_cast
      exact computes_cast (Ty.width_size hresult) (Ty.width_size hoperand)
        (computes_expr hplaces hconforms e k hsub (Expr.every_cast.mp hh).2 hspared)
  | .binary op l r i, k, he, hh, hspared => by
      obtain ⟨⟨hcanonical, -⟩, hl, hr⟩ := Expr.every_binary.mp he
      obtain ⟨-, hhl, hhr⟩ := Expr.every_binary.mp hh
      exact computes_binary hcanonical
        (computes_expr hplaces hconforms l k hl hhl
          fun p hp => hspared p (List.mem_append_left _ hp))
        (computes_expr hplaces hconforms r (k + l.textCount) hr hhr
          fun p hp => hspared p (List.mem_append_right _ hp))
termination_by e => SizeOf.sizeOf e

end

end Lowering

end LittleC
