import LittleC.Proofs.Checking.Quiet
import LittleC.Proofs.Typing.Rules

/-! # Errors do not cascade

An operation over checked operands reports at most one mistake, on the line where it is. Over an
operand that failed to check it is silent, and its result is an error again. Over operands that did
not fail, its result is an error exactly when it reported one. -/

namespace LittleC

/-! ## Verdicts -/

/-- An error among the operands goes on in silence. Where there is none, the node is an error
exactly when there is a fault. -/
structure Verdict.Blames (v : Verdict Expr) (operands : List Expr) : Prop where
  silent : operands.any (·.isError) = true → v.fault = none ∧ v.node.isError = true
  reported : operands.any (·.isError) = false → (v.node.isError = true ↔ v.fault ≠ none)

namespace Typing

open LittleC.Expr

section
variable {e l r : Expr} {operands : List Expr} {v : Verdict Expr}

theorem blames_of_error (hoperands : operands.any (·.isError) = true)
    (hnode : v.node.isError = true) (hfault : v.fault = none) : v.Blames operands := by
  constructor
  · intro _
    exact ⟨hfault, hnode⟩
  · intro hproper
    rw [hoperands] at hproper
    cases hproper

theorem blames_of_proper (hoperands : operands.any (·.isError) = false)
    (hnode : v.node.isError = true ↔ v.fault ≠ none) : v.Blames operands := by
  constructor
  · intro herror
    rw [hoperands] at herror
    cases herror
  · intro _
    exact hnode

/-- The types that are judged may be those of converted operands, as no conversion hides an
error. -/
theorem judge_blames {types : List Ty} {legal : Bool} {result : Ty} {fault : CheckError}
    {node : Ty → Expr} (hnode : ∀ ty, (node ty).ty = ty)
    (htypes : types.any (·.isError) = operands.any (·.isError))
    (hresult : legal = true → result.isError = false) :
    (judge types legal result fault node).Blames operands := by
  have hisError : ∀ ty, (node ty).isError = ty.isError := fun ty => congrArg Ty.isError (hnode ty)
  unfold judge
  rw [htypes]
  cases hoperands : operands.any (·.isError) with
  | true =>
      apply blames_of_error hoperands
      · exact hisError .error
      · rfl
  | false =>
      apply blames_of_proper hoperands
      cases legal with
      | true => simp [hisError, hresult rfl]
      | false => simp [hisError, Ty.isError]

/-! ### One operand -/

theorem blames_logicalNot (e : Expr) : (logicalNot e).Blames [e] := by
  unfold logicalNot
  apply judge_blames
  · intro _
    rfl
  · simp [ty_promote, Ty.isError_promote, isError]
  · intro _
    rfl

theorem blames_negate (e : Expr) : (negate e).Blames [e] := by
  unfold negate
  apply judge_blames
  · intro _
    rfl
  · simp [ty_promote, Ty.isError_promote, isError]
  · exact Ty.isError_of_isNumeric

theorem blames_deref (e : Expr) : (deref e).Blames [e] := by
  unfold deref
  apply judge_blames
  · intro _
    rfl
  · simp [ty_promote, Ty.isError_promote, isError]
  · intro _
    rfl

theorem blames_address (e : Expr) : (address e).Blames [e] := by
  unfold address
  apply judge_blames
  · intro _
    rfl
  · simp [isError]
  · intro _
    rfl

/-- What is cast to a single value is of that type, so it is no error. -/
theorem isError_castTo {target : Ty} (h : target.isScalar = true) (e : Expr) :
    (e.castTo target).isError = false := by
  rw [isError, ty_castTo_of_isScalar h]
  exact Ty.isError_of_isScalar h

/-- The target may be any type, the error type too: that cast is a fault. -/
theorem blames_cast (target : Ty) (e : Expr) : (cast target e).Blames [e] := by
  have hsource : e.ty.promote.isError = e.isError := Ty.isError_promote _
  unfold cast
  dsimp only
  rw [hsource]
  cases he : e.isError with
  | true =>
      apply blames_of_error
      · simpa using he
      · exact he
      · rfl
  | false =>
      apply blames_of_proper
      · simpa using he
      · rw [if_neg Bool.false_ne_true]
        split_ifs with hnum hpointer
        · have hscalar := Ty.isScalar_of_isNumeric (Bool.and_eq_true_iff.mp hnum).1
          simp [isError_castTo hscalar]
        · simp [isError_castTo (size_of_castsPointer hpointer).2.1]
        · simp [isError, ty, info, Ty.isError]

/-! ### Two operands -/

theorem blames_multiplicative (op : BinaryOp) (l r : Expr) :
    (multiplicative op l r).Blames [l, r] := by
  unfold multiplicative
  apply judge_blames
  · intro _
    rfl
  · simp [isError_ty_extend, isError]
  · intro hlegal
    exact Ty.isError_of_isNumeric (Bool.and_eq_true_iff.mp hlegal).1

theorem blames_compare (c : Comparison) (l r : Expr) : (compare c l r).Blames [l, r] := by
  unfold compare
  apply judge_blames
  · intro _
    rfl
  · simp [isError_ty_extend, isError]
  · intro _
    rfl

theorem blames_logical (op : BinaryOp) (l r : Expr) : (logical op l r).Blames [l, r] := by
  unfold logical
  apply judge_blames
  · intro _
    rfl
  · simp [ty_promote, Ty.isError_promote, isError]
  · intro _
    rfl

theorem blames_index (l r : Expr) : (index l r).Blames [l, r] := by
  unfold index
  apply judge_blames
  · intro _
    rfl
  · simp [isError_ty_extend, ty_promote, Ty.isError_promote, isError]
  · intro _
    rfl

/-- Sums and differences look for errors among the operands first. -/
theorem blames_of_sides {op : BinaryOp} (h : l.isError = false → r.isError = false →
    (v.node.isError = true ↔ v.fault ≠ none)) :
    (if l.ty.promote.isError || r.ty.promote.isError then ⟨.binary op l r (.value .error), none⟩
      else v : Verdict Expr).Blames [l, r] := by
  rw [Ty.isError_promote, Ty.isError_promote]
  cases hsides : l.ty.isError || r.ty.isError with
  | true =>
      apply blames_of_error
      · simpa [isError] using hsides
      · rfl
      · rfl
  | false =>
      rw [Bool.or_eq_false_iff] at hsides
      apply blames_of_proper
      · simp [isError, hsides]
      · exact h hsides.1 hsides.2

theorem isError_numeric (op : BinaryOp) (h : l.isError = false) (r : Expr) :
    (numeric op l r).isError = false := (isError_ty_extend l r.ty).trans h

/-- A pointer stays one under an offset. -/
theorem isError_offset (op : BinaryOp) (h : e.isError = false) (l r : Expr) :
    (Expr.binary op l r (.value e.promote.ty)).isError = false := by
  show e.promote.ty.isError = false
  rw [ty_promote, Ty.isError_promote]
  exact h

theorem isError_failed (op : BinaryOp) (l r : Expr) :
    (Expr.binary op l r (.value .error)).isError = true := rfl

theorem blames_add (l r : Expr) : (add l r).Blames [l, r] := by
  unfold add
  apply blames_of_sides
  intro hl hr
  split_ifs
  · simp [isError_numeric .add hl]
  · simp [isError_offset .add hl]
  · simp [isError_offset .add hr]
  · simp [isError_failed]

theorem blames_subtract (l r : Expr) : (subtract l r).Blames [l, r] := by
  unfold subtract
  apply blames_of_sides
  intro hl hr
  split_ifs
  · simp [isError_numeric .sub hl]
  · have hdistance : (distance l r).isError = false := rfl
    simp [hdistance]
  · simp [isError_offset .sub hl]
  · simp [isError_failed]

theorem blames_binary (op : BinaryOp) (l r : Expr) : (binary op l r).Blames [l, r] := by
  cases op with
  | add => exact blames_add l r
  | sub => exact blames_subtract l r
  | mul | div | rem => exact blames_multiplicative _ l r
  | compare c => exact blames_compare c l r
  | land | lor => exact blames_logical _ l r

end

/-! ## Operations -/

/-- The operations that give an expression over checked operands. -/
inductive Operation where
  | index (left right : Expr)
  | logicalNot (operand : Expr)
  | negate (operand : Expr)
  | deref (operand : Expr)
  | address (operand : Expr)
  | cast (target : Ty) (operand : Expr)
  | binary (op : BinaryOp) (left right : Expr)
  /-- The rule of products, under any operator. -/
  | multiplicative (op : BinaryOp) (left right : Expr)
  /-- The rule of conjunctions and disjunctions, under any operator. -/
  | logical (op : BinaryOp) (left right : Expr)

namespace Operation

def operands : Operation → List Expr
  | .logicalNot e | .negate e | .deref e | .address e | .cast _ e => [e]
  | .index l r | .binary _ l r | .multiplicative _ l r | .logical _ l r => [l, r]

def verdict : Operation → Verdict Expr
  | .index l r => Typing.index l r
  | .logicalNot e => Typing.logicalNot e
  | .negate e => Typing.negate e
  | .deref e => Typing.deref e
  | .address e => Typing.address e
  | .cast target e => Typing.cast target e
  | .binary op l r => Typing.binary op l r
  | .multiplicative op l r => Typing.multiplicative op l r
  | .logical op l r => Typing.logical op l r

theorem blames (o : Operation) : o.verdict.Blames o.operands := by
  cases o with
  | index l r => exact blames_index l r
  | logicalNot e => exact blames_logicalNot e
  | negate e => exact blames_negate e
  | deref e => exact blames_deref e
  | address e => exact blames_address e
  | cast target e => exact blames_cast target e
  | binary op l r => exact blames_binary op l r
  | multiplicative op l r => exact blames_multiplicative op l r
  | logical op l r => exact blames_logical op l r

end Operation

/-! ### Statements -/

theorem fault_assign_of_error (target value : Expr) (h : [target, value].any (·.isError) = true) :
    (assign target value).fault = none := by
  have hsides : (target.ty.isError || (value.convert target.ty).ty.isError) = true := by
    rw [isError_ty_convert]
    simpa [isError] using h
  unfold assign
  dsimp only
  rw [if_pos hsides]

theorem fault_ret_of_error (expected : Ty) {e : Expr} (h : e.isError = true) :
    (ret expected e).fault = none := by
  have hvalue : (e.convert expected).ty.isError = true := (isError_ty_convert e expected).trans h
  unfold ret
  dsimp only
  rw [hvalue, Bool.true_or, Bool.true_or, if_pos rfl]

theorem test_of_error {e : Expr} (h : e.isError = true) :
    (test e).fault = none ∧ (test e).node.isError = true := by
  have hpromoted : e.promote.ty.isError = true := by
    rw [ty_promote, Ty.isError_promote]
    exact h
  constructor
  · unfold test
    dsimp only
    rw [hpromoted, Bool.true_or, if_pos rfl]
  · exact hpromoted

end Typing

/-! ## The checker -/

namespace Checker

/-- What an operation over operands leaves of a checker. The table of names and all diagnostics
stay. At most one diagnostic is new, an error on the current line, and there is none over an operand
that is an error. -/
structure Answers (c : Checker) (operands : List Expr) (c' : Checker) : Prop where
  symbols : c'.symbols = c.symbols
  returnType : c'.returnType = c.returnType
  line : c'.log.line = c.log.line
  entries : ∃ new : List Diagnostic, c'.log.entries = c.log.entries ++ new ∧ new.length ≤ 1 ∧
    ∀ d ∈ new, d.severity = .error ∧ d.line = c.log.line
  silent : operands.any (·.isError) = true → c' = c

section
variable {α : Type} {operands : List Expr} {v : Verdict α}

/-- A fault is the one new diagnostic. -/
theorem entries_reportAny (c : Checker) (fault : Option CheckError) :
    (c.reportAny fault).log.entries =
      c.log.entries ++ fault.toList.map fun e => ⟨.error, c.log.line, e⟩ := by
  cases fault with
  | none => exact (List.append_nil _).symm
  | some e => rfl

theorem line_reportAny (c : Checker) (fault : Option CheckError) :
    (c.reportAny fault).log.line = c.log.line := by
  cases fault <;> rfl

/-- Something is new exactly when there is a fault. -/
theorem entries_reportAny_ne (c : Checker) (fault : Option CheckError) :
    (c.reportAny fault).log.entries ≠ c.log.entries ↔ fault ≠ none := by
  rw [entries_reportAny]
  cases fault <;> simp

theorem answers_accept (c : Checker)
    (hsilent : operands.any (·.isError) = true → v.fault = none) :
    c.Answers operands (c.accept v).2 where
  symbols := symbols_reportAny c v.fault
  returnType := returnType_reportAny c v.fault
  line := line_reportAny c v.fault
  entries := by
    refine ⟨_, entries_reportAny c v.fault, ?_, ?_⟩
    · cases v.fault <;> simp
    · intro d hd
      obtain ⟨e, -, rfl⟩ := List.mem_map.mp hd
      exact ⟨rfl, rfl⟩
  silent := by
    intro herror
    show c.reportAny v.fault = c
    rw [hsilent herror]
    rfl

end

/-- Errors do not cascade and are never silent. Every operation keeps the names and the diagnostics
and adds at most one. An operand that is an error goes on in silence, as an error where the
operation gives an expression. Over other operands an operator gives an error exactly when it
reports one. -/
theorem errors_do_not_cascade (c : Checker) :
    (∀ o : Typing.Operation,
      c.Answers o.operands (c.accept o.verdict).2 ∧
      (o.operands.any (·.isError) = true → (c.accept o.verdict).1.isError = true) ∧
      (o.operands.any (·.isError) = false →
        ((c.accept o.verdict).1.isError = true ↔
          (c.accept o.verdict).2.log.entries ≠ c.log.entries))) ∧
    (∀ e : Expr,
      c.Answers [e] (c.accept (Typing.test e)).2 ∧
      (e.isError = true → (c.accept (Typing.test e)).1.isError = true)) ∧
    (∀ target value : Expr, c.Answers [target, value] (c.accept (Typing.assign target value)).2) ∧
    ∀ e : Expr, c.Answers [e] (c.ret e).2 := by
  refine ⟨?_, ?_, ?_, ?_⟩
  · intro o
    have hblames := o.blames
    refine ⟨?_, ?_, ?_⟩
    · exact answers_accept c fun herror => (hblames.silent herror).1
    · intro herror
      exact (hblames.silent herror).2
    · intro hproper
      show o.verdict.node.isError = true ↔ (c.reportAny o.verdict.fault).log.entries ≠ c.log.entries
      rw [entries_reportAny_ne]
      exact hblames.reported hproper
  · intro e
    constructor
    · apply answers_accept
      intro herror
      exact (Typing.test_of_error (by simpa using herror)).1
    · intro herror
      exact (Typing.test_of_error herror).2
  · intro target value
    apply answers_accept
    exact Typing.fault_assign_of_error target value
  · intro e
    apply answers_accept
    intro herror
    exact Typing.fault_ret_of_error _ (by simpa using herror)

end Checker

end LittleC
