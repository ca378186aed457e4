import LittleC.Proofs.Typing.Canonical

/-! # No error without a fault

One rule applied to operands without errors either reports a fault or gives a node without errors.
So an error type gets into a tree only where something is reported. -/

namespace LittleC

namespace Typing

/-! ## Applications of a rule -/

/-- The verdict of one rule on operands from `es`, over a table of which the symbols `known` may be
named. -/
inductive Rule (t : SymbolTable) (known : SymbolId → Prop) (es : List Expr) :
    Verdict Expr → Prop where
  | ident {x : SymbolId} (hx : known x) : Rule t known es ⟨.ofSymbol t x, none⟩
  | number (l : IntegerLiteral) : Rule t known es ⟨.ofInteger l, none⟩
  | text (s : String) : Rule t known es ⟨.ofText s, none⟩
  | call {f : SymbolId} {args : List Expr} (hf : known f) (hargs : ∀ a ∈ args, a ∈ es) :
      Rule t known es (call (t.symbol f).ty f args)
  | index {l r : Expr} (hl : l ∈ es) (hr : r ∈ es) : Rule t known es (index l r)
  | logicalNot {e : Expr} (he : e ∈ es) : Rule t known es (logicalNot e)
  | negate {e : Expr} (he : e ∈ es) : Rule t known es (negate e)
  | deref {e : Expr} (he : e ∈ es) : Rule t known es (deref e)
  | address {e : Expr} (he : e ∈ es) : Rule t known es (address e)
  | sizeOf {e : Expr} (he : e ∈ es) : Rule t known es (sizeOf e)
  | cast (target : Ty) {e : Expr} (he : e ∈ es) : Rule t known es (cast target e)
  | binary (op : BinaryOp) {l r : Expr} (hl : l ∈ es) (hr : r ∈ es) :
      Rule t known es (binary op l r)
  | test {e : Expr} (he : e ∈ es) : Rule t known es (test e)

/-- The verdict of one statement rule over expressions from `es` and statements from `ss`, in a
function that returns `result`. -/
inductive StmtRule (result : Ty) (es : List Expr) (ss : List Stmt) : Verdict Stmt → Prop where
  | expr {e : Expr} (he : e ∈ es) : StmtRule result es ss ⟨.expr e, none⟩
  | assign {target value : Expr} (htarget : target ∈ es) (hvalue : value ∈ es) :
      StmtRule result es ss (assign target value)
  | ret {e : Expr} (he : e ∈ es) : StmtRule result es ss (ret result e)
  | loop {c : Expr} {body : Stmt} (hc : c ∈ es) (hbody : body ∈ ss) :
      StmtRule result es ss (loop c body)
  | ifThen {c : Expr} {body : Stmt} (hc : c ∈ es) (hbody : body ∈ ss) :
      StmtRule result es ss (ifThen c body)
  | ifElse {c : Expr} {body other : Stmt} (hc : c ∈ es) (hbody : body ∈ ss) (hother : other ∈ ss) :
      StmtRule result es ss (ifElse c body other)
  | block (scope : ScopeId) {body : List Stmt} (hbody : ∀ s ∈ body, s ∈ ss) :
      StmtRule result es ss ⟨.block scope body, none⟩

/-- A rule reads of a table only the types of the symbols that may be named. -/
theorem Rule.of_types {t u : SymbolTable} {known allowed : SymbolId → Prop} {es : List Expr}
    {v : Verdict Expr} (hknown : ∀ x, known x → allowed x)
    (hty : ∀ x, known x → (t.symbol x).ty = (u.symbol x).ty) (hv : Rule t known es v) :
    Rule u allowed es v := by
  cases hv with
  | @ident x hx =>
      have hsame : Expr.ofSymbol t x = Expr.ofSymbol u x := by simp only [Expr.ofSymbol, hty x hx]
      rw [hsame]
      exact .ident (hknown x hx)
  | @call f args hf hargs =>
      rw [hty f hf]
      exact .call (hknown f hf) hargs
  | number l => exact .number l
  | text s => exact .text s
  | index hl hr => exact .index hl hr
  | logicalNot he => exact .logicalNot he
  | negate he => exact .negate he
  | deref he => exact .deref he
  | address he => exact .address he
  | sizeOf he => exact .sizeOf he
  | cast target he => exact .cast target he
  | binary op hl hr => exact .binary op hl hr
  | test he => exact .test he

/-! ## Verdicts without a fault -/

open LittleC.Expr

/-- Over proper types a verdict without a fault is the node of a legal combination. -/
theorem hasError_judge {operands : List Ty} {legal : Bool} {result : Ty} {fault : CheckError}
    {node : Ty → Expr} (hoperands : operands.any (·.isError) = false)
    (hnode : legal = true → (node result).hasError = false)
    (h : (judge operands legal result fault node).fault = none) :
    (judge operands legal result fault node).node.hasError = false := by
  unfold judge at h ⊢
  rw [hoperands] at h ⊢
  cases legal with
  | true => exact hnode rfl
  | false => cases h

section
variable {e l r : Expr}

theorem hasError_numeric {op : BinaryOp} (hl : l.hasError = false) (hr : r.hasError = false) :
    (numeric op l r).hasError = false := by
  have hleft : (l.extend r.ty).hasError = false := (hasError_extend l _).trans hl
  exact hasError_binary_eq_false.mpr
    ⟨isError_ty_of_hasError hleft, hleft, (hasError_extend r _).trans hr⟩

theorem hasError_multiplicative {op : BinaryOp} (hl : l.hasError = false) (hr : r.hasError = false)
    (h : (multiplicative op l r).fault = none) : (multiplicative op l r).node.hasError = false := by
  have hleft : (l.extend r.ty).hasError = false := (hasError_extend l _).trans hl
  have hright : (r.extend (l.extend r.ty).ty).hasError = false := (hasError_extend r _).trans hr
  refine hasError_judge ?_ (fun _ => ?_) h
  · simp [isError_ty_of_hasError hleft, isError_ty_of_hasError hright]
  · exact hasError_binary_eq_false.mpr ⟨isError_ty_of_hasError hleft, hleft, hright⟩

theorem hasError_compare {c : Comparison} (hl : l.hasError = false) (hr : r.hasError = false)
    (h : (compare c l r).fault = none) : (compare c l r).node.hasError = false := by
  have hleft : (l.extend r.ty).hasError = false := (hasError_extend l _).trans hl
  have hright : (r.extend (l.extend r.ty).ty).hasError = false := (hasError_extend r _).trans hr
  refine hasError_judge ?_ (fun _ => ?_) h
  · simp [isError_ty_of_hasError hleft, isError_ty_of_hasError hright]
  · exact hasError_binary_eq_false.mpr ⟨rfl, hleft, hright⟩

theorem hasError_logical {op : BinaryOp} (hl : l.hasError = false) (hr : r.hasError = false)
    (h : (logical op l r).fault = none) : (logical op l r).node.hasError = false := by
  have hleft : l.promote.hasError = false := (hasError_promote l).trans hl
  have hright : r.promote.hasError = false := (hasError_promote r).trans hr
  refine hasError_judge ?_ (fun _ => ?_) h
  · simp [isError_ty_of_hasError hleft, isError_ty_of_hasError hright]
  · exact hasError_binary_eq_false.mpr ⟨rfl, hleft, hright⟩

/-- A sum or difference of a pointer and a count of elements, in either order. -/
theorem hasError_offset {op : BinaryOp} (hl : l.hasError = false) (hr : r.hasError = false) :
    (Expr.binary op l.promote ((r.extend .long).scale l.promote.ty)
        (.value l.promote.ty)).hasError = false ∧
      (Expr.binary op ((r.extend .long).scale l.promote.ty) l.promote
        (.value l.promote.ty)).hasError = false := by
  have hpointer : l.promote.hasError = false := (hasError_promote l).trans hl
  have hcount : ((r.extend .long).scale l.promote.ty).hasError = false := by
    rw [hasError_scale, hasError_extend, hr]
  have htype := isError_ty_of_hasError hpointer
  exact ⟨hasError_binary_eq_false.mpr ⟨htype, hpointer, hcount⟩,
    hasError_binary_eq_false.mpr ⟨htype, hcount, hpointer⟩⟩

theorem hasError_add (hl : l.hasError = false) (hr : r.hasError = false)
    (h : (add l r).fault = none) : (add l r).node.hasError = false := by
  unfold add at h ⊢
  simp only [Ty.isError_promote, isError_ty_of_hasError hl, isError_ty_of_hasError hr, Bool.or_self,
    Bool.false_eq_true, if_false] at h ⊢
  split_ifs at h ⊢
  · exact hasError_numeric hl hr
  · exact (hasError_offset hl hr).1
  · exact (hasError_offset hr hl).2

theorem hasError_distance (hl : l.hasError = false) (hr : r.hasError = false) :
    (distance l r).hasError = false := by
  simp [distance, hasError, hasError_promote, hl, hr, Ty.isError]

theorem hasError_subtract (hl : l.hasError = false) (hr : r.hasError = false)
    (h : (subtract l r).fault = none) : (subtract l r).node.hasError = false := by
  unfold subtract at h ⊢
  simp only [Ty.isError_promote, isError_ty_of_hasError hl, isError_ty_of_hasError hr, Bool.or_self,
    Bool.false_eq_true, if_false] at h ⊢
  split_ifs at h ⊢
  · exact hasError_numeric hl hr
  · exact hasError_distance hl hr
  · exact (hasError_offset hl hr).1

theorem hasError_binaryRule {op : BinaryOp} (hl : l.hasError = false) (hr : r.hasError = false)
    (h : (binary op l r).fault = none) : (binary op l r).node.hasError = false := by
  cases op with
  | add => exact hasError_add hl hr h
  | sub => exact hasError_subtract hl hr h
  | mul | div | rem => exact hasError_multiplicative hl hr h
  | compare c => exact hasError_compare hl hr h
  | land | lor => exact hasError_logical hl hr h

theorem hasError_index (hl : l.hasError = false) (hr : r.hasError = false)
    (h : (index l r).fault = none) : (index l r).node.hasError = false := by
  have hleft : l.promote.hasError = false := (hasError_promote l).trans hl
  have hright : (r.extend .long).hasError = false := (hasError_extend r _).trans hr
  refine hasError_judge ?_ (fun hlegal => ?_) h
  · simp [isError_ty_of_hasError hleft, isError_ty_of_hasError hright]
  · rw [if_pos hlegal]
    exact hasError_unary_eq_false.mpr ⟨rfl, (hasError_offset hl hr).1⟩

theorem hasError_logicalNot (he : e.hasError = false) (h : (logicalNot e).fault = none) :
    (logicalNot e).node.hasError = false := by
  have hpromoted : e.promote.hasError = false := (hasError_promote e).trans he
  refine hasError_judge ?_ (fun _ => ?_) h
  · simp [isError_ty_of_hasError hpromoted]
  · exact hasError_unary_eq_false.mpr ⟨rfl, hpromoted⟩

theorem hasError_negate (he : e.hasError = false) (h : (negate e).fault = none) :
    (negate e).node.hasError = false := by
  have hpromoted : e.promote.hasError = false := (hasError_promote e).trans he
  refine hasError_judge ?_ (fun _ => ?_) h
  · simp [isError_ty_of_hasError hpromoted]
  · exact hasError_unary_eq_false.mpr ⟨isError_ty_of_hasError hpromoted, hpromoted⟩

theorem hasError_deref (he : e.hasError = false) (h : (deref e).fault = none) :
    (deref e).node.hasError = false := by
  have hpromoted : e.promote.hasError = false := (hasError_promote e).trans he
  refine hasError_judge ?_ (fun _ => ?_) h
  · simp [isError_ty_of_hasError hpromoted]
  · exact hasError_unary_eq_false.mpr ⟨rfl, hpromoted⟩

theorem hasError_address (he : e.hasError = false) (h : (address e).fault = none) :
    (address e).node.hasError = false := by
  refine hasError_judge ?_ (fun _ => ?_) h
  · simp [isError_ty_of_hasError he]
  · exact hasError_unary_eq_false.mpr ⟨rfl, he⟩

/-- A cast to the error type is a fault, so the target need not be a proper type. -/
theorem hasError_castRule {target : Ty} (he : e.hasError = false)
    (h : (cast target e).fault = none) : (cast target e).node.hasError = false := by
  unfold cast at h ⊢
  simp only [Ty.isError_promote, isError_ty_of_hasError he, Bool.false_eq_true, if_false] at h ⊢
  split_ifs at h ⊢ with hnum hpointer
  · rw [Bool.and_eq_true] at hnum
    rw [hasError_castTo _ (Ty.isError_of_isNumeric hnum.1), hasError_convert, he]
  · have htarget := Ty.isError_of_isScalar (size_of_castsPointer hpointer).2.1
    rw [hasError_castTo _ htarget, hasError_promote, he]

theorem hasError_call {ty : Ty} {f : SymbolId} {args : List Expr} (hty : ty.isError = false)
    (hargs : ∀ a ∈ args, a.hasError = false) (h : (call ty f args).fault = none) :
    (call ty f args).node.hasError = false := by
  have hargs : anyError args = false := anyError_eq_false_iff.mpr hargs
  cases ty with
  | error => cases hty
  | scalar | array => cases h
  | funcUnspecified b d =>
      simp only [call, hasError, anyError_map_promote, hargs, Bool.or_false]
      rfl
  | func b d params =>
      unfold call at h ⊢
      dsimp only at h ⊢
      split_ifs at h ⊢
      simp only [hasError, anyError_convertArgs, hargs, Bool.or_false]
      rfl

end

/-! ## Rules without a fault -/

section
variable {t : SymbolTable} {known : SymbolId → Prop} {es : List Expr} {ss : List Stmt} {result : Ty}

theorem Rule.hasError (hknown : ∀ x, known x → (t.symbol x).ty.isError = false)
    (hes : ∀ e ∈ es, e.hasError = false) {v : Verdict Expr} (hv : Rule t known es v)
    (h : v.fault = none) : v.node.hasError = false := by
  cases hv with
  | ident hx => exact hknown _ hx
  | number l => cases hlong : l.isLong <;> simp [ofInteger, Expr.hasError, hlong, Ty.isError]
  | text s => rfl
  | call hf hargs => exact hasError_call (hknown _ hf) (fun a ha => hes a (hargs a ha)) h
  | index hl hr => exact hasError_index (hes _ hl) (hes _ hr) h
  | logicalNot he => exact hasError_logicalNot (hes _ he) h
  | negate he => exact hasError_negate (hes _ he) h
  | deref he => exact hasError_deref (hes _ he) h
  | address he => exact hasError_address (hes _ he) h
  | sizeOf he => rfl
  | cast target he => exact hasError_castRule (hes _ he) h
  | binary op hl hr => exact hasError_binaryRule (hes _ hl) (hes _ hr) h
  | test he => exact (hasError_promote _).trans (hes _ he)

/-- A statement has no types of its own, so it is as free of errors as its parts. -/
theorem StmtRule.hasError (hes : ∀ e ∈ es, e.hasError = false) (hss : ∀ s ∈ ss, s.hasError = false)
    {v : Verdict Stmt} (hv : StmtRule result es ss v) : v.node.hasError = false := by
  cases hv with
  | expr he => exact hes _ he
  | assign htarget hvalue =>
      simp [Typing.assign, Stmt.hasError, hasError_convert, hes _ htarget, hes _ hvalue]
  | ret he => simp [Typing.ret, Stmt.hasError, hasError_convert, hes _ he]
  | loop hc hbody =>
      simp [Typing.loop, Verdict.map, Typing.test, Stmt.hasError, hasError_promote,
        hes _ hc, hss _ hbody]
  | ifThen hc hbody =>
      simp [Typing.ifThen, Verdict.map, Typing.test, Stmt.hasError, hasError_promote,
        hes _ hc, hss _ hbody]
  | ifElse hc hbody hother =>
      simp [Typing.ifElse, Verdict.map, Typing.test, Stmt.hasError, hasError_promote,
        hes _ hc, hss _ hbody, hss _ hother]
  | block scope hbody => exact Stmt.anyError_eq_false_iff.mpr fun s hs => hss s (hbody s hs)

end

end Typing

end LittleC
