import LittleC.Proofs.Checking.Cascade

/-! # Arguments that failed to check

Operators, conditions, assignments and returns are silent over an operand that failed to check. Of
calls this holds for those with an unspecified list only. Against a list of parameters such an
argument is as wrong as one of another type: no conversion gives it the type of its parameter, and
the call reports it again. -/

namespace LittleC

namespace Ty

/-- Only a parameter of the error type takes an argument of that type. -/
theorem passes_error (param : Ty) : error.passes param = param.isError := by
  cases param with
  | scalar b d => cases d <;> rfl
  | _ => rfl

end Ty

namespace Typing

open LittleC.Expr

section
variable {args : List Expr} {params : List Ty}

/-- Every argument but those that failed to check has the type of its parameter after conversion. -/
def Converts (args : List Expr) (params : List Ty) : Prop :=
  ∀ q ∈ args.zip params, q.1.isError = false → (q.1.convert q.2).ty.agrees q.2 = true

instance : Decidable (Converts args params) :=
  inferInstanceAs (Decidable (∀ q ∈ args.zip params, _ → _))

/-- An argument that failed to check stands at a parameter of a proper type. -/
def repeatsError (args : List Expr) (params : List Ty) : Bool :=
  (args.zip params).any fun (a, p) => a.isError && !p.isError

/-- Beside arguments that convert, those that failed to check decide. -/
theorem convertArgs_of_converts (h : Converts args params) :
    (convertArgs args params).2 = !repeatsError args params := by
  rw [convertArgs_eq_true, repeatsError, List.not_any_eq_all_not, List.zip_map_left, List.all_map,
    Bool.eq_iff_iff, List.all_eq_true, List.all_eq_true]
  refine forall₂_congr fun q hq => ?_
  cases hfailed : q.1.isError with
  | true =>
      have hty : q.1.ty = .error := Ty.isError_iff.mp hfailed
      simp [hty, Ty.passes_error, hfailed]
  | false =>
      have hpasses := h q hq hfailed
      rw [agrees_convert] at hpasses
      simp [hpasses, hfailed]

/-- Arguments of a matching number that convert, but for those that failed, are a mistake exactly
when one of these meets a proper parameter. -/
theorem call_func {b : Base} {d : Nat} {f : SymbolId} (hlen : params.length = args.length)
    (h : Converts args params) :
    call (.func b d params) f args =
      if repeatsError args params then
        ⟨.call f (convertArgs args params).1 (.value .error), some .invalidArguments⟩
      else ⟨.call f (convertArgs args params).1 (.value (.scalar b d)), none⟩ := by
  unfold call
  dsimp only
  rw [if_pos hlen, convertArgs_of_converts h]
  cases repeatsError args params <;> rfl

/-- Each argument has its parameter, so one that failed is enough. -/
theorem repeatsError_of_proper : ∀ {args : List Expr} {params : List Ty},
    params.length = args.length → (∀ p ∈ params, p.isError = false) →
      (∃ a ∈ args, a.isError = true) → repeatsError args params = true
  | [], _, _, _, ⟨a, ha, _⟩ => absurd ha List.not_mem_nil
  | _ :: _, [], hlen, _, _ => Nat.noConfusion hlen
  | _ :: _, _ :: _, hlen, hparams, ⟨failed, hmem, hfailed⟩ => by
      rw [List.forall_mem_cons] at hparams
      rw [repeatsError, List.zip_cons_cons, List.any_cons, Bool.or_eq_true]
      rcases List.mem_cons.mp hmem with rfl | hmem
      · left
        simp [hfailed, hparams.1]
      · right
        exact repeatsError_of_proper (Nat.succ.inj hlen) hparams.2 ⟨failed, hmem, hfailed⟩

theorem hasError_call_of_mem {ty : Ty} {f : SymbolId} (h : ∃ a ∈ args, a.isError = true) :
    (call ty f args).node.hasError = true := by
  obtain ⟨a, ha, hfailed⟩ := h
  cases hnode : (call ty f args).node.hasError with
  | true => rfl
  | false => cases (isError_ty_of_hasError (hasError_of_call hnode a ha)).symm.trans hfailed

end

end Typing

namespace Checker

/-- A call reports arguments again that failed to check. Where the number of arguments is right and
all others convert, the tree has an error. An unspecified list goes on in silence. A list of
parameters does so only where every failed argument meets a parameter of the error type: with proper
parameters, the call is reported and is an error itself. -/
theorem call_of_failed_arguments (c : Checker) (f : SymbolId) (args : List Expr)
    (hf : (c.symbols.symbol f).ty.isFunction = true)
    (hlist : ∀ ps, (c.symbols.symbol f).ty.params? = some ps →
      ps.length = args.length ∧ Typing.Converts args ps)
    (hfailed : ∃ a ∈ args, a.isError = true) :
    (c.call f args).1.hasError = true ∧
    ((c.symbols.symbol f).ty.params? = none → (c.call f args).2 = c) ∧
    ∀ ps, (c.symbols.symbol f).ty.params? = some ps →
      (c.call f args).2 =
        (if Typing.repeatsError args ps then c.report .invalidArguments else c) ∧
      ((∀ p ∈ ps, p.isError = false) →
        (c.call f args).1.isError = true ∧ (c.call f args).2 = c.report .invalidArguments) := by
  refine ⟨Typing.hasError_call_of_mem hfailed, ?_⟩
  unfold call
  cases hty : (c.symbols.symbol f).ty with
  | error | scalar | array =>
      rw [hty] at hf
      cases hf
  | funcUnspecified b d =>
      constructor
      · intro _
        rfl
      · intro ps hps
        cases hps
  | func b d params =>
      obtain ⟨hlen, hconverts⟩ := hlist params (by rw [hty]; rfl)
      rw [Typing.call_func hlen hconverts]
      constructor
      · intro hnone
        cases hnone
      · rintro ps ⟨rfl⟩
        constructor
        · cases Typing.repeatsError args params <;> rfl
        · intro hproper
          rw [if_pos (Typing.repeatsError_of_proper hlen hproper hfailed)]
          exact ⟨rfl, rfl⟩

/-- A failed argument behind a good one, once with parameters and once without. -/
theorem call_of_failed_arguments_second :
    let t : SymbolTable := ⟨[.fresh "f" (.func .int 0 [.int, .char]),
      .fresh "g" (.funcUnspecified .int 0), .fresh "y" .error], [], []⟩
    let c : Checker := { Checker.empty with symbols := t }
    let args := [Expr.number 1 (.value .int), c.ident ⟨2⟩]
    (c.call ⟨0⟩ args).1.isError = true ∧ (c.call ⟨0⟩ args).2 = c.report .invalidArguments ∧
      (c.call ⟨1⟩ args).1.hasError = true ∧ (c.call ⟨1⟩ args).2 = c := by
  intro t c args
  have hfailed : ∃ a ∈ args, a.isError = true := ⟨c.ident ⟨2⟩, by simp [args], rfl⟩
  have hconverts : Typing.Converts args [.int, .char] := by decide
  obtain ⟨-, -, hlisted⟩ := call_of_failed_arguments c ⟨0⟩ args rfl
    (by rintro ps ⟨rfl⟩; exact ⟨rfl, hconverts⟩) hfailed
  obtain ⟨-, hreported⟩ := hlisted _ rfl
  obtain ⟨herror, hunspecified, -⟩ := call_of_failed_arguments c ⟨1⟩ args rfl (by rintro ps ⟨⟩)
    hfailed
  obtain ⟨hnode, hagain⟩ := hreported (by decide)
  exact ⟨hnode, hagain, herror, hunspecified rfl⟩

/-- An undeclared name is reported, and reported again as an argument. -/
theorem call_repeats_error :
    ¬ ∀ (c : Checker) (f : SymbolId) (args : List Expr),
      (c.symbols.symbol f).ty.isFunction = true →
      (∀ ps, (c.symbols.symbol f).ty.params? = some ps →
        ps.length = args.length ∧ Typing.Converts args ps) →
      (∃ a ∈ args, a.isError = true) →
      (c.call f args).2.log.entries = c.log.entries ∧ (c.call f args).1.hasError = true := by
  intro hsilent
  let declared := Checker.empty.declareFunction "f" (.func .int 0 [.int])
  let resolved := declared.2.resolve "y"
  obtain ⟨hsame, -⟩ := hsilent resolved.2 declared.1 [resolved.2.ident resolved.1] rfl
    (by rintro ps ⟨rfl⟩; exact ⟨rfl, by decide⟩) ⟨_, List.mem_singleton.mpr rfl, rfl⟩
  exact absurd hsame (by decide)

end Checker

end LittleC
