import LittleC.Proofs.Checking.Clean
import LittleC.Proofs.Typing.Nodes

/-! # Node properties under the rules

A property that rules keep and that all known names have holds at every node of what the rules give,
also inside statements. -/

namespace LittleC.Typing

open LittleC.Expr

section
variable {t : SymbolTable} {known : SymbolId → Prop} {es : List Expr} {ss : List Stmt} {result : Ty}
  {N : Expr → Prop}

theorem Rule.every (h : Kept N) (hknown : ∀ x, known x → N (ofSymbol t x))
    (hes : ∀ e ∈ es, e.Every N) {v : Verdict Expr} (hv : Rule t known es v) : v.node.Every N := by
  cases hv with
  | ident hx => exact every_ident.mpr (hknown _ hx)
  | number l => exact h.every_ofInteger l
  | text s => exact every_text.mpr (h _ (.text s))
  | call hf hargs => exact h.every_callRule _ _ fun a ha => hes a (hargs a ha)
  | index hl hr => exact h.every_index (hes _ hl) (hes _ hr)
  | logicalNot he => exact h.every_logicalNot (hes _ he)
  | negate he => exact h.every_negate (hes _ he)
  | deref he => exact h.every_deref (hes _ he)
  | address he => exact h.every_address (hes _ he)
  | sizeOf he => exact every_number.mpr (h _ (.number _ rfl))
  | cast target he => exact h.every_castRule target (hes _ he)
  | binary op hl hr => exact h.every_binaryRule op (hes _ hl) (hes _ hr)
  | test he => exact h.every_promote (hes _ he)

/-- The expressions of a statement are operands, promoted or converted. -/
theorem StmtRule.forall_exprs {P : Expr → Prop} (hpromote : ∀ e, P e → P e.promote)
    (hconvert : ∀ e target, P e → P (e.convert target)) (hes : ∀ e ∈ es, P e)
    (hss : ∀ s ∈ ss, ∀ e ∈ s.exprs, P e) {v : Verdict Stmt} (hv : StmtRule result es ss v) :
    ∀ e ∈ v.node.exprs, P e := by
  cases hv with
  | expr he => exact List.forall_mem_singleton.mpr (hes _ he)
  | assign htarget hvalue =>
      refine List.forall_mem_cons.mpr ⟨hes _ htarget, ?_⟩
      exact List.forall_mem_singleton.mpr (hconvert _ _ (hes _ hvalue))
  | ret he => exact List.forall_mem_singleton.mpr (hconvert _ _ (hes _ he))
  | loop hc hbody | ifThen hc hbody =>
      exact List.forall_mem_cons.mpr ⟨hpromote _ (hes _ hc), hss _ hbody⟩
  | ifElse hc hbody hother =>
      exact List.forall_mem_cons.mpr ⟨hpromote _ (hes _ hc),
        List.forall_mem_append.mpr ⟨hss _ hbody, hss _ hother⟩⟩
  | block scope hbody =>
      intro e he
      obtain ⟨s, hs, he⟩ := Stmt.mem_exprsAll.mp he
      exact hss s (hbody s hs) e he

theorem StmtRule.every (h : Kept N) (hes : ∀ e ∈ es, e.Every N)
    (hss : ∀ s ∈ ss, ∀ e ∈ s.exprs, e.Every N) {v : Verdict Stmt} (hv : StmtRule result es ss v) :
    ∀ e ∈ v.node.exprs, e.Every N :=
  hv.forall_exprs (fun _ he => h.every_promote he) (fun _ target he => h.every_convert he target)
    hes hss

end

end LittleC.Typing
