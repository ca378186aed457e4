import LittleC.Proofs.Checking.Nodes

/-! # The names in a tree

The rules make no identifier nodes of their own, so a tree names only what its operands name. -/

namespace LittleC

namespace Expr

/-- Every identifier node stands for one of the symbols. -/
def Names (S : SymbolId → Prop) (e : Expr) : Prop := e.Every fun n => ∀ x i, n = ident x i → S x

section
variable {S : SymbolId → Prop} {e : Expr}

theorem Names.imp {T : SymbolId → Prop} (h : e.Names S) (hST : ∀ x, S x → T x) : e.Names T :=
  Every.imp h fun _ hn x i hx => hST x (hn x i hx)

/-- Whatever holds of identifier nodes only is kept. -/
theorem kept_ident (P : SymbolId → Info → Prop) : Kept fun n => ∀ x i, n = ident x i → P x i := by
  intro n hn x i heq
  subst heq
  cases hn

end

end Expr

namespace Typing

open LittleC.Expr

section
variable {t : SymbolTable} {known S : SymbolId → Prop} {es : List Expr}
  {ss : List Stmt} {result : Ty}

/-- A rule names the symbols of its operands and those that it may name. -/
theorem Rule.names (hknown : ∀ x, known x → S x) (hes : ∀ e ∈ es, e.Names S) {v : Verdict Expr}
    (hv : Rule t known es v) : v.node.Names S := by
  refine hv.every (kept_ident fun x _ => S x) (fun x hx y i heq => ?_) hes
  cases heq
  exact hknown x hx

theorem StmtRule.names (hes : ∀ e ∈ es, e.Names S) (hss : ∀ s ∈ ss, ∀ e ∈ s.exprs, e.Names S)
    {v : Verdict Stmt} (hv : StmtRule result es ss v) : ∀ e ∈ v.node.exprs, e.Names S :=
  hv.every (kept_ident fun x _ => S x) hes hss

end

end Typing

end LittleC
