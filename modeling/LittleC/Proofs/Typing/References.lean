import LittleC.Proofs.Checking.Clean

/-! # The symbols in a tree

An expression refers to symbols by the names in it and by the functions that it calls. Conversions
refer to nothing of their own, so what a rule gives refers to what its operands refer to. -/

namespace LittleC

namespace Expr

mutual
/-- The symbols of all names and calls in a tree, from left to right. -/
def references : Expr → List SymbolId
  | number .. | text .. => []
  | ident x _ => [x]
  | call f args _ => f :: referencesAll args
  | unary _ e _ | cast e _ => e.references
  | binary _ l r _ => l.references ++ r.references

def referencesAll : List Expr → List SymbolId
  | [] => []
  | e :: es => e.references ++ referencesAll es
end

theorem mem_referencesAll {x : SymbolId} : ∀ {es : List Expr},
    x ∈ referencesAll es ↔ ∃ e ∈ es, x ∈ e.references
  | [] => by simp [referencesAll]
  | e :: es => by
      rw [referencesAll, List.mem_append, mem_referencesAll]
      simp

/-! ## Conversions -/

theorem references_promote (e : Expr) : e.promote.references = e.references := by
  unfold promote
  split <;> simp only [references]

theorem references_extend (e : Expr) (target : Ty) :
    (e.extend target).references = e.references := by
  unfold extend
  rw [references_promote]
  split
  · simp only [references]
  · rfl

theorem references_convert (e : Expr) (target : Ty) :
    (e.convert target).references = e.references := by
  apply convert_cases (motive := fun p => p.references = e.references)
  · rfl
  · exact references_promote e
  · intro p hp _ _
    rw [references, hp]

theorem references_castTo (e : Expr) (target : Ty) :
    (e.castTo target).references = e.references := by
  unfold castTo
  split
  · rfl
  · simp only [references]

theorem references_scale (e : Expr) (pointer : Ty) :
    (e.scale pointer).references = e.references := by
  simp [scale, references]

theorem referencesAll_promote : ∀ es : List Expr, referencesAll (es.map promote) = referencesAll es
  | [] => rfl
  | e :: es => by
      rw [List.map_cons, referencesAll, referencesAll, references_promote, referencesAll_promote es]

theorem referencesAll_convertArgs : ∀ (es : List Expr) (params : List Ty),
    referencesAll (Typing.convertArgs es params).1 = referencesAll es
  | [], _ => by simp only [Typing.convertArgs]
  | _ :: _, [] => by simp only [Typing.convertArgs]
  | e :: es, p :: params => by
      unfold Typing.convertArgs
      dsimp only
      split
      · rw [referencesAll, referencesAll, references_convert, referencesAll_convertArgs es params]
      · rw [referencesAll, referencesAll, references_convert]

end Expr

namespace Typing

open LittleC.Expr

/-! ## Rules -/

/-- A verdict refers to the same symbols whichever way the judge decides. -/
theorem references_judge {operands : List Ty} {legal : Bool} {result : Ty} {fault : CheckError}
    {node : Ty → Expr} {xs : List SymbolId} (hnode : ∀ ty, (node ty).references = xs) :
    (judge operands legal result fault node).node.references = xs := by
  unfold judge
  split_ifs <;> exact hnode _

section
variable (op : BinaryOp) (l r e : Expr)

theorem references_numeric : (numeric op l r).references = l.references ++ r.references := by
  simp only [numeric, references, references_extend]

theorem references_add : (add l r).node.references = l.references ++ r.references := by
  unfold add
  dsimp only
  split_ifs
  · simp only [references]
  · exact references_numeric .add l r
  · simp only [references, references_promote, references_scale, references_extend]
  · simp only [references, references_promote, references_scale, references_extend]
  · simp only [references]

theorem references_subtract : (subtract l r).node.references = l.references ++ r.references := by
  unfold subtract
  dsimp only
  split_ifs
  · simp only [references]
  · exact references_numeric .sub l r
  · simp only [distance, references, references_promote, List.append_nil]
  · simp only [references, references_promote, references_scale, references_extend]
  · simp only [references]

theorem references_binary : (binary op l r).node.references = l.references ++ r.references := by
  cases op with
  | add => exact references_add l r
  | sub => exact references_subtract l r
  | mul | div | rem | compare c =>
      apply references_judge
      intro ty
      simp only [references, references_extend]
  | land | lor =>
      apply references_judge
      intro ty
      simp only [references, references_promote]

theorem references_index : (index l r).node.references = l.references ++ r.references := by
  apply references_judge
  intro ty
  simp only [references, references_promote]
  congr 1
  split
  · rw [references_scale, references_extend]
  · exact references_extend r _

theorem references_logicalNot : (logicalNot e).node.references = e.references := by
  apply references_judge
  intro ty
  simp only [references, references_promote]

theorem references_negate : (negate e).node.references = e.references := by
  apply references_judge
  intro ty
  simp only [references, references_promote]

theorem references_deref : (deref e).node.references = e.references := by
  apply references_judge
  intro ty
  simp only [references, references_promote]

theorem references_address : (address e).node.references = e.references := by
  apply references_judge
  intro ty
  simp only [references]

theorem references_cast (target : Ty) : (cast target e).node.references = e.references := by
  unfold cast
  dsimp only
  split_ifs
  · rfl
  · rw [references_castTo, references_convert]
  · rw [references_castTo, references_promote]
  · simp only [references]

theorem references_call (ty : Ty) (f : SymbolId) (args : List Expr) :
    (call ty f args).node.references = f :: referencesAll args := by
  unfold call
  split
  · simp only [references]
  · dsimp only
    split_ifs
    · simp only [references, referencesAll_convertArgs]
    · simp only [references, referencesAll_convertArgs]
    · simp only [references]
  · simp only [references, referencesAll_promote]
  · simp only [references]
  · simp only [references]

end

/-- What a rule gives refers to what its operands refer to and to what it may name. -/
theorem Rule.references {t : SymbolTable} {known : SymbolId → Prop} {es : List Expr}
    {v : Verdict Expr} (hv : Rule t known es v) {x : SymbolId} (hx : x ∈ v.node.references) :
    known x ∨ ∃ e ∈ es, x ∈ e.references := by
  have hpair {l r : Expr} (hl : l ∈ es) (hr : r ∈ es) (hx : x ∈ l.references ++ r.references) :
      ∃ e ∈ es, x ∈ e.references := by
    rcases List.mem_append.mp hx with hx | hx
    · exact ⟨l, hl, hx⟩
    · exact ⟨r, hr, hx⟩
  cases hv with
  | ident hknown =>
      simp only [ofSymbol, Expr.references, List.mem_singleton] at hx
      exact .inl (hx ▸ hknown)
  | number | text =>
      simp only [ofInteger, ofText, Expr.references] at hx
      exact absurd hx List.not_mem_nil
  | sizeOf =>
      simp only [Typing.sizeOf, Expr.references] at hx
      exact absurd hx List.not_mem_nil
  | call hf hargs =>
      rw [references_call] at hx
      rcases List.mem_cons.mp hx with rfl | hx
      · exact .inl hf
      · obtain ⟨a, ha, hx⟩ := mem_referencesAll.mp hx
        exact .inr ⟨a, hargs a ha, hx⟩
  | index hl hr =>
      rw [references_index] at hx
      exact .inr (hpair hl hr hx)
  | binary op hl hr =>
      rw [references_binary] at hx
      exact .inr (hpair hl hr hx)
  | logicalNot he =>
      rw [references_logicalNot] at hx
      exact .inr ⟨_, he, hx⟩
  | negate he =>
      rw [references_negate] at hx
      exact .inr ⟨_, he, hx⟩
  | deref he =>
      rw [references_deref] at hx
      exact .inr ⟨_, he, hx⟩
  | address he =>
      rw [references_address] at hx
      exact .inr ⟨_, he, hx⟩
  | cast target he =>
      rw [references_cast] at hx
      exact .inr ⟨_, he, hx⟩
  | test he =>
      have hsame : x ∈ Expr.references _ := references_promote _ ▸ hx
      exact .inr ⟨_, he, hsame⟩

end Typing

end LittleC
