import LittleC.Tree.Stmt

/-! # Subexpressions

The nodes of a tree, and properties that hold at every one of them. -/

namespace LittleC

namespace Expr

mutual
/-- An expression and all nodes below it. -/
def subexprs : Expr → List Expr
  | e@(number ..) | e@(text ..) | e@(ident ..) => [e]
  | e@(call _ args _) => e :: subexprsAll args
  | e@(unary _ operand _) | e@(cast operand _) => e :: operand.subexprs
  | e@(binary _ left right _) => e :: (left.subexprs ++ right.subexprs)

def subexprsAll : List Expr → List Expr
  | [] => []
  | e :: es => e.subexprs ++ subexprsAll es
end

theorem mem_subexprsAll {n : Expr} : ∀ {es : List Expr},
    n ∈ subexprsAll es ↔ ∃ e ∈ es, n ∈ e.subexprs
  | [] => by simp [subexprsAll]
  | e :: es => by
      rw [subexprsAll, List.mem_append, mem_subexprsAll]
      simp

/-- The property holds at every node. -/
def Every (P : Expr → Prop) (e : Expr) : Prop := ∀ n ∈ e.subexprs, P n

section
variable {P : Expr → Prop}

theorem every_number {v : Int} {i : Info} : (number v i).Every P ↔ P (number v i) :=
  List.forall_mem_singleton

theorem every_text {s : String} {i : Info} : (text s i).Every P ↔ P (text s i) :=
  List.forall_mem_singleton

theorem every_ident {x : SymbolId} {i : Info} : (ident x i).Every P ↔ P (ident x i) :=
  List.forall_mem_singleton

theorem every_call {f : SymbolId} {args : List Expr} {i : Info} :
    (call f args i).Every P ↔ P (call f args i) ∧ ∀ a ∈ args, a.Every P := by
  refine List.forall_mem_cons.trans (and_congr_right fun _ => ⟨?_, ?_⟩)
  · intro h a ha n hn
    exact h n (mem_subexprsAll.mpr ⟨a, ha, hn⟩)
  · intro h n hn
    obtain ⟨a, ha, hn⟩ := mem_subexprsAll.mp hn
    exact h a ha n hn

theorem every_unary {op : UnaryOp} {e : Expr} {i : Info} :
    (unary op e i).Every P ↔ P (unary op e i) ∧ e.Every P := List.forall_mem_cons

theorem every_cast {e : Expr} {i : Info} : (cast e i).Every P ↔ P (cast e i) ∧ e.Every P :=
  List.forall_mem_cons

theorem every_binary {op : BinaryOp} {l r : Expr} {i : Info} :
    (binary op l r i).Every P ↔ P (binary op l r i) ∧ l.Every P ∧ r.Every P :=
  List.forall_mem_cons.trans (and_congr_right fun _ => List.forall_mem_append)

theorem self_mem_subexprs : ∀ e : Expr, e ∈ e.subexprs
  | number .. | text .. | ident .. | call .. | unary .. | cast .. | binary .. => List.mem_cons_self

/-- What holds at every node holds at the root. -/
theorem Every.root {e : Expr} (h : e.Every P) : P e := h e e.self_mem_subexprs

theorem Every.and {Q : Expr → Prop} {e : Expr} (hp : e.Every P) (hq : e.Every Q) :
    e.Every fun n => P n ∧ Q n := fun n hn => ⟨hp n hn, hq n hn⟩

theorem Every.imp {Q : Expr → Prop} {e : Expr} (h : e.Every P) (hpq : ∀ n, P n → Q n) :
    e.Every Q := fun n hn => hpq n (h n hn)

end

/-- What holds at every node holds at every node of every subexpression. -/
theorem Every.every {P : Expr → Prop} : ∀ {e : Expr}, e.Every P → e.Every fun n => n.Every P
  | number .., h => every_number.mpr h
  | text .., h => every_text.mpr h
  | ident .., h => every_ident.mpr h
  | call .., h => every_call.mpr ⟨h, fun a ha => Every.every ((every_call.mp h).2 a ha)⟩
  | unary .., h => every_unary.mpr ⟨h, Every.every (every_unary.mp h).2⟩
  | cast .., h => every_cast.mpr ⟨h, Every.every (every_cast.mp h).2⟩
  | binary .., h =>
      every_binary.mpr ⟨h, Every.every (every_binary.mp h).2.1, Every.every (every_binary.mp h).2.2⟩
termination_by e => SizeOf.sizeOf e

theorem anyError_eq_false_iff : ∀ {es : List Expr},
    anyError es = false ↔ ∀ e ∈ es, e.hasError = false
  | [] => by simp [anyError]
  | e :: es => by
      rw [anyError, Bool.or_eq_false_iff, anyError_eq_false_iff]
      simp

/-- A tree has no errors exactly when each of its nodes has a proper type. -/
theorem hasError_eq_false_iff : ∀ e : Expr,
    e.hasError = false ↔ e.Every fun n => n.ty.isError = false
  | number .. => (every_number (P := fun n => n.ty.isError = false)).symm
  | text .. => (every_text (P := fun n => n.ty.isError = false)).symm
  | ident .. => (every_ident (P := fun n => n.ty.isError = false)).symm
  | call f args i => by
      have hargs : (∀ a ∈ args, a.hasError = false) ↔
          ∀ a ∈ args, a.Every fun n => n.ty.isError = false :=
        forall₂_congr fun a _ => hasError_eq_false_iff a
      rw [hasError, Bool.or_eq_false_iff, anyError_eq_false_iff, hargs, every_call]
      rfl
  | unary op e i => by
      rw [hasError, Bool.or_eq_false_iff, hasError_eq_false_iff e, every_unary]
      rfl
  | cast e i => by
      rw [hasError, Bool.or_eq_false_iff, hasError_eq_false_iff e, every_cast]
      rfl
  | binary op l r i => by
      rw [hasError, Bool.or_eq_false_iff, Bool.or_eq_false_iff, hasError_eq_false_iff l,
        hasError_eq_false_iff r, every_binary, and_assoc]
      rfl
termination_by e => SizeOf.sizeOf e

end Expr

namespace Stmt

mutual
/-- The expressions that stand in a statement. -/
def exprs : Stmt → List Expr
  | expr e | ret e => [e]
  | assign target value => [target, value]
  | loop c body | ifThen c body => c :: body.exprs
  | ifElse c body other => c :: (body.exprs ++ other.exprs)
  | block _ body => exprsAll body

def exprsAll : List Stmt → List Expr
  | [] => []
  | s :: ss => s.exprs ++ exprsAll ss
end

theorem mem_exprsAll {e : Expr} : ∀ {ss : List Stmt},
    e ∈ exprsAll ss ↔ ∃ s ∈ ss, e ∈ s.exprs
  | [] => by simp [exprsAll]
  | s :: ss => by
      rw [exprsAll, List.mem_append, mem_exprsAll]
      simp

mutual
/-- A statement has no errors exactly when none of its expressions has. -/
theorem hasError_eq_false_iff : ∀ {s : Stmt},
    s.hasError = false ↔ ∀ e ∈ s.exprs, e.hasError = false
  | expr e | ret e => by simp [hasError, exprs]
  | assign target value => by simp [hasError, exprs]
  | loop c body | ifThen c body => by
      rw [hasError, Bool.or_eq_false_iff, hasError_eq_false_iff]
      simp [exprs]
  | ifElse c body other => by
      rw [hasError, Bool.or_eq_false_iff, Bool.or_eq_false_iff, hasError_eq_false_iff,
        hasError_eq_false_iff]
      simp only [exprs, List.forall_mem_cons, List.forall_mem_append, and_assoc]
  | block _ body => by rw [hasError, anyError_eq_false_iff_exprs, exprs]

theorem anyError_eq_false_iff_exprs : ∀ {ss : List Stmt},
    anyError ss = false ↔ ∀ e ∈ exprsAll ss, e.hasError = false
  | [] => by simp [anyError, exprsAll]
  | s :: ss => by
      rw [anyError, Bool.or_eq_false_iff, hasError_eq_false_iff, anyError_eq_false_iff_exprs,
        exprsAll, List.forall_mem_append]
end

theorem anyError_eq_false_iff {ss : List Stmt} :
    anyError ss = false ↔ ∀ s ∈ ss, s.hasError = false := by
  simp only [anyError_eq_false_iff_exprs, hasError_eq_false_iff, mem_exprsAll]
  exact ⟨fun h s hs e he => h e ⟨s, hs, he⟩, fun h e ⟨s, hs, he⟩ => h s hs e he⟩

end Stmt

end LittleC
