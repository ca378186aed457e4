import LittleC.Proofs.Outline.Statements

/-! # An outline determines its tree

Two functions have one outline exactly when they are alike. From left to right the tree is read off
the text; from right to left nothing else of a tree is in its outline. -/

namespace LittleC

section
variable {t u : SymbolTable}

/-! ## Trees that are alike have one outline -/

theorem Expr.Alike.headline {e e' : Expr} (h : e.Alike t u e') : e.headline t = e'.headline u := by
  cases h with
  | number _ hty | text _ hty | cast _ hty | unary _ _ hty | binary _ _ _ hty =>
      rw [Expr.headline, Expr.headline, Ty.text_eq_iff.mpr hty]
  | ident hname hty | call hname _ hty =>
      rw [Expr.headline, Expr.headline, hname, Ty.text_eq_iff.mpr hty]

mutual
theorem Expr.Alike.branches : ∀ {e e' : Expr}, e.Alike t u e' → e.branches t = e'.branches u
  | .number .., _, .number .. | .text .., _, .text .. | .ident .., _, .ident .. => rfl
  | .call .., _, .call _ hargs _ => Expr.branchesAll_of_alike hargs
  | .unary .., _, .unary _ he _ => by rw [Expr.branches, Expr.branches, he.headline, he.branches]
  | .cast .., _, .cast he _ => by rw [Expr.branches, Expr.branches, he.headline, he.branches]
  | .binary .., _, .binary _ hl hr _ => by
      rw [Expr.branches, Expr.branches, hl.headline, hl.branches, hr.headline, hr.branches]

theorem Expr.branchesAll_of_alike : ∀ {es es' : List Expr}, List.Forall₂ (Expr.Alike t u) es es' →
    Expr.branchesAll t es = Expr.branchesAll u es'
  | [], _, .nil => rfl
  | _ :: _, _, .cons he hes => by
      rw [Expr.branchesAll, Expr.branchesAll, he.headline, he.branches,
        Expr.branchesAll_of_alike hes]
end

theorem Expr.Alike.grow {e e' : Expr} (h : e.Alike t u e') (next : Forest) :
    e.grow t next = e'.grow u next := by
  rw [Expr.grow, Expr.grow, h.headline, h.branches]

theorem Symbol.growAll_of_shown (next : Forest) : ∀ {xs ys : List SymbolId},
    (xs.map fun x => (t.symbol x).shown) = (ys.map fun y => (u.symbol y).shown) →
    growAll t xs next = growAll u ys next
  | [], [], _ => rfl
  | x :: xs, y :: ys, h => by
      obtain ⟨hfirst, hrest⟩ := List.cons.inj h
      rw [growAll, growAll, declaration_of_shown hfirst, growAll_of_shown next hrest]

mutual
theorem Stmt.Alike.grow : ∀ {s s' : Stmt}, s.Alike t u s' → ∀ next : Forest,
    s.grow t next = s'.grow u next
  | .expr _, _, .expr he, next => he.grow next
  | .assign .., _, .assign htarget hvalue, next => by
      rw [Stmt.grow, Stmt.grow, hvalue.grow, htarget.grow]
  | .ret _, _, .ret he, next => by rw [Stmt.grow, Stmt.grow, he.grow]
  | .loop .., _, .loop hc hbody, next => by rw [Stmt.grow, Stmt.grow, hbody.grow, hc.grow]
  | .ifThen .., _, .ifThen hc hbody, next => by rw [Stmt.grow, Stmt.grow, hbody.grow, hc.grow]
  | .ifElse .., _, .ifElse hc hbody hother, next => by
      rw [Stmt.grow, Stmt.grow, hbody.grow, hc.grow, hother.grow]
  | .block .., _, .block hscope hbody, next => by
      rw [Stmt.grow, Stmt.grow, Stmt.growAll_of_alike hbody, Symbol.growAll_of_shown _ hscope]

theorem Stmt.growAll_of_alike : ∀ {ss ss' : List Stmt}, List.Forall₂ (Stmt.Alike t u) ss ss' →
    Stmt.growAll t ss = Stmt.growAll u ss'
  | [], _, .nil => rfl
  | _ :: _, _, .cons hs hss => by
      rw [Stmt.growAll, Stmt.growAll, Stmt.growAll_of_alike hss, hs.grow]
end

/-! ## Functions -/

namespace Function

def grow (t : SymbolTable) (f : Function) : Forest :=
  .cons (f.headline t) ((Stmt.block f.scope f.body).grow t .nil) .nil

theorem lines_grow (t : SymbolTable) (f : Function) : (f.grow t).lines 0 = f.outline t := by
  rw [grow, Forest.lines, Stmt.lines_grow]
  simp [Forest.lines, outline, Stmt.outline]

theorem headline_eq (t : SymbolTable) (f : Function) :
    f.headline t =
      Title.function.word ++ " " ++
        ((t.symbol f.symbol).name ++ " " ++ (t.symbol f.symbol).ty.text) := by
  simp [headline, Title.word, ← String.append_assoc]

theorem flush_grow (ht : t.Legible) {f : Function} (hf : ∀ s ∈ f.strings, Quoted s) :
    (f.grow t).All Flush := by
  have hblock : ∀ s ∈ (Stmt.block f.scope f.body).strings, Quoted s := hf
  refine ⟨?_, Stmt.flush_grow ht hblock trivial, trivial⟩
  have hpayload := unbroken_spaced (ht.symbol f.symbol).unbroken
    (t.symbol f.symbol).ty.unbroken_text
  rw [headline_eq]
  exact (Title.opens_append _ _).flush (unbroken_spaced (Title.unbroken_word _) hpayload)

theorem alike_of_grow (ht : t.Legible) (hu : u.Legible) {f g : Function}
    (hf : ∀ s ∈ f.strings, Quoted s) (hg : ∀ s ∈ g.strings, Quoted s) (h : f.grow t = g.grow u) :
    f.Alike t u g := by
  have hblock : ∀ s ∈ (Stmt.block f.scope f.body).strings, Quoted s := hf
  have hblock' : ∀ s ∈ (Stmt.block g.scope g.body).strings, Quoted s := hg
  obtain ⟨hhead, hbelow, -⟩ := Forest.cons.inj h
  rw [headline_eq, headline_eq, String.append_right_inj] at hhead
  obtain ⟨hname, hty⟩ := of_named (ht.symbol f.symbol) (hu.symbol g.symbol) hhead
  obtain ⟨hbody, -⟩ := Stmt.of_grow ht hu hblock hblock' (Forest.lacks_nil _) (Forest.lacks_nil _)
    hbelow
  exact ⟨hname, hty, hbody⟩

theorem Alike.grow {f g : Function} (h : f.Alike t u g) : f.grow t = g.grow u := by
  rw [Function.grow, Function.grow, Function.headline, Function.headline, h.name,
    Ty.text_eq_iff.mpr h.ty, h.body.grow]

/-- The text of an outline determines the tree. Where names have no blanks and literals end with a
quote and stand on one line, two functions have one outline exactly when they are alike. -/
theorem alike_iff_outline (ht : t.Legible) (hu : u.Legible) (f g : Function)
    (hf : ∀ s ∈ f.strings, Quoted s) (hg : ∀ s ∈ g.strings, Quoted s) :
    renderOutline (f.outline t) = renderOutline (g.outline u) ↔ f.Alike t u g := by
  constructor
  · intro h
    rw [← lines_grow, ← lines_grow] at h
    have hlines := eq_of_renderOutline (fun l => Forest.all_of_mem_lines (flush_grow ht hf))
      (fun l => Forest.all_of_mem_lines (flush_grow hu hg)) h
    obtain ⟨hgrow, -⟩ := Forest.eq_of_lines (Forest.above_nil 0) (Forest.above_nil 0)
      (congrArg (· ++ []) hlines)
    exact alike_of_grow ht hu hf hg hgrow
  · intro h
    rw [← lines_grow, ← lines_grow, h.grow]

/-- One tree over two tables has one outline, though its symbols and scopes are numbered
differently, only one of its functions has a list of parameters and only one of its names is a
place. The outline is another one where the `Else` belongs to the inner `If`. -/
theorem alike_iff_outline_nested :
    let int : Ty := .scalar .int 0
    let a : Symbol := ⟨"a", int, some (-4)⟩
    let t : SymbolTable := ⟨[.fresh "f" (.funcUnspecified .int 0), a],
      [⟨none, [("f", ⟨0⟩)], [⟨1⟩]⟩, ⟨some ⟨0⟩, [("a", ⟨1⟩)], []⟩], []⟩
    let u : SymbolTable := ⟨[a, .fresh "f" (.func .int 0 [])], [⟨none, [("a", ⟨0⟩)], []⟩], []⟩
    let call (f : SymbolId) : Stmt :=
      .expr (.call f [.text "\"Else @\"" (.value (.scalar .char 1))] (.value int))
    let other : Stmt := .ret (.number (-1) (.value int))
    let f : Function := ⟨⟨0⟩, ⟨1⟩,
      [.ifElse (.ident ⟨1⟩ (.place int)) (.ifThen (.ident ⟨1⟩ (.place int)) (call ⟨0⟩)) other]⟩
    let g : Function := ⟨⟨1⟩, ⟨0⟩,
      [.ifElse (.ident ⟨0⟩ (.value int)) (.ifThen (.ident ⟨0⟩ (.place int)) (call ⟨1⟩)) other]⟩
    let g' : Function := ⟨⟨1⟩, ⟨0⟩,
      [.ifThen (.ident ⟨0⟩ (.value int)) (.ifElse (.ident ⟨0⟩ (.place int)) (call ⟨1⟩) other)]⟩
    renderOutline (f.outline t) = renderOutline (g.outline u) ∧ f.Alike t u g ∧
      renderOutline (f.outline t) ≠ renderOutline (g'.outline u) := by
  intro int a t u call other f g g'
  have ht : t.Legible := by decide
  have hu : u.Legible := by decide
  have hliteral : ∀ s ∈ ["\"Else @\""], Quoted s := by decide
  have hsame : renderOutline (f.outline t) = renderOutline (g.outline u) := by
    have hlines : f.outline t = g.outline u := rfl
    rw [hlines]
  refine ⟨hsame, ?_, ?_⟩
  · exact (alike_iff_outline ht hu f g hliteral hliteral).mp hsame
  · intro h
    have halike : f.Alike t u g' := (alike_iff_outline ht hu f g' hliteral hliteral).mp h
    cases halike.body with
    | block _ hbody => cases hbody with
      | cons hfirst _ => cases hfirst

end Function

end

end LittleC
