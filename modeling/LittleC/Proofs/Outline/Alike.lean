import LittleC.Proofs.Labels.Strings
import LittleC.Proofs.Outline.Headline
import Mathlib.Data.List.Forall2

/-! # Trees of one outline

What an outline tells of a function: every node with its operands and its type, which branch an
`Else` belongs to, where each statement ends, and what each block declares. Symbols are known by
their names and scopes by what they declare, and it stays open which places are lvalues and which
empty parameter lists are unspecified. -/

namespace LittleC

/-! ## Trees that are told apart -/

/-- Two expressions over two tables are the same in all but lvalues, in which symbols bear the
names, and in which empty parameter lists are unspecified. -/
inductive Expr.Alike (t u : SymbolTable) : Expr → Expr → Prop where
  | number (v : Int) {i j : Expr.Info} (hty : i.ty.emptied = j.ty.emptied) :
      Alike t u (.number v i) (.number v j)
  | text (s : String) {i j : Expr.Info} (hty : i.ty.emptied = j.ty.emptied) :
      Alike t u (.text s i) (.text s j)
  | ident {x y : SymbolId} {i j : Expr.Info} (hname : (t.symbol x).name = (u.symbol y).name)
      (hty : i.ty.emptied = j.ty.emptied) : Alike t u (.ident x i) (.ident y j)
  | call {x y : SymbolId} {args args' : List Expr} {i j : Expr.Info}
      (hname : (t.symbol x).name = (u.symbol y).name) (hargs : List.Forall₂ (Alike t u) args args')
      (hty : i.ty.emptied = j.ty.emptied) : Alike t u (.call x args i) (.call y args' j)
  | unary (op : UnaryOp) {e e' : Expr} {i j : Expr.Info} (he : Alike t u e e')
      (hty : i.ty.emptied = j.ty.emptied) : Alike t u (.unary op e i) (.unary op e' j)
  | cast {e e' : Expr} {i j : Expr.Info} (he : Alike t u e e')
      (hty : i.ty.emptied = j.ty.emptied) : Alike t u (.cast e i) (.cast e' j)
  | binary (op : BinaryOp) {l r l' r' : Expr} {i j : Expr.Info} (hl : Alike t u l l')
      (hr : Alike t u r r') (hty : i.ty.emptied = j.ty.emptied) :
      Alike t u (.binary op l r i) (.binary op l' r' j)

/-- A declared name with its type and its place in the frame. -/
def Symbol.shown (s : Symbol) : String × Ty × Option Int := (s.name, s.ty.emptied, s.offset)

/-- What a scope declares, in order. -/
def SymbolTable.declared (t : SymbolTable) (scope : ScopeId) : List (String × Ty × Option Int) :=
  (t.symbols scope).map fun x => (t.symbol x).shown

inductive Stmt.Alike (t u : SymbolTable) : Stmt → Stmt → Prop where
  | expr {e e' : Expr} (he : e.Alike t u e') : Alike t u (.expr e) (.expr e')
  | assign {target value target' value' : Expr} (htarget : target.Alike t u target')
      (hvalue : value.Alike t u value') : Alike t u (.assign target value) (.assign target' value')
  | ret {e e' : Expr} (he : e.Alike t u e') : Alike t u (.ret e) (.ret e')
  | loop {c c' : Expr} {body body' : Stmt} (hc : c.Alike t u c') (hbody : Alike t u body body') :
      Alike t u (.loop c body) (.loop c' body')
  | ifThen {c c' : Expr} {body body' : Stmt} (hc : c.Alike t u c') (hbody : Alike t u body body') :
      Alike t u (.ifThen c body) (.ifThen c' body')
  | ifElse {c c' : Expr} {body other body' other' : Stmt} (hc : c.Alike t u c')
      (hbody : Alike t u body body') (hother : Alike t u other other') :
      Alike t u (.ifElse c body other) (.ifElse c' body' other')
  | block {scope scope' : ScopeId} {body body' : List Stmt}
      (hscope : t.declared scope = u.declared scope')
      (hbody : List.Forall₂ (Alike t u) body body') :
      Alike t u (.block scope body) (.block scope' body')

/-- Two functions have one name and one type, and their bodies are alike. -/
structure Function.Alike (t u : SymbolTable) (f g : Function) : Prop where
  name : (t.symbol f.symbol).name = (u.symbol g.symbol).name
  ty : (t.symbol f.symbol).ty.emptied = (u.symbol g.symbol).ty.emptied
  body : (Stmt.block f.scope f.body).Alike t u (.block g.scope g.body)

/-! ## Names and literals -/

/-- All names in the table can be told from what stands around them. -/
def SymbolTable.Legible (t : SymbolTable) : Prop := ∀ s ∈ t.entries, Unspaced s.name

instance (t : SymbolTable) : Decidable t.Legible :=
  inferInstanceAs (Decidable (∀ s ∈ t.entries, Unspaced s.name))

theorem SymbolTable.Legible.symbol {t : SymbolTable} (h : t.Legible) (x : SymbolId) :
    Unspaced (t.symbol x).name := by
  rw [SymbolTable.symbol, List.getD_eq_getElem?_getD]
  cases hentry : t.entries[x.index]? with
  | none => rintro c ⟨⟩
  | some s => exact h s (List.mem_of_getElem? hentry)

theorem Ty.unbroken_text (t : Ty) : Unbroken t.text := t.not_mem_text (by decide)

section
variable {a b : String} {p q : Ty}

/-- A name and a type behind it are told apart. -/
theorem of_named (ha : Unspaced a) (hb : Unspaced b) (h : a ++ " " ++ p.text = b ++ " " ++ q.text) :
    a = b ∧ p.emptied = q.emptied := by
  obtain ⟨hname, hty⟩ := append_inj_of_blank ha.not_blank hb.not_blank h
  exact ⟨hname, Ty.text_eq_iff.mp hty⟩

theorem of_numbered {v w : Int}
    (h : toString v ++ " " ++ p.text = toString w ++ " " ++ q.text) :
    v = w ∧ p.emptied = q.emptied := by
  have hblank (n : Int) : ' ' ∉ (toString n).toList := by
    intro hmem
    rcases isDigit_of_mem_intText hmem with h | h
    · exact absurd h (by decide)
    · exact absurd h (by decide)
  obtain ⟨hnumber, hty⟩ := append_inj_of_blank (hblank v) (hblank w) h
  exact ⟨intText_injective (congrArg String.toList hnumber), Ty.text_eq_iff.mp hty⟩

theorem of_quoted (ha : Quoted a) (hb : Quoted b) (h : a ++ " " ++ p.text = b ++ " " ++ q.text) :
    a = b ∧ p.emptied = q.emptied := by
  have hquote (t : Ty) : '"' ∉ t.text.toList := t.not_mem_text (by decide)
  obtain ⟨hliteral, hty⟩ := append_inj_of_quote ha hb (hquote p) (hquote q) h
  exact ⟨hliteral, Ty.text_eq_iff.mp hty⟩

end

/-! ## Expressions -/

namespace Expr

def title : Expr → Title
  | number .. => .number
  | text .. => .text
  | ident .. => .ident
  | call .. => .call
  | unary op .. => .unary op
  | cast .. => .cast
  | binary op .. => .binary op

/-- What stands behind the title of an expression. -/
def payload (t : SymbolTable) : Expr → String
  | number v i => toString v ++ " " ++ i.ty.text
  | text s i => s ++ " " ++ i.ty.text
  | ident x i | call x _ i => (t.symbol x).name ++ " " ++ i.ty.text
  | unary _ _ i | cast _ i | binary _ _ _ i => i.ty.text

theorem headline_eq (t : SymbolTable) (e : Expr) :
    e.headline t = (LittleC.Title.node e.title).word ++ " " ++ e.payload t := by
  cases e with
  | unary | binary => rfl
  | _ => simp [headline, title, payload, LittleC.Title.word, Title.word, ← String.append_assoc]

mutual
/-- What an outline shows below an expression. -/
def branches (t : SymbolTable) : Expr → Forest
  | number .. | text .. | ident .. => .nil
  | call _ args _ => branchesAll t args
  | unary _ e _ | cast e _ => .cons (e.headline t) (e.branches t) .nil
  | binary _ l r _ => .cons (l.headline t) (l.branches t) (.cons (r.headline t) (r.branches t) .nil)

def branchesAll (t : SymbolTable) : List Expr → Forest
  | [] => .nil
  | e :: es => .cons (e.headline t) (e.branches t) (branchesAll t es)
end

mutual
theorem outline_eq (t : SymbolTable) : ∀ (e : Expr) (depth : Nat),
    e.outline t depth = ⟨depth, e.headline t⟩ :: (e.branches t).lines (depth + 1)
  | number .., _ | text .., _ | ident .., _ => rfl
  | call f args i, depth => by rw [outline, branches, outlineAll_eq t args]
  | unary op e i, depth => by
      rw [outline, branches, outline_eq t e, Forest.lines]
      simp [Forest.lines]
  | cast e i, depth => by
      rw [outline, branches, outline_eq t e, Forest.lines]
      simp [Forest.lines]
  | binary op l r i, depth => by
      rw [outline, branches, outline_eq t l, outline_eq t r]
      simp [Forest.lines]

theorem outlineAll_eq (t : SymbolTable) : ∀ (es : List Expr) (depth : Nat),
    outlineAll t depth es = (branchesAll t es).lines depth
  | [], _ => rfl
  | e :: es, depth => by
      rw [outlineAll, branchesAll, Forest.lines, outline_eq t e, outlineAll_eq t es,
        List.cons_append]
end

theorem opens_headline (t : SymbolTable) (e : Expr) :
    (LittleC.Title.node e.title).Opens (e.headline t) := by
  rw [headline_eq]
  exact LittleC.Title.opens_append _ _

section
variable {t u : SymbolTable}

theorem flush_headline (ht : t.Legible) {e : Expr} (he : ∀ s ∈ e.strings, Quoted s) :
    Flush (e.headline t) := by
  have hpayload : Unbroken (e.payload t) := by
    cases e with
    | number v i => exact unbroken_spaced (unbroken_int v) i.ty.unbroken_text
    | text s i => exact unbroken_spaced (he s (List.mem_singleton_self s)).2 i.ty.unbroken_text
    | ident x i | call x _ i => exact unbroken_spaced (ht.symbol x).unbroken i.ty.unbroken_text
    | unary _ _ i | cast _ i | binary _ _ _ i => exact i.ty.unbroken_text
  refine (opens_headline t e).flush ?_
  rw [headline_eq]
  exact unbroken_spaced (LittleC.Title.unbroken_word _) hpayload

mutual
theorem flush_branches (ht : t.Legible) : ∀ {e : Expr}, (∀ s ∈ e.strings, Quoted s) →
    (e.branches t).All Flush
  | number .., _ | text .., _ | ident .., _ => trivial
  | call _ args _, he => flush_branchesAll ht he
  | unary _ e _, he | cast e _, he => ⟨flush_headline ht he, flush_branches ht he, trivial⟩
  | binary _ l r _, he => by
      rw [strings, List.forall_mem_append] at he
      exact ⟨flush_headline ht he.1, flush_branches ht he.1, flush_headline ht he.2,
        flush_branches ht he.2, trivial⟩

theorem flush_branchesAll (ht : t.Legible) : ∀ {es : List Expr}, (∀ s ∈ stringsAll es, Quoted s) →
    (branchesAll t es).All Flush
  | [], _ => trivial
  | e :: es, hes => by
      rw [stringsAll, List.forall_mem_append] at hes
      exact ⟨flush_headline ht hes.1, flush_branches ht hes.1, flush_branchesAll ht hes.2⟩
end

theorem of_headline {e e' : Expr} (h : e.headline t = e'.headline u) :
    e.title = e'.title ∧ e.payload t = e'.payload u := by
  have htitle : e.title = e'.title := by
    have hopens := opens_headline u e'
    rw [← h] at hopens
    exact LittleC.Title.node.inj ((opens_headline t e).unique hopens)
  rw [headline_eq, headline_eq, htitle] at h
  exact ⟨htitle, String.append_right_inj _ |>.mp h⟩

mutual
/-- An expression is read off its line and what stands below. -/
theorem alike_of_headline (ht : t.Legible) (hu : u.Legible) : ∀ {e e' : Expr},
    (∀ s ∈ e.strings, Quoted s) → (∀ s ∈ e'.strings, Quoted s) → e.headline t = e'.headline u →
    e.branches t = e'.branches u → e.Alike t u e'
  | number v i, e', _, _, h, _ => by
      obtain ⟨htitle, hpayload⟩ := of_headline h
      cases e' with
      | number w j =>
          obtain ⟨rfl, hty⟩ := of_numbered hpayload
          exact .number v hty
      | _ => cases htitle
  | text s i, e', he, he', h, _ => by
      obtain ⟨htitle, hpayload⟩ := of_headline h
      cases e' with
      | text s' j =>
          obtain ⟨rfl, hty⟩ := of_quoted (he s (List.mem_singleton_self s))
            (he' s' (List.mem_singleton_self s')) hpayload
          exact .text s hty
      | _ => cases htitle
  | ident x i, e', _, _, h, _ => by
      obtain ⟨htitle, hpayload⟩ := of_headline h
      cases e' with
      | ident y j =>
          obtain ⟨hname, hty⟩ := of_named (ht.symbol x) (hu.symbol y) hpayload
          exact .ident hname hty
      | _ => cases htitle
  | call x args i, e', he, he', h, hbranches => by
      obtain ⟨htitle, hpayload⟩ := of_headline h
      cases e' with
      | call y args' j =>
          obtain ⟨hname, hty⟩ := of_named (ht.symbol x) (hu.symbol y) hpayload
          exact .call hname (alike_of_branchesAll ht hu he he' hbranches) hty
      | _ => cases htitle
  | unary op e i, e', he, he', h, hbranches => by
      obtain ⟨htitle, hpayload⟩ := of_headline h
      cases e' with
      | unary op' e' j =>
          cases htitle
          obtain ⟨hhead, hbelow, -⟩ := Forest.cons.inj hbranches
          exact .unary op (alike_of_headline ht hu he he' hhead hbelow) (Ty.text_eq_iff.mp hpayload)
      | _ => cases htitle
  | cast e i, e', he, he', h, hbranches => by
      obtain ⟨htitle, hpayload⟩ := of_headline h
      cases e' with
      | cast e' j =>
          obtain ⟨hhead, hbelow, -⟩ := Forest.cons.inj hbranches
          exact .cast (alike_of_headline ht hu he he' hhead hbelow) (Ty.text_eq_iff.mp hpayload)
      | _ => cases htitle
  | binary op l r i, e', he, he', h, hbranches => by
      obtain ⟨htitle, hpayload⟩ := of_headline h
      cases e' with
      | binary op' l' r' j =>
          cases htitle
          rw [strings, List.forall_mem_append] at he he'
          obtain ⟨hhead, hbelow, hnext⟩ := Forest.cons.inj hbranches
          obtain ⟨hhead', hbelow', -⟩ := Forest.cons.inj hnext
          exact .binary op (alike_of_headline ht hu he.1 he'.1 hhead hbelow)
            (alike_of_headline ht hu he.2 he'.2 hhead' hbelow') (Ty.text_eq_iff.mp hpayload)
      | _ => cases htitle

theorem alike_of_branchesAll (ht : t.Legible) (hu : u.Legible) : ∀ {es es' : List Expr},
    (∀ s ∈ stringsAll es, Quoted s) → (∀ s ∈ stringsAll es', Quoted s) →
    branchesAll t es = branchesAll u es' → List.Forall₂ (Alike t u) es es'
  | [], [], _, _, _ => .nil
  | [], e' :: es', _, _, h => by cases h
  | e :: es, [], _, _, h => by cases h
  | e :: es, e' :: es', hes, hes', h => by
      rw [stringsAll, List.forall_mem_append] at hes hes'
      obtain ⟨hhead, hbelow, hnext⟩ := Forest.cons.inj h
      exact .cons (alike_of_headline ht hu hes.1 hes'.1 hhead hbelow)
        (alike_of_branchesAll ht hu hes.2 hes'.2 hnext)
end

end

end Expr

end LittleC
