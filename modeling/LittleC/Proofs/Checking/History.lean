import LittleC.Proofs.Checking.Names
import LittleC.Proofs.Checking.Serving
import LittleC.Proofs.Checking.Session
import LittleC.Proofs.Symbols.Sound
import LittleC.Proofs.Typing.References

/-! # Trees and their symbols over time

The table changes while trees refer to its symbols: names are bound anew, scopes open and close,
frames are laid out. No change takes a symbol away or gives it another name or type, so every tree
stays what the rules would make of it. -/

namespace LittleC

open Typing (Rule StmtRule)

namespace SymbolTable

/-- The symbols of a table are still there, each with its name and type. -/
structure Retains (t u : SymbolTable) : Prop where
  length : t.entries.length ≤ u.entries.length
  name : ∀ x, t.Has x → (u.symbol x).name = (t.symbol x).name
  ty : ∀ x, t.Has x → (u.symbol x).ty = (t.symbol x).ty

section
variable {t u v : SymbolTable} {q : Request}

theorem Retains.refl (t : SymbolTable) : t.Retains t :=
  ⟨Nat.le_refl _, fun _ _ => rfl, fun _ _ => rfl⟩

theorem Retains.has (h : t.Retains u) {x : SymbolId} (hx : t.Has x) : u.Has x :=
  Nat.lt_of_lt_of_le hx h.length

theorem Retains.trans (h : t.Retains u) (h' : u.Retains v) : t.Retains v where
  length := Nat.le_trans h.length h'.length
  name x hx := (h'.name x (h.has hx)).trans (h.name x hx)
  ty x hx := (h'.ty x (h.has hx)).trans (h.ty x hx)

theorem retains_of_prefix (h : t.entries <+: u.entries) : t.Retains u := by
  have hsame : ∀ x, t.Has x → u.symbol x = t.symbol x := fun x hx => symbol_of_prefix h hx
  refine ⟨h.length_le, ?_, ?_⟩
  · intro x hx
    rw [hsame x hx]
  · intro x hx
    rw [hsame x hx]

theorem retains_allocate (t : SymbolTable) (f : Function) : t.Retains (t.allocate f).2 where
  length := Nat.le_of_eq (t.length_settleAll _).symm
  name x _ := t.name_settleAll _ x
  ty x _ := t.ty_allocate f x

/-! ## Changes that only add symbols -/

theorem entries_withFile (t : SymbolTable) : t.withFile.entries = t.entries := by
  unfold withFile
  split
  · exact t.entries_openScope
  · rfl

theorem prefix_insert (t : SymbolTable) (s : Symbol) : t.entries <+: (t.insert s).2.entries := by
  unfold insert
  split
  · exact List.prefix_append ..
  · rw [← t.entries_openScope]
    exact List.prefix_append ..

theorem Serves.entries (h : t.Serves q u) : t.entries <+: u.entries := by
  cases h with
  | line | closeScope | rebind | known | expr | stmt | function => exact List.prefix_rfl
  | openScope => exact (entries_openScope t).symm ▸ List.prefix_rfl
  | define | declare =>
      rw [← t.entries_withFile]
      exact List.prefix_append ..
  | redeclare => exact t.entries_withFile.symm ▸ List.prefix_rfl
  | bind | unknown => exact t.prefix_insert _

end

end SymbolTable

namespace Expr

/-- A tree that the rules give over the symbols that the table has. -/
inductive Grounded (t : SymbolTable) : Expr → Prop where
  | rule {es : List Expr} {v : Verdict Expr} (hes : ∀ e ∈ es, Grounded t e)
      (hv : Rule t t.Has es v) : Grounded t v.node
  /-- The value that an assignment stores or a return gives. -/
  | converted {e : Expr} (target : Ty) (he : Grounded t e) : Grounded t (e.convert target)

/-- A tree all of whose symbols the table has, with the types that they were checked with. -/
structure Valid (t : SymbolTable) (e : Expr) : Prop where
  has : ∀ x ∈ e.references, t.Has x
  typed : e.Every fun n => ∀ x i, n = ident x i → i.ty = (t.symbol x).ty
  /-- The rules would give the same tree now. -/
  grounded : e.Grounded t

section
variable {t u : SymbolTable} {e : Expr}

theorem Grounded.promote (he : e.Grounded t) : e.promote.Grounded t :=
  .rule (v := Typing.test e) (List.forall_mem_singleton.mpr he) (.test List.mem_cons_self)

/-- A symbol of the earlier table is checked as before. -/
theorem rule_of_retains (h : t.Retains u) {es : List Expr} {v : Verdict Expr}
    (hv : Rule t t.Has es v) : Rule u u.Has es v :=
  hv.of_types (fun _ hx => h.has hx) fun x hx => (h.ty x hx).symm

theorem Grounded.retains (he : e.Grounded t) (h : t.Retains u) : e.Grounded u := by
  induction he with
  | rule _ hv ih => exact .rule ih (rule_of_retains h hv)
  | converted target _ ih => exact .converted target ih

theorem Grounded.has (he : e.Grounded t) : ∀ x ∈ e.references, t.Has x := by
  induction he with
  | rule _ hv ih =>
      intro x hx
      rcases hv.references hx with hx | ⟨e, he, hx⟩
      · exact hx
      · exact ih e he x hx
  | converted target _ ih =>
      intro x hx
      rw [references_convert] at hx
      exact ih x hx

theorem Grounded.typed (he : e.Grounded t) :
    e.Every fun n => ∀ x i, n = ident x i → i.ty = (t.symbol x).ty := by
  have hkept := kept_ident fun x i => i.ty = (t.symbol x).ty
  induction he with
  | rule _ hv ih =>
      refine hv.every hkept ?_ ih
      intro x _ y i heq
      cases heq
      rfl
  | converted target _ ih => exact hkept.every_convert ih target

theorem Grounded.valid (he : e.Grounded t) : e.Valid t := ⟨he.has, he.typed, he⟩

end

end Expr

/-! ## Commands -/

/-- What can be done to a checker and its table: to ask for something, to add a symbol to the
innermost scope or to any other, and to lay out the frame of a function. -/
inductive Command where
  | request (q : Request)
  | insert (s : Symbol)
  | insertIn (scope : ScopeId) (s : Symbol)
  | replaceIn (scope : ScopeId) (s : Symbol)
  | allocate (f : Function)

namespace Command

def exprs : Command → List Expr
  | .request q => q.exprs
  | _ => []

def stmts : Command → List Stmt
  | .request q => q.stmts
  | _ => []

def functions : Command → List Function
  | .request (.function symbol scope body) => [⟨symbol, scope, body⟩]
  | _ => []

end Command

def Checker.perform (c : Checker) : Command → Checker
  | .request q => c.serve q
  | .insert s => (c.insert s).2
  | .insertIn scope s => (c.insertIn scope s).2
  | .replaceIn scope s => (c.replaceIn scope s).2
  | .allocate f => { c with symbols := (c.symbols.allocate f).2 }

/-- A checker and all trees and functions that it has given so far. -/
structure Archive where
  checker : Checker
  exprs : List Expr
  stmts : List Stmt
  functions : List Function

namespace Archive

def empty : Archive := ⟨.empty, [], [], []⟩

def table (a : Archive) : SymbolTable := a.checker.symbols

/-- Verdicts come from rules over the symbols of the table and the trees given so far. -/
def Allows (a : Archive) : Command → Prop
  | .request (.expr v) => Rule a.table a.table.Has a.exprs v
  | .request (.stmt v) => StmtRule (a.checker.returnType.getD .error) a.exprs a.stmts v
  | .request (.function symbol _ body) => a.table.Has symbol ∧ ∀ s ∈ body, s ∈ a.stmts
  | _ => True

def perform (a : Archive) (cmd : Command) : Archive :=
  ⟨a.checker.perform cmd, cmd.exprs ++ a.exprs, cmd.stmts ++ a.stmts, cmd.functions ++ a.functions⟩

/-- Commands one after the other. -/
inductive History : Archive → List Command → Archive → Prop where
  | nil (a : Archive) : History a [] a
  | cons {a b : Archive} {cmd : Command} {cmds : List Command} (hcmd : a.Allows cmd)
      (hrest : History (a.perform cmd) cmds b) : History a (cmd :: cmds) b

/-- Everything that was given is still sound. -/
structure Valid (a : Archive) : Prop where
  reachable : a.table.Reachable
  exprs : ∀ e ∈ a.exprs, e.Grounded a.table
  stmts : ∀ s ∈ a.stmts, ∀ e ∈ s.exprs, e.Grounded a.table
  functions : ∀ f ∈ a.functions, a.table.Has f.symbol

section
variable {a b : Archive} {cmd : Command} {cmds : List Command}

/-! ## One command -/

theorem reachable_perform (h : a.table.Reachable) (cmd : Command) :
    (a.perform cmd).table.Reachable := by
  cases cmd with
  | request q => exact (a.checker.serves_serve q).reachable h
  | insert s => exact h.insert s
  | insertIn scope s => exact h.insertIn scope s
  | replaceIn scope s => exact h.replaceIn scope s
  | allocate f => exact h.allocate f

/-- Only the layout of a frame changes symbols that there are. -/
theorem entries_perform (a : Archive) (hcmd : ∀ f, cmd ≠ .allocate f) :
    a.table.entries <+: (a.perform cmd).table.entries := by
  cases cmd with
  | request q => exact (a.checker.serves_serve q).entries
  | insert s => exact a.table.prefix_insert s
  | insertIn scope s => exact List.prefix_append ..
  | replaceIn scope s => exact List.prefix_append ..
  | allocate f => exact absurd rfl (hcmd f)

theorem retains_perform (a : Archive) (cmd : Command) : a.table.Retains (a.perform cmd).table := by
  by_cases hcmd : ∀ f, cmd ≠ .allocate f
  · exact SymbolTable.retains_of_prefix (a.entries_perform hcmd)
  · obtain ⟨f, hf⟩ := Classical.not_forall.mp hcmd
    obtain rfl := Classical.not_not.mp hf
    exact a.table.retains_allocate f

theorem Valid.perform (h : a.Valid) (hcmd : a.Allows cmd) : (a.perform cmd).Valid := by
  have hretains := a.retains_perform cmd
  have hexprs : ∀ e ∈ a.exprs, e.Grounded (a.perform cmd).table := fun e he =>
    (h.exprs e he).retains hretains
  have hstmts : ∀ s ∈ a.stmts, ∀ e ∈ s.exprs, e.Grounded (a.perform cmd).table := fun s hs e he =>
    (h.stmts s hs e he).retains hretains
  have hfunctions : ∀ f ∈ a.functions, (a.perform cmd).table.Has f.symbol := fun f hf =>
    hretains.has (h.functions f hf)
  refine ⟨reachable_perform h.reachable cmd, List.forall_mem_append.mpr ⟨?_, hexprs⟩,
    List.forall_mem_append.mpr ⟨?_, hstmts⟩, List.forall_mem_append.mpr ⟨?_, hfunctions⟩⟩
  -- What is new comes from a rule over what was there.
  · cases cmd with
    | request q =>
        cases q with
        | expr v =>
            refine List.forall_mem_singleton.mpr (.rule hexprs ?_)
            exact Expr.rule_of_retains hretains hcmd
        | _ => exact fun _ he => absurd he List.not_mem_nil
    | _ => exact fun _ he => absurd he List.not_mem_nil
  · cases cmd with
    | request q =>
        cases q with
        | stmt v =>
            refine List.forall_mem_singleton.mpr ?_
            have hrule : StmtRule _ a.exprs a.stmts v := hcmd
            exact hrule.forall_exprs (fun _ => .promote) (fun _ target => .converted target)
              hexprs hstmts
        | _ => exact fun _ hs => absurd hs List.not_mem_nil
    | _ => exact fun _ hs => absurd hs List.not_mem_nil
  · cases cmd with
    | request q =>
        cases q with
        | function symbol scope body =>
            exact List.forall_mem_singleton.mpr (hretains.has hcmd.1)
        | _ => exact fun _ hf => absurd hf List.not_mem_nil
    | _ => exact fun _ hf => absurd hf List.not_mem_nil

/-! ## Commands in a row -/

theorem History.valid (h : History a cmds b) (ha : a.Valid) : b.Valid := by
  induction h with
  | nil => exact ha
  | cons hcmd _ ih => exact ih (ha.perform hcmd)

theorem History.retains (h : History a cmds b) : a.table.Retains b.table := by
  induction h with
  | nil => exact .refl _
  | @cons a b cmd cmds _ _ ih => exact (a.retains_perform cmd).trans ih

theorem History.entries (h : History a cmds b) (hcmds : ∀ f, .allocate f ∉ cmds) :
    a.table.entries <+: b.table.entries := by
  induction h with
  | nil => exact List.prefix_rfl
  | @cons a b cmd cmds _ _ ih =>
      have hfirst : ∀ f, cmd ≠ .allocate f := fun f heq => hcmds f (heq ▸ List.mem_cons_self)
      exact (a.entries_perform hfirst).trans (ih fun f hf => hcmds f (List.mem_cons_of_mem _ hf))

/-- Nothing that was given is taken back. -/
theorem History.subset (h : History a cmds b) :
    a.exprs ⊆ b.exprs ∧ a.stmts ⊆ b.stmts ∧ a.functions ⊆ b.functions := by
  induction h with
  | nil => exact ⟨List.Subset.refl _, List.Subset.refl _, List.Subset.refl _⟩
  | cons _ _ ih =>
      obtain ⟨hexprs, hstmts, hfunctions⟩ := ih
      exact ⟨List.Subset.trans (List.subset_append_right ..) hexprs,
        List.Subset.trans (List.subset_append_right ..) hstmts,
        List.Subset.trans (List.subset_append_right ..) hfunctions⟩

theorem valid_empty : Archive.empty.Valid where
  reachable := .empty
  exprs _ he := absurd he List.not_mem_nil
  stmts _ hs := absurd hs List.not_mem_nil
  functions _ hf := absurd hf List.not_mem_nil

/-- After any commands the table is sound, and all trees have their symbols in it, with the types
that they were checked with. However it goes on, symbols keep their names and types, and nothing but
the layout of a frame changes them at all. -/
theorem symbols_kept (h : History .empty cmds a) :
    a.table.Sound ∧
    (∀ e ∈ a.exprs, e.Valid a.table) ∧
    (∀ s ∈ a.stmts, ∀ e ∈ s.exprs, e.Valid a.table) ∧
    (∀ f ∈ a.functions, a.table.Has f.symbol) ∧
    ∀ later b, History a later b →
      (a.exprs ⊆ b.exprs ∧ a.stmts ⊆ b.stmts ∧ a.functions ⊆ b.functions) ∧
      a.table.Retains b.table ∧
      ((∀ f, .allocate f ∉ later) → a.table.entries <+: b.table.entries) := by
  have hvalid := h.valid valid_empty
  refine ⟨hvalid.reachable.sound, fun e he => (hvalid.exprs e he).valid,
    fun s hs e he => (hvalid.stmts s hs e he).valid, hvalid.functions, ?_⟩
  intro later b hlater
  exact ⟨hlater.subset, hlater.retains, hlater.entries⟩

end

/-- The variable of a tree stays an `int` when its name is bound to a `char`, when no scope is open
any more, and when a frame is laid out. -/
theorem symbols_kept_rebound :
    let x : Expr := .ident ⟨0⟩ (.place .int)
    let early : List Command :=
      [.request .openScope, .request (.declareVariable "x" .int), .request (.expr ⟨x, none⟩)]
    let later : List Command := [.replaceIn ⟨0⟩ (.fresh "x" .char), .request .closeScope,
      .insert (.fresh "y" .int), .allocate ⟨⟨2⟩, ⟨1⟩, []⟩]
    let a := early.foldl perform .empty
    let b := later.foldl perform a
    History .empty early a ∧ History a later b ∧ a.table.findIn? ⟨0⟩ "x" = some ⟨0⟩ ∧
      b.table.findIn? ⟨0⟩ "x" = some ⟨1⟩ ∧ a.table.Sound ∧ x.Valid a.table ∧
      a.table.Retains b.table ∧ (b.table.symbol ⟨0⟩).ty = .int := by
  intro x early later a b
  let declared : Archive := (early.take 2).foldl perform .empty
  have hdeclared : declared.table.Has ⟨0⟩ := Nat.one_pos
  have hx : Rule declared.table declared.table.Has [] ⟨x, none⟩ := .ident hdeclared
  have hearly : History .empty early a := .cons trivial (.cons trivial (.cons hx (.nil a)))
  have hlater : History a later b :=
    .cons trivial (.cons trivial (.cons trivial (.cons trivial (.nil b))))
  obtain ⟨hsound, hexprs, -, -, hkept⟩ := symbols_kept hearly
  obtain ⟨-, hretains, -⟩ := hkept later b hlater
  have hrebound : b.table.findIn? ⟨0⟩ "x" = some ⟨1⟩ := by
    have hscopes : b.table.scopes = ((later.take 3).foldl perform a).table.scopes :=
      SymbolTable.scopes_allocate _ _
    rw [SymbolTable.findIn?, SymbolTable.scope, hscopes]
    rfl
  exact ⟨hearly, hlater, rfl, hrebound, hsound, hexprs x List.mem_cons_self, hretains,
    hretains.ty ⟨0⟩ Nat.one_pos⟩

end Archive

end LittleC
