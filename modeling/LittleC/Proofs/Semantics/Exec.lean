import LittleC.Proofs.Semantics.Eval
import LittleC.Proofs.Tree.Subexpr

/-! # Runs of checked statements

The reference meaning of statements without calls: which memory a statement leaves, and whether it
returned. A statement that loops for ever leaves none, and neither does one that needs the value of
an expression without a value or stores where the program does not own. -/

namespace LittleC

/-- How a statement ends. -/
inductive Outcome where
  | done
  | returned (x : Int)
  deriving DecidableEq

/-- What a statement does: the memory before it, how it ends, and the memory then. -/
abbrev Effect := Memory → Outcome → Memory → Prop

namespace Effect

/-- The second part runs unless the first returned. -/
def seq (first second : Effect) : Effect := fun M o M' =>
  (∃ M₁, first M .done M₁ ∧ second M₁ o M') ∨ ∃ x, o = .returned x ∧ first M o M'

def nothing : Effect := fun M o M' => o = .done ∧ M' = M

/-- The condition decides which part runs. -/
def choice (condition : Memory → Option Int) (body other : Effect) : Effect := fun M o M' =>
  ∃ x, condition M = some x ∧ if x ≠ 0 then body M o M' else other M o M'

/-- The body runs as long as the condition is not zero, unless it returned. -/
inductive repeated (condition : Memory → Option Int) (body : Effect) : Effect where
  | stop {M : Memory} (hM : condition M = some 0) : repeated condition body M .done M
  | again {M M₁ M' : Memory} {o : Outcome} {x : Int} (hM : condition M = some x) (hx : x ≠ 0)
      (hbody : body M .done M₁) (hrest : repeated condition body M₁ o M') :
      repeated condition body M o M'
  | returned {M M' : Memory} {x y : Int} (hM : condition M = some x) (hx : x ≠ 0)
      (hbody : body M (.returned y) M') : repeated condition body M (.returned y) M'

end Effect

/-- Stores a number into `n` bytes at `a`. -/
def Env.stores (E : Env) (n : Nat) (address value : Memory → Option Int) : Effect := fun M o M' =>
  ∃ a v, address M = some a ∧ value M = some v ∧ E.owns (.ofInt 64 a) n = true ∧ o = .done ∧
    M' = M.store (.ofInt 64 a) n (.ofInt 64 v)

/-- Stores a value into the place that an expression names. The literals of a value that is stored
through a pointer come before those of the pointer. -/
def Expr.assigned (E : Env) (k : Nat) (target value : Expr) : Effect :=
  match target with
  | .unary .deref p i =>
    E.stores i.ty.size (fun M => p.eval E M (k + value.textCount)) fun M => value.eval E M k
  | .ident x i =>
    E.stores i.ty.size (fun _ => some (signed 8 (E.place x))) fun M => value.eval E M k
  | _ => fun _ _ _ => False

namespace Stmt

mutual
/-- The string literals in a statement. -/
def textCount : Stmt → Nat
  | expr e | ret e => e.textCount
  | assign target value => target.textCount + value.textCount
  | loop c body | ifThen c body => c.textCount + body.textCount
  | ifElse c body other => c.textCount + body.textCount + other.textCount
  | block _ body => textCountAll body

def textCountAll : List Stmt → Nat
  | [] => 0
  | s :: ss => s.textCount + textCountAll ss
end

mutual
/-- What a statement does that comes after `k` string literals. An expression is evaluated if it is
a single value. -/
def exec (E : Env) (k : Nat) : Stmt → Effect
  | expr e => fun M o M' =>
    (e.ty.isScalar = true → (e.eval E M k).isSome = true) ∧ Effect.nothing M o M'
  | assign target value => target.assigned E k value
  | ret e => fun M o M' => ∃ x, e.eval E M k = some x ∧ o = .returned x ∧ M' = M
  | loop c body =>
    .repeated (fun M => c.eval E M k) (body.exec E (k + c.textCount))
  | ifThen c body =>
    .choice (fun M => c.eval E M k) (body.exec E (k + c.textCount)) .nothing
  | ifElse c body other =>
    .choice (fun M => c.eval E M k) (body.exec E (k + c.textCount))
      (other.exec E (k + c.textCount + body.textCount))
  | block _ body => execAll E k body

def execAll (E : Env) (k : Nat) : List Stmt → Effect
  | [] => .nothing
  | s :: ss => .seq (s.exec E k) (execAll E (k + s.textCount) ss)
end

end Stmt

/-! ## Determinism -/

/-- There is at most one way to end, and one memory then. -/
def Effect.Unique (f : Effect) : Prop :=
  ∀ M o o' M' M'', f M o M' → f M o' M'' → o = o' ∧ M' = M''

namespace Effect

section
variable {f g : Effect} {condition : Memory → Option Int}

theorem unique_nothing : nothing.Unique := by
  rintro M _ _ _ _ ⟨rfl, rfl⟩ ⟨rfl, rfl⟩
  exact ⟨rfl, rfl⟩

theorem Unique.seq (hf : f.Unique) (hg : g.Unique) : (seq f g).Unique := by
  rintro M o o' M' M'' (⟨M₁, hfirst, hthen⟩ | ⟨x, rfl, hfirst⟩)
    (⟨M₂, hfirst', hthen'⟩ | ⟨y, rfl, hfirst'⟩)
  · obtain ⟨-, rfl⟩ := hf _ _ _ _ _ hfirst hfirst'
    exact hg _ _ _ _ _ hthen hthen'
  · cases (hf _ _ _ _ _ hfirst hfirst').1
  · cases (hf _ _ _ _ _ hfirst hfirst').1
  · exact hf _ _ _ _ _ hfirst hfirst'

theorem Unique.choice (hf : f.Unique) (hg : g.Unique) : (choice condition f g).Unique := by
  rintro M o o' M' M'' ⟨x, hx, h⟩ ⟨y, hy, h'⟩
  cases hx.symm.trans hy
  split at h
  · next hzero =>
      rw [if_pos hzero] at h'
      exact hf _ _ _ _ _ h h'
  · next hzero =>
      rw [if_neg hzero] at h'
      exact hg _ _ _ _ _ h h'

theorem Unique.repeated (hf : f.Unique) : (repeated condition f).Unique := by
  intro M o o' M' M'' h
  induction h generalizing o' M'' with
  | stop hM =>
      intro h'
      cases h' with
      | stop _ => exact ⟨rfl, rfl⟩
      | again hM' hx _ _ => exact absurd (Option.some.inj (hM'.symm.trans hM)) hx
      | returned hM' hx _ => exact absurd (Option.some.inj (hM'.symm.trans hM)) hx
  | again hM hx hbody _ ih =>
      intro h'
      cases h' with
      | stop hM' => exact absurd (Option.some.inj (hM.symm.trans hM')) hx
      | again _ _ hbody' hrest' =>
          obtain ⟨-, rfl⟩ := hf _ _ _ _ _ hbody hbody'
          exact ih _ _ hrest'
      | returned _ _ hbody' => cases (hf _ _ _ _ _ hbody hbody').1
  | returned hM hx hbody =>
      intro h'
      cases h' with
      | stop hM' => exact absurd (Option.some.inj (hM.symm.trans hM')) hx
      | again _ _ hbody' _ => cases (hf _ _ _ _ _ hbody hbody').1
      | returned _ _ hbody' => exact hf _ _ _ _ _ hbody hbody'

end

end Effect

theorem Env.unique_stores (E : Env) (n : Nat) (address value : Memory → Option Int) :
    (E.stores n address value).Unique := by
  rintro M _ _ _ _ ⟨a, v, ha, hv, -, rfl, rfl⟩ ⟨b, w, hb, hw, -, rfl, rfl⟩
  cases ha.symm.trans hb
  cases hv.symm.trans hw
  exact ⟨rfl, rfl⟩

theorem Expr.unique_assigned (E : Env) (k : Nat) (target value : Expr) :
    (target.assigned E k value).Unique := by
  unfold assigned
  split
  · exact E.unique_stores _ _ _
  · exact E.unique_stores _ _ _
  · exact fun _ _ _ _ _ h => h.elim

namespace Stmt

mutual
/-- A statement has at most one run from any memory. -/
theorem unique_exec (E : Env) : ∀ (s : Stmt) (k : Nat), (s.exec E k).Unique
  | .expr _, _ => by
      rw [exec]
      rintro M _ _ _ _ ⟨-, rfl, rfl⟩ ⟨-, rfl, rfl⟩
      exact ⟨rfl, rfl⟩
  | .assign target value, k => by
      rw [exec]
      exact target.unique_assigned E k value
  | .ret _, _ => by
      rw [exec]
      rintro M _ _ _ _ ⟨x, hx, rfl, rfl⟩ ⟨y, hy, rfl, rfl⟩
      cases hx.symm.trans hy
      exact ⟨rfl, rfl⟩
  | .loop _ body, _ => by
      rw [exec]
      exact (unique_exec E body _).repeated
  | .ifThen _ body, _ => by
      rw [exec]
      exact (unique_exec E body _).choice Effect.unique_nothing
  | .ifElse _ body other, _ => by
      rw [exec]
      exact (unique_exec E body _).choice (unique_exec E other _)
  | .block _ body, _ => by
      rw [exec]
      exact unique_execAll E body _

theorem unique_execAll (E : Env) : ∀ (ss : List Stmt) (k : Nat), (execAll E k ss).Unique
  | [], _ => Effect.unique_nothing
  | s :: ss, _ => by
      rw [execAll]
      exact (unique_exec E s _).seq (unique_execAll E ss _)
end

end Stmt

end LittleC
