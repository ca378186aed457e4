import LittleC.Lowering.Laws
import LittleC.Proofs.Lowering.Expr

/-! # Branches

A branch jumps exactly when its condition is nonzero as wanted, whether a comparison was made part
of it or its value was compared with zero. -/

namespace LittleC.Lowering

open State

/-- How a branch to `l` is left over a condition of value `x`. -/
def branchExit (l : Label) (onTrue : Bool) (x : Int) : Exit :=
  if (x != 0) == onTrue then .jump l else .next

/-- After `k` string literals, with `c` of its own, the action branches to `l` when `x` is nonzero
as `onTrue` says. -/
structure Branches (S : Scene) (M : Memory) (a : Lowering Unit) (s : State) (l : Label)
    (onTrue : Bool) (c : Nat) (x : Option Int) : Prop where
  reached : Reached s (a s).state c
  labels : LabelsIn s.nextLabel (a s).state.nextLabel (a s).code
  runs : ∀ m y, x = some y → S.Agrees M s m → S.Fits (a s).state →
    ∃ m', S.world.Reaches s.nextLabel (a s).code m (branchExit l onTrue y) m' ∧
      S.Stays (Before s.nextValue) s m (a s).state m'

section
variable {S : Scene} {M : Memory} {s : State} {c d k n : Nat} {l : Label} {onTrue : Bool}
  {q : Comparison} {x y : Option Int}

/-- The condition of the jump for either polarity. -/
theorem eval_polarity (q : Comparison) (onTrue : Bool) (u v : Int) :
    (if onTrue then q else q.negate).eval u v = (q.eval u v == onTrue) := by
  cases onTrue
  · rw [if_neg Bool.false_ne_true, Comparison.eval_negate]
    cases q.eval u v <;> rfl
  · rw [if_pos rfl]
    cases q.eval u v <;> rfl

theorem truth_ne_zero (b : Bool) : (truth b != 0) = b := by cases b <;> rfl

/-- A jump on flags that tell the condition. -/
theorem branches_jcc {first : Lowering Unit}
    (hfirst : Does S M s.nextValue first s (fun _ s' => Reached s s' c) (fun _ => x.isSome = true)
      (fun _ _ m => ∃ f, m.flags = some f ∧ ∃ y, x = some y ∧ ∃ u v, Tells f u v ∧
        q.eval u v = (y != 0))) :
    Branches S M (first >>= fun _ => emit (.jcc (if onTrue then q else q.negate) l)) s l onTrue c
      x := by
  refine ⟨hfirst.gives, hfirst.labels.append (labelsIn_instr _ _ _) hfirst.evolves.label
    (Nat.le_refl _), ?_⟩
  intro m y hx hm hfits
  obtain ⟨m', hrun, hstays, f, hf, y', hx', u, v, htells, hq⟩ :=
    hfirst.runs m hm hfits (by rw [hx]; rfl)
  cases hx.symm.trans hx'
  -- Both polarities jump when the flags hold for the condition of the jump.
  have hjump := World.reaches_jcc (w := S.world) hf (if onTrue then q else q.negate)
    (first s).state.nextLabel l
  rw [htells, eval_polarity, hq] at hjump
  exact ⟨m', hrun.append hfirst.labels hfirst.evolves.label hjump, hstays⟩

/-- A comparison as part of a branch. -/
theorem branches_comparison {a b : Lowering ValueId} (hn : Width n)
    (ha : Evaluates S M a k n c x) (hb : Evaluates S M b (k + c) n d y) (hs : s.Sound)
    (hk : s.texts.length = k) :
    Branches S M (do
      let sides ← comparison a b
      unbind sides.2
      emit (.jcc (if onTrue then q else q.negate) l)) s l onTrue (c + d)
      (x.bind fun u => y.bind fun v => some (truth (q.eval u v))) := by
  rw [← bind_assoc]
  refine branches_jcc (q := q) ((does_comparison hn ha hb hs hk fun _ hsome => ?_).bind
    fun sides s' h => ?_)
  · cases x with
    | none => cases hsome
    | some u =>
        cases y with
        | none => cases hsome
        | some v => exact ⟨u, v, rfl, rfl⟩
  · obtain ⟨hreached, -, hfresh⟩ := h
    have hlow : (s'.unbind sides.2).lowest = s'.lowest := by rw [unbind_eq]
    refine Does.update ((evolves_unbind hreached.sound _).mono (ne_of_fresh hfresh))
      (Scene.stays_of_state hlow fun u hu =>
        unmoved_unbind hreached.sound (ne_of_fresh hfresh u hu))
      (hreached.unbind hfresh) ?_
    rintro m ⟨f, hf, u, v, rfl, rfl, htells⟩
    exact ⟨f, hf, _, rfl, u, v, htells, (truth_ne_zero _).symm⟩

/-- A value that is compared with zero. -/
theorem branches_test {a : Lowering ValueId} (hn : Width n) (ha : Evaluates S M a k n c x)
    (hs : s.Sound) (hk : s.texts.length = k) :
    Branches S M (do
      let v ← a
      compareZero v
      emit (.jcc (if onTrue then .ne else .eq) l)) s l onTrue c x := by
  rw [← bind_assoc]
  refine branches_jcc (q := .ne) ((does_test hn ha hs hk fun _ h => h).weaken (Nat.le_refl _)
    (fun _ _ h => h) (fun _ h => h) ?_)
  rintro _ _ m - ⟨f, hf, _, y, -, hx, htells⟩
  exact ⟨f, hf, y, hx, y, 0, htells, eval_ne_zero y⟩

/-- A regular condition of a single value decides its branch. -/
theorem branches_expr {t : SymbolTable} (hplaces : S.Places t) {e : Expr}
    (he : e.Every (Expr.Regular t)) (hscalar : e.ty.isScalar = true) (l : Label) (onTrue : Bool)
    (hs : s.Sound) :
    Branches S M (e.branch t l onTrue) s l onTrue e.textCount
      (e.eval S.env M s.texts.length) := by
  unfold Expr.branch
  split
  · next q left right i =>
      obtain ⟨⟨⟨hcanonical, -⟩, -⟩, hleft, hright⟩ := Expr.every_binary.mp he
      obtain ⟨-, hl, hr, -, hsize⟩ := hcanonical
      have heval := evaluates_expr M hplaces right (s.texts.length + left.textCount) hright hr
      rw [← hsize] at heval
      exact branches_comparison (Ty.width_size hl)
        (evaluates_expr M hplaces left s.texts.length hleft hl) heval hs rfl
  · exact branches_test (Ty.width_size hscalar) (evaluates_expr M hplaces e _ he hscalar) hs rfl

end

end LittleC.Lowering
