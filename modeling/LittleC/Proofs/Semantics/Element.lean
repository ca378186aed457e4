import LittleC.Proofs.Checking.Clean
import LittleC.Proofs.Semantics.Run
import LittleC.Proofs.Typing.Offset

/-! # Pointer arithmetic counts elements

Sums and differences of pointers and numbers, as they are computed: the number counts elements of
the type that is pointed to, addresses wrap around, and the distance between two pointers undoes a
sum. -/

namespace LittleC

namespace Ty

theorem wrap_of_fitsLong {v : Int} (h : fitsLong v = true) : wrap 8 v = v := by
  simp only [fitsLong, Bool.and_eq_true, decide_eq_true_eq] at h
  exact wrap_eq_of_mem (Or.inr (Or.inr rfl)) (by omega) (by omega)

/-- The address of the element that lies `i` elements behind the one at `a`, modulo `2 ^ 64`. -/
def elementAddress (pointer : Ty) (a i : Int) : Int := wrap 8 (a + i * pointer.deref.size)

/-- The elements that lie between the addresses `b` and `a`. -/
def elementDistance (pointer : Ty) (a b : Int) : Int := (wrap 8 (a - b)).tdiv pointer.deref.size

theorem size_deref_pos (t : Ty) : (0 : Int) < t.deref.size := by
  rcases size_scalar t.base (t.depth - 1) with h | h | h <;> simp [deref, h]

/-- On the way an address may wrap around: only the bytes in between have to fit. -/
theorem elementDistance_elementAddress (t : Ty) (a : Int) {i : Int}
    (h : fitsLong (i * t.deref.size) = true) : t.elementDistance (t.elementAddress a i) a = i := by
  have hbytes : wrap 8 (t.elementAddress a i - a) = i * t.deref.size := by
    calc wrap 8 (wrap 8 (a + i * t.deref.size) - a)
        = wrap 8 (a + i * t.deref.size - a) := Int.bmod_sub_bmod
      _ = wrap 8 (i * t.deref.size) := by rw [add_sub_cancel_left]
      _ = i * t.deref.size := wrap_of_fitsLong h
  rw [elementDistance, hbytes]
  exact Int.mul_tdiv_cancel i (ne_of_gt t.size_deref_pos)

end Ty

namespace Expr

section
variable {E : Env} {C : Callees} {k : Nat} {op : BinaryOp} {l r p n : Expr} {i : Info}

/-- Operators that always look at both operands compute them from left to right. -/
theorem run_binary (hop : ∀ x, op.skips x = false) :
    (binary op l r i).run E C k = (do
      let x ← l.run E C k
      let y ← r.run E C (k + l.textCount)
      reading fun _ => op.apply i.ty.size x y) := by
  rw [run]
  simp only [hop, Bool.false_eq_true, if_false]

/-- Sums, differences and products have a value whenever their operands have. -/
theorem run_arithmetic {f : Int → Int → Int} (hop : ∀ x, op.skips x = false)
    (hf : ∀ m x y, op.apply m x y = some (wrap m (f x y))) :
    (binary op l r i).run E C k = (do
      let x ← l.run E C k
      let y ← r.run E C (k + l.textCount)
      pure (wrap i.ty.size (f x y))) := by
  rw [run_binary hop]
  simp only [hf]
  rfl

/-! ## Literals in converted operands -/

theorem textCount_promote (e : Expr) : e.promote.textCount = e.textCount := by
  unfold promote
  split <;> rfl

/-- A number is widened to `long` by one node at most. -/
theorem extend_long_cases (hn : n.ty.isNumeric = true) :
    n.extend .long = n ∨ n.extend .long = .cast n (.value .long) := by
  obtain ⟨b, hb⟩ := Ty.isNumeric_iff.mp hn
  cases b with
  | long =>
      left
      have hpromote : n.promote = n := by
        unfold promote
        rw [hb]
      rw [extend, hb]
      exact hpromote
  | char | int =>
      right
      rw [extend, hb]
      rfl

theorem textCount_bytes (hn : n.ty.isNumeric = true) : (n.bytes p).textCount = n.textCount := by
  rcases extend_long_cases hn with h | h
  all_goals
    rw [bytes, h]
    rfl

/-! ## Values -/

/-- The bytes are the count times the size of an element, whatever wraps on the way. -/
theorem run_bytes (hn : n.ty.isNumeric = true) :
    (n.bytes p).run E C k = (do
      let i ← n.run E C k
      pure (wrap 8 (i * p.promote.ty.deref.size))) := by
  have hsize (j : Int) :
      wrap 8 (j * wrap 8 p.promote.ty.deref.signedSize) = wrap 8 (j * p.promote.ty.deref.size) := by
    rw [show p.promote.ty.deref.signedSize = wrap 8 p.promote.ty.deref.size from rfl, wrap_wrap]
    exact Int.mul_bmod_bmod
  rw [bytes, scale, run_arithmetic (f := (· * ·)) (fun _ => rfl) (fun _ _ _ => rfl)]
  have hlong : Ty.long.size = 8 := rfl
  rcases extend_long_cases hn with h | h
  · simp only [h, run, pure_bind, hlong, hsize]
  · simp only [h, run, pure_bind, bind_assoc, hlong, hsize]
    refine bind_congr fun i => ?_
    rw [show wrap 8 (wrap 8 i * p.promote.ty.deref.size) = wrap 8 (i * p.promote.ty.deref.size) from
      Int.bmod_mul_bmod]

section
variable (hp : p.ty.promote.isDataPointer = true) (hn : n.ty.isNumeric = true)
include hp

theorem size_ty_promote : p.promote.ty.size = 8 := by
  rw [ty_promote]
  exact Ty.size_of_isDataPointer hp

include hn

theorem run_moved_add :
    (p.moved .add n).run E C k = (do
      let a ← p.promote.run E C k
      let i ← n.run E C (k + p.textCount)
      pure (p.promote.ty.elementAddress a i)) := by
  rw [moved, run_arithmetic (f := (· + ·)) (fun _ => rfl) (fun _ _ _ => rfl), run_bytes hn,
    textCount_promote]
  simp only [bind_assoc, pure_bind, size_ty_promote hp]
  refine bind_congr fun a => bind_congr fun i => congrArg pure ?_
  exact Int.add_bmod_bmod

theorem run_moved_sub :
    (p.moved .sub n).run E C k = (do
      let a ← p.promote.run E C k
      let i ← n.run E C (k + p.textCount)
      pure (p.promote.ty.elementAddress a (-i))) := by
  rw [moved, run_arithmetic (f := (· - ·)) (fun _ => rfl) (fun _ _ _ => rfl), run_bytes hn,
    textCount_promote]
  simp only [bind_assoc, pure_bind, size_ty_promote hp]
  refine bind_congr fun a => bind_congr fun i => congrArg pure ?_
  rw [Ty.elementAddress, neg_mul, ← sub_eq_add_neg]
  exact Int.sub_bmod_bmod

theorem run_add_number_pointer :
    (binary .add (n.bytes p) p.promote (.value p.promote.ty)).run E C k = (do
      let i ← n.run E C k
      let a ← p.promote.run E C (k + n.textCount)
      pure (p.promote.ty.elementAddress a i)) := by
  rw [run_arithmetic (f := (· + ·)) (fun _ => rfl) (fun _ _ _ => rfl), run_bytes hn,
    textCount_bytes hn]
  simp only [bind_assoc, pure_bind, size_ty_promote hp]
  refine bind_congr fun i => bind_congr fun a => congrArg pure ?_
  rw [Ty.elementAddress, add_comm a]
  exact Int.bmod_add_bmod

end

/-- A distance has a value whenever both pointers have: an element is no larger than the bytes. -/
theorem run_distance :
    (Typing.distance l r).run E C k = (do
      let a ← l.promote.run E C k
      let b ← r.promote.run E C (k + l.textCount)
      pure (l.promote.ty.elementDistance a b)) := by
  have hsize : wrap 8 l.promote.ty.deref.signedSize = l.promote.ty.deref.size := by
    rw [show l.promote.ty.deref.signedSize = wrap 8 l.promote.ty.deref.size from rfl, wrap_wrap]
    rcases Ty.size_scalar l.promote.ty.base (l.promote.ty.depth - 1) with h | h | h
    all_goals
      rw [Ty.deref, h]
      rfl
  rw [Typing.distance, run_binary (fun _ => rfl),
    run_arithmetic (f := (· - ·)) (fun _ => rfl) (fun _ _ _ => rfl), textCount_promote]
  simp only [bind_assoc, pure_bind, run]
  refine bind_congr fun a => bind_congr fun b => ?_
  have hlong : Ty.long.size = 8 := rfl
  have hpos := l.promote.ty.size_deref_pos
  have hquotient := wrap_tdiv (n := 8) (Or.inr (Or.inr rfl)) hpos (wrap_wrap 8 (a - b))
  rw [hlong, hsize, BinaryOp.apply, if_pos ⟨ne_of_gt hpos, hquotient⟩]
  rfl

end

end Expr

namespace Typing

open LittleC.Expr

/-- A checker takes the verdict in silence, as a tree of type `ty` without errors that computes what
`value` tells. -/
structure Denotes (c : Checker) (v : Verdict Expr) (ty : Ty)
    (value : Env → Callees → Nat → StateT Memory Option Int) : Prop where
  accepted : c.accept v = (v.node, c)
  sound : v.node.hasError = false
  ty : v.node.ty = ty
  run : ∀ E C k, v.node.run E C k = value E C k

section
variable {p n : Expr} (hp : p.ty.promote.isDataPointer = true) (hn : n.ty.isNumeric = true)
  (hpsound : p.hasError = false) (hnsound : n.hasError = false)
include hp hn hpsound hnsound

theorem denotes_add_pointer_number (c : Checker) :
    Denotes c (add p n) p.ty.promote (fun E C k => do
      let a ← p.promote.run E C k
      let i ← n.run E C (k + p.textCount)
      pure (p.ty.promote.elementAddress a i)) := by
  rw [add_pointer_number hp hn]
  refine ⟨rfl, (hasError_offset hpsound hnsound).1, ty_promote p, fun E C k => ?_⟩
  rw [run_moved_add hp hn, ty_promote]

theorem denotes_add_number_pointer (c : Checker) :
    Denotes c (add n p) p.ty.promote (fun E C k => do
      let i ← n.run E C k
      let a ← p.promote.run E C (k + n.textCount)
      pure (p.ty.promote.elementAddress a i)) := by
  rw [add_number_pointer hp hn]
  refine ⟨rfl, (hasError_offset hpsound hnsound).2, ty_promote p, fun E C k => ?_⟩
  rw [run_add_number_pointer hp hn, ty_promote]

theorem denotes_subtract_pointer_number (c : Checker) :
    Denotes c (subtract p n) p.ty.promote (fun E C k => do
      let a ← p.promote.run E C k
      let i ← n.run E C (k + p.textCount)
      pure (p.ty.promote.elementAddress a (-i))) := by
  rw [subtract_pointer_number hp hn]
  refine ⟨rfl, (hasError_offset hpsound hnsound).1, ty_promote p, fun E C k => ?_⟩
  rw [run_moved_sub hp hn, ty_promote]

/-- The pointer is computed twice, before and behind the number. -/
theorem denotes_subtract_sum (c : Checker) :
    Denotes c (subtract (add p n).node p) .long (fun E C k => do
      let a ← p.promote.run E C k
      let i ← n.run E C (k + p.textCount)
      let b ← p.promote.run E C (k + p.textCount + n.textCount)
      pure (p.ty.promote.elementDistance (p.ty.promote.elementAddress a i) b)) := by
  have hty : (p.moved .add n).ty = p.ty.promote := ty_promote p
  have hpromote : (p.moved .add n).promote = p.moved .add n := by
    apply promote_of_isDataPointer
    rw [hty]
    exact hp
  have hcount : (p.moved .add n).textCount = p.textCount + n.textCount := by
    rw [moved, textCount, textCount_promote, textCount_bytes hn]
  have hsound : (p.moved .add n).hasError = false := (hasError_offset hpsound hnsound).1
  rw [add_pointer_number hp hn, subtract_pointers hp (by rw [hty, Ty.promote_promote])]
  refine ⟨rfl, hasError_distance hsound hpsound, rfl, fun E C k => ?_⟩
  rw [run_distance, hpromote, hty, hcount, run_moved_add hp hn, ty_promote, ← Nat.add_assoc]
  simp only [bind_assoc, pure_bind]

end

/-- Pointer arithmetic is element arithmetic. A number that is added to a pointer, from either side,
or subtracted from it counts elements, modulo `2 ^ 64`; and when the pointer is subtracted from the
sum and gives the same address again, the number comes back, as far as its bytes fit a `long`. -/
theorem pointer_arithmetic (c : Checker) {p n : Expr} (hpsound : p.hasError = false)
    (hnsound : n.hasError = false) (hp : p.ty.promote.isDataPointer = true)
    (hn : n.ty.isNumeric = true) :
    Denotes c (add p n) p.ty.promote (fun E C k => do
      let a ← p.promote.run E C k
      let i ← n.run E C (k + p.textCount)
      pure (p.ty.promote.elementAddress a i)) ∧
    Denotes c (add n p) p.ty.promote (fun E C k => do
      let i ← n.run E C k
      let a ← p.promote.run E C (k + n.textCount)
      pure (p.ty.promote.elementAddress a i)) ∧
    Denotes c (subtract p n) p.ty.promote (fun E C k => do
      let a ← p.promote.run E C k
      let i ← n.run E C (k + p.textCount)
      pure (p.ty.promote.elementAddress a (-i))) ∧
    Denotes c (subtract (add p n).node p) .long (fun E C k => do
      let a ← p.promote.run E C k
      let i ← n.run E C (k + p.textCount)
      let b ← p.promote.run E C (k + p.textCount + n.textCount)
      pure (p.ty.promote.elementDistance (p.ty.promote.elementAddress a i) b)) ∧
    ∀ (E : Env) (C : Callees) (k : Nat) (M M₁ M₂ M₃ : Memory) (a i : Int),
      p.promote.run E C k M = some (a, M₁) → n.run E C (k + p.textCount) M₁ = some (i, M₂) →
      p.promote.run E C (k + p.textCount + n.textCount) M₂ = some (a, M₃) →
      Ty.fitsLong (i * p.ty.promote.deref.size) = true →
      (subtract (add p n).node p).node.run E C k M = some (i, M₃) := by
  have hback := denotes_subtract_sum hp hn hpsound hnsound c
  refine ⟨denotes_add_pointer_number hp hn hpsound hnsound c,
    denotes_add_number_pointer hp hn hpsound hnsound c,
    denotes_subtract_pointer_number hp hn hpsound hnsound c, hback, ?_⟩
  intro E C k M M₁ M₂ M₃ a i hfirst hnumber hsecond hfits
  rw [hback.run, bind_of_eq_some hfirst, bind_of_eq_some hnumber, bind_of_eq_some hsecond,
    Ty.elementDistance_elementAddress _ _ hfits]
  rfl

/-- A `char` of all ones moves an array of `int` back by one element. -/
theorem pointer_arithmetic_negative :
    let t : SymbolTable := ⟨[.fresh "a" (.array .int 0 10), .fresh "i" .char], [], []⟩
    let a := Expr.ofSymbol t ⟨0⟩
    let i := Expr.ofSymbol t ⟨1⟩
    let E : Env := ⟨fun _ => 4096, fun _ => 0, fun _ => true⟩
    let C : Callees := ⟨fun _ _ _ => none, []⟩
    let M : Memory := fun _ => 255
    (add a i).node.ty = .scalar .int 1 ∧
      (add a i).node.run E C 0 M = some (4092, M) ∧ (add i a).node.run E C 0 M = some (4092, M) ∧
      (subtract a i).node.run E C 0 M = some (4100, M) ∧
      (subtract (add a i).node a).node.ty = .long ∧
      (subtract (add a i).node a).node.run E C 0 M = some (-1, M) := by
  intro t a i E C M
  have haddress : signed 8 (4096 : Word) = 4096 := by decide
  have hbyte : E.load M 1 4096 = some (-1) := by decide
  have hforwards : a.ty.promote.elementAddress 4096 (-1) = 4092 := by decide
  have hbackwards : a.ty.promote.elementAddress 4096 (- -1) = 4100 := by decide
  have ha (k : Nat) : a.promote.run E C k M = some (4096, M) :=
    congrArg (fun x => some (x, M)) haddress
  have hi (k : Nat) : i.run E C k M = some (-1, M) := congrArg (Option.map (·, M)) hbyte
  obtain ⟨hadd, hadd', hsubtract, hback, hvalue⟩ :=
    pointer_arithmetic Checker.empty (p := a) (n := i) rfl rfl rfl rfl
  refine ⟨hadd.ty, ?_, ?_, ?_, hback.ty, hvalue E C 0 M M M M 4096 (-1) (ha _) (hi _) (ha _) rfl⟩
  · rw [hadd.run, bind_of_eq_some (ha _), bind_of_eq_some (hi _), hforwards]
    rfl
  · rw [hadd'.run, bind_of_eq_some (hi _), bind_of_eq_some (ha _), hforwards]
    rfl
  · rw [hsubtract.run, bind_of_eq_some (ha _), bind_of_eq_some (hi _), hbackwards]
    rfl

end Typing

end LittleC
