import LittleC.Operator
import LittleC.Ty.Basic
import Mathlib.Tactic.Ring

/-! # Words

Registers hold 64 bits. An access of `n` bytes reads the low bytes as a number with a sign, and
writes the low bytes in the way of the machine: four bytes clear the upper half, one byte leaves the
rest. -/

namespace LittleC

abbrev Word := BitVec 64

/-- The widths of an access. -/
def Width (n : Nat) : Prop := n = 1 ∨ n = 4 ∨ n = 8

instance : DecidablePred Width := fun n => inferInstanceAs (Decidable (n = 1 ∨ n = 4 ∨ n = 8))

/-- The number that is left of `v` in `n` bytes with a sign. -/
def wrap (n : Nat) (v : Int) : Int := v.bmod (2 ^ (8 * n))

/-- The low `n` bytes of a word as a number with a sign. -/
def signed (n : Nat) (w : Word) : Int := wrap n w.toNat

/-- The low `n` bytes of a word as a number without a sign. -/
def unsigned (n : Nat) (w : Word) : Nat := w.toNat % 2 ^ (8 * n)

/-- A register that held `old` after `n` bytes of `new` are written into it. -/
def merge (n : Nat) (old new : Word) : Word :=
  .ofNat 64 ((if n = 4 then 0 else old.toNat / 2 ^ (8 * n) * 2 ^ (8 * n)) + unsigned n new)

section
variable {n k : Nat} {v u : Int}

theorem Width.le (h : Width n) : n ≤ 8 := by
  rcases h with rfl | rfl | rfl <;> decide

theorem Width.pos (h : Width n) : 0 < n := by
  rcases h with rfl | rfl | rfl <;> decide

/-! ## Wrapping -/

theorem wrap_wrap (n : Nat) (v : Int) : wrap n (wrap n v) = wrap n v := Int.bmod_bmod

theorem wrap_emod (n : Nat) (v : Int) : wrap n (v % 2 ^ (8 * n)) = wrap n v := by
  have h := Int.emod_bmod (x := v) (n := 2 ^ (8 * n))
  push_cast at h
  exact h

theorem wrap_eq_wrap_iff : wrap n v = wrap n u ↔ v % 2 ^ (8 * n) = u % 2 ^ (8 * n) := by
  constructor
  · intro h
    have hmod := congrArg (· % (2 ^ (8 * n) : Int)) h
    have hcast : ((2 ^ (8 * n) : Nat) : Int) = 2 ^ (8 * n) := by push_cast; rfl
    simp only [wrap, ← hcast, Int.bmod_emod] at hmod
    rwa [hcast] at hmod
  · intro h
    rw [← wrap_emod n v, h, wrap_emod]

/-- What is left in many bytes has the same low bytes. -/
theorem wrap_wrap_of_le (h : k ≤ n) (v : Int) : wrap k (wrap n v) = wrap k v := by
  have hdvd : (2 ^ (8 * k) : Int) ∣ 2 ^ (8 * n) := pow_dvd_pow 2 (by omega)
  have hn : wrap n v % 2 ^ (8 * n) = v % 2 ^ (8 * n) := wrap_eq_wrap_iff.mp (wrap_wrap n v)
  rw [wrap_eq_wrap_iff, ← Int.emod_emod_of_dvd _ hdvd, hn, Int.emod_emod_of_dvd _ hdvd]

theorem lt_wrap (hn : Width n) (v : Int) : -(2 ^ (8 * n)) ≤ 2 * wrap n v := by
  have hpos : 0 < 2 ^ (8 * n) := Nat.pow_pos (by decide)
  have h := Int.le_bmod (x := v) (m := 2 ^ (8 * n)) hpos
  rcases hn with rfl | rfl | rfl <;> simp only [wrap] <;> omega

theorem wrap_lt (hn : Width n) (v : Int) : 2 * wrap n v < 2 ^ (8 * n) := by
  have hpos : 0 < 2 ^ (8 * n) := Nat.pow_pos (by decide)
  have h := Int.bmod_lt (x := v) (m := 2 ^ (8 * n)) hpos
  rcases hn with rfl | rfl | rfl <;> simp only [wrap] <;> omega

theorem wrap_eq_of_mem (hn : Width n) (hlo : -(2 ^ (8 * n)) ≤ 2 * v) (hhi : 2 * v < 2 ^ (8 * n)) :
    wrap n v = v := by
  rcases hn with rfl | rfl | rfl <;> exact Int.bmod_eq_of_le (by omega) (by omega)

/-- Constants that instructions hold fit all but bytes. -/
theorem wrap_of_fitsInt (hn : n = 4 ∨ n = 8) (hv : Ty.fitsInt v = true) : wrap n v = v := by
  simp only [Ty.fitsInt, Bool.and_eq_true, decide_eq_true_eq] at hv
  rcases hn with rfl | rfl
  · exact wrap_eq_of_mem (Or.inr (Or.inl rfl)) (by omega) (by omega)
  · exact wrap_eq_of_mem (Or.inr (Or.inr rfl)) (by omega) (by omega)

theorem wrap_zero (n : Nat) : wrap n 0 = 0 := Int.zero_bmod ..

theorem wrap_one (hn : Width n) : wrap n 1 = 1 := by
  rcases hn with rfl | rfl | rfl <;> decide

theorem wrap_neg_one (hn : Width n) : wrap n (-1) = -1 := by
  rcases hn with rfl | rfl | rfl <;> decide

/-- A quotient by a positive number is no larger than the dividend. -/
theorem wrap_tdiv (hn : Width n) (hu : 0 < u) (hv : wrap n v = v) :
    wrap n (v.tdiv u) = v.tdiv u := by
  have hlo := lt_wrap hn v
  have hhi := wrap_lt hn v
  rw [hv] at hlo hhi
  rcases Int.le_total 0 v with h | h
  · have hnonneg := Int.tdiv_nonneg h (Int.le_of_lt hu)
    have hle := Int.tdiv_le_self u h
    exact wrap_eq_of_mem hn (by omega) (by omega)
  · have hneg := Int.neg_tdiv v u
    have hnonneg := Int.tdiv_nonneg (Int.neg_nonneg.mpr h) (Int.le_of_lt hu)
    have hle := Int.tdiv_le_self u (Int.neg_nonneg.mpr h)
    exact wrap_eq_of_mem hn (by omega) (by omega)

/-- A remainder is no larger than its divisor. -/
theorem wrap_tmod (hn : Width n) (hu : wrap n u = u) (hzero : u ≠ 0) :
    wrap n (v.tmod u) = v.tmod u := by
  have hlo := lt_wrap hn u
  have hhi := wrap_lt hn u
  rw [hu] at hlo hhi
  have hrem : (v.tmod u).natAbs < u.natAbs := by
    rw [Int.natAbs_tmod]
    exact Nat.mod_lt _ (by omega)
  exact wrap_eq_of_mem hn (by omega) (by omega)

end

/-! ## Reading and writing -/

section
variable {n k : Nat}

theorem signed_eq_iff {w x : Word} : signed n w = signed n x ↔ unsigned n w = unsigned n x := by
  unfold signed unsigned
  rw [wrap_eq_wrap_iff]
  norm_cast

theorem wrap_signed (n : Nat) (w : Word) : wrap n (signed n w) = signed n w := wrap_wrap n _

theorem wrap_signed_of_le (h : k ≤ n) (w : Word) : wrap k (signed n w) = signed k w :=
  wrap_wrap_of_le h _

theorem signed_ofInt (hn : n ≤ 8) (v : Int) : signed n (BitVec.ofInt 64 v) = wrap n v := by
  have hdvd : (2 ^ (8 * n) : Int) ∣ 2 ^ 64 := pow_dvd_pow 2 (by omega)
  unfold signed
  rw [wrap_eq_wrap_iff, BitVec.toNat_ofInt, Int.toNat_of_nonneg (Int.emod_nonneg _ (by decide))]
  exact Int.emod_emod_of_dvd v hdvd

/-- All eight bytes determine a word. -/
theorem ofInt_signed (w : Word) : BitVec.ofInt 64 (signed 8 w) = w := by
  have hsigned : signed 8 (BitVec.ofInt 64 (signed 8 w)) = signed 8 w := by
    rw [signed_ofInt (Nat.le_refl 8), wrap_signed]
  have hunsigned := signed_eq_iff.mp hsigned
  apply BitVec.eq_of_toNat_eq
  have hlt := w.isLt
  have hlt' := (BitVec.ofInt 64 (signed 8 w)).isLt
  unfold unsigned at hunsigned
  omega

theorem toNat_merge (hn : n ≤ 8) (old new : Word) :
    (merge n old new).toNat =
      (if n = 4 then 0 else old.toNat / 2 ^ (8 * n) * 2 ^ (8 * n)) + unsigned n new := by
  -- The kept bytes and the written ones together are no more than a word.
  have hkeep : (if n = 4 then 0 else old.toNat / 2 ^ (8 * n) * 2 ^ (8 * n)) ≤
      old.toNat / 2 ^ (8 * n) * 2 ^ (8 * n) := by
    split
    · exact Nat.zero_le _
    · exact Nat.le_refl _
  have hwrite : unsigned n new < 2 ^ (8 * n) := Nat.mod_lt _ (Nat.pow_pos (by decide))
  have hsplit : (2 ^ 64 : Nat) = 2 ^ (64 - 8 * n) * 2 ^ (8 * n) := by
    rw [← Nat.pow_add, show 64 - 8 * n + 8 * n = 64 by omega]
  have hhigh : old.toNat / 2 ^ (8 * n) < 2 ^ (64 - 8 * n) := by
    apply Nat.div_lt_of_lt_mul
    rw [Nat.mul_comm, ← hsplit]
    exact old.isLt
  have hfit : (old.toNat / 2 ^ (8 * n) + 1) * 2 ^ (8 * n) ≤ 2 ^ 64 := by
    rw [hsplit]
    exact Nat.mul_le_mul_right _ hhigh
  rw [Nat.succ_mul] at hfit
  rw [merge, BitVec.toNat_ofNat]
  exact Nat.mod_eq_of_lt (by omega)

theorem unsigned_merge (hn : n ≤ 8) (old new : Word) :
    unsigned n (merge n old new) = unsigned n new := by
  unfold unsigned
  rw [toNat_merge hn]
  unfold unsigned
  split
  · rw [Nat.zero_add, Nat.mod_mod]
  · rw [Nat.mul_comm, Nat.mul_add_mod, Nat.mod_mod]

theorem merge_full (old new : Word) : merge 8 old new = new := by
  apply BitVec.eq_of_toNat_eq
  have hold := old.isLt
  have hnew := new.isLt
  rw [toNat_merge (Nat.le_refl 8), if_neg (by decide), unsigned]
  omega

theorem signed_merge (hn : n ≤ 8) (old new : Word) : signed n (merge n old new) = signed n new :=
  signed_eq_iff.mpr (unsigned_merge hn old new)

end

end LittleC
