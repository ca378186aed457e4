import LittleC.Proofs.Ty.Numeric

/-! # Agreement and compatibility of types

Agreement is reflexive and symmetric, and keeps sizes and promotions. An unspecified parameter list
agrees with every list, so agreement chains through a type exactly when that type lists the
parameters of every function in it. Compatibility looks at promoted types only and holds between
values of one size. -/

namespace LittleC.Ty

mutual
/-- Every function in the type, at any depth, lists its parameters. -/
def Specified : Ty → Prop
  | .funcUnspecified .. => False
  | .func _ _ ps => SpecifiedAll ps
  | .error | .scalar .. | .array .. => True

def SpecifiedAll : List Ty → Prop
  | [] => True
  | t :: ts => t.Specified ∧ SpecifiedAll ts
end

/-! ## Chains of agreeing types -/

mutual
theorem agrees_trans : ∀ {t u v : Ty}, u.Specified → t.agrees u = true → u.agrees v = true →
    t.agrees v = true
  | t, .error, v, _, htu, huv => by
      cases t <;> cases v <;> simp_all [agrees]
  | t, .scalar b d, v, _, htu, huv => by
      rw [agrees_comm] at huv
      rw [agrees_scalar_iff.mp htu, agrees_scalar_iff.mp huv]
      exact agrees_refl _
  | t, .array b d n, v, _, htu, huv => by
      cases t <;> cases v <;> simp_all [agrees]
  | t, .func b d us, v, hu, htu, huv => by
      cases t with
      | func b₁ d₁ ts =>
          cases v with
          | func b₂ d₂ vs =>
              simp only [agrees, Bool.and_eq_true, beq_iff_eq] at htu huv ⊢
              obtain ⟨⟨rfl, rfl⟩, hts⟩ := htu
              obtain ⟨⟨rfl, rfl⟩, hvs⟩ := huv
              exact ⟨⟨rfl, rfl⟩, agreesAll_trans hu hts hvs⟩
          | _ => simp_all [agrees]
      | _ => cases v <;> simp_all [agrees]

theorem agreesAll_trans : ∀ {ts us vs : List Ty}, SpecifiedAll us → agreesAll ts us = true →
    agreesAll us vs = true → agreesAll ts vs = true
  | [], [], [], _, _, _ => rfl
  | t :: ts, u :: us, v :: vs, hus, htu, huv => by
      simp only [agreesAll, Bool.and_eq_true] at htu huv ⊢
      exact ⟨agrees_trans hus.1 htu.1 huv.1, agreesAll_trans hus.2 htu.2 huv.2⟩
end

mutual
/-- A type with an unspecified list somewhere stands between two types that do not agree. -/
theorem exists_not_agrees : ∀ {u : Ty}, ¬u.Specified →
    ∃ t v : Ty, t.agrees u = true ∧ u.agrees v = true ∧ t.agrees v = false
  | .error, h | .scalar .., h | .array .., h => absurd trivial h
  | .funcUnspecified b d, _ => by
      refine ⟨.func b d [], .func b d [.int], ?_, ?_, ?_⟩
      · simp [agrees]
      · simp [agrees]
      · simp [agrees, agreesAll]
  | .func b d us, h => by
      obtain ⟨ts, vs, hts, hvs, hnot⟩ := exists_not_agreesAll h
      refine ⟨.func b d ts, .func b d vs, ?_, ?_, ?_⟩
      · simp [agrees, hts]
      · simp [agrees, hvs]
      · simp [agrees, hnot]

theorem exists_not_agreesAll : ∀ {us : List Ty}, ¬SpecifiedAll us →
    ∃ ts vs : List Ty, agreesAll ts us = true ∧ agreesAll us vs = true ∧ agreesAll ts vs = false
  | [], h => absurd trivial h
  | u :: us, h => by
      by_cases hu : u.Specified
      · obtain ⟨ts, vs, hts, hvs, hnot⟩ := exists_not_agreesAll fun hus => h ⟨hu, hus⟩
        refine ⟨u :: ts, u :: vs, ?_, ?_, ?_⟩
        · simp [agreesAll, agrees_refl, hts]
        · simp [agreesAll, agrees_refl, hvs]
        · simp [agreesAll, hnot]
      · obtain ⟨t, v, ht, hv, hnot⟩ := exists_not_agrees hu
        refine ⟨t :: us, v :: us, ?_, ?_, ?_⟩
        · simp [agreesAll, agreesAll_refl, ht]
        · simp [agreesAll, agreesAll_refl, hv]
        · simp [agreesAll, hnot]
end

/-- Agreement chains through exactly those types that list all parameters. -/
theorem specified_iff_chains {u : Ty} :
    u.Specified ↔ ∀ t v : Ty, t.agrees u = true → u.agrees v = true → t.agrees v = true := by
  constructor
  · intro hu t v htu huv
    exact agrees_trans hu htu huv
  · intro hchains
    refine Classical.byContradiction fun hu => ?_
    obtain ⟨t, v, htu, huv, hnot⟩ := exists_not_agrees hu
    rw [hchains t v htu huv] at hnot
    cases hnot

/-! ## What agreeing types share -/

/-- Only functions agree with anything but themselves. -/
theorem eq_or_isFunction_of_agrees {t u : Ty} (h : t.agrees u = true) :
    t = u ∨ t.isFunction = true ∧ u.isFunction = true := by
  cases t <;> cases u <;> simp_all [agrees, isFunction]

theorem size_of_isFunction {t : Ty} (h : t.isFunction = true) : t.size = 0 := by
  cases t with
  | func | funcUnspecified => rfl
  | _ => cases h

theorem promote_of_isFunction {t : Ty} (h : t.isFunction = true) : t.promote = t := by
  cases t with
  | func | funcUnspecified => rfl
  | _ => cases h

theorem size_of_agrees {t u : Ty} (h : t.agrees u = true) : t.size = u.size := by
  rcases eq_or_isFunction_of_agrees h with rfl | ⟨ht, hu⟩
  · rfl
  · rw [size_of_isFunction ht, size_of_isFunction hu]

theorem agrees_promote {t u : Ty} (h : t.agrees u = true) : t.promote.agrees u.promote = true := by
  rcases eq_or_isFunction_of_agrees h with rfl | ⟨ht, hu⟩
  · exact agrees_refl _
  · rw [promote_of_isFunction ht, promote_of_isFunction hu]
    exact h

/-! ## Compatibility -/

theorem compatible_comm (t u : Ty) : t.compatible u = u.compatible t := by
  simp only [compatible, agrees_comm t.promote u.promote,
    Bool.and_comm u.promote.isScalar, Bool.or_assoc,
    Bool.or_comm (isGenericPair u.promote t.promote)]

theorem compatible_promote (t u : Ty) : t.promote.compatible u.promote = t.compatible u := by
  simp only [compatible, promote_promote]

theorem compatible_promote_left (t u : Ty) : t.promote.compatible u = t.compatible u := by
  rw [← compatible_promote, promote_promote, compatible_promote]

/-- Single values and arrays are compatible with themselves, functions and errors with nothing. -/
theorem compatible_self_iff {t : Ty} : t.compatible t = true ↔ t.isLogical = true := by
  simp only [compatible, agrees_refl, Bool.true_or, Bool.and_true, Bool.and_self]
  cases t with
  | scalar b d => cases b <;> cases d <;> simp [promote, isScalar, isLogical]
  | _ => simp [promote, isScalar, isArray, isLogical]

theorem size_promote_of_compatible {t u : Ty} (h : t.compatible u = true) :
    t.promote.size = u.promote.size := by
  rw [← compatible_promote] at h
  exact (size_of_compatible (promote_promote t) (promote_promote u) h).2.2

/-- The laws of agreement and compatibility. Agreement is reflexive and symmetric, chains through a
type exactly when the type has no unspecified parameter list at any depth, and keeps sizes and
promotions. Compatibility is symmetric and blind to promotion, holds between a type and itself for
single values and arrays only, and never between values that differ in size. -/
theorem agreement_laws :
    (∀ t : Ty, t.agrees t = true) ∧
    (∀ t u : Ty, t.agrees u = u.agrees t) ∧
    (∀ u : Ty, u.Specified ↔
      ∀ t v : Ty, t.agrees u = true → u.agrees v = true → t.agrees v = true) ∧
    (∀ t u : Ty, t.agrees u = true → t.size = u.size ∧ t.promote.agrees u.promote = true) ∧
    (∀ t u : Ty, t.compatible u = u.compatible t) ∧
    (∀ t u : Ty, t.promote.compatible u = t.compatible u ∧
      t.compatible u.promote = t.compatible u) ∧
    (∀ t : Ty, t.compatible t = true ↔ t.isScalar = true ∨ t.isArray = true) ∧
    ∀ t u : Ty, t.compatible u = true → t.promote.size = u.promote.size := by
  refine ⟨agrees_refl, agrees_comm, fun u => specified_iff_chains, ?_, compatible_comm, ?_, ?_, ?_⟩
  · intro t u h
    exact ⟨size_of_agrees h, agrees_promote h⟩
  · intro t u
    constructor
    · exact compatible_promote_left t u
    · rw [compatible_comm, compatible_promote_left, compatible_comm]
  · intro t
    rw [compatible_self_iff, isLogical, Bool.or_eq_true]
  · intro t u h
    exact size_promote_of_compatible h

/-- A function that takes a function is agreed with by one whose own parameter does not list its
parameters, and agrees with one that lists nothing; an array is compatible with a pointer. -/
theorem agreement_laws_nested :
    let u : Ty := .func .int 0 [.func .char 1 [.int]]
    let t : Ty := .func .int 0 [.funcUnspecified .char 1]
    let v : Ty := .funcUnspecified .int 0
    let a : Ty := .array .int 0 5
    let p : Ty := .scalar .int 1
    u.Specified ∧ t.agrees u = true ∧ u.agrees v = true ∧ t.agrees v = true ∧
      t.size = u.size ∧ t.promote.agrees u.promote = true ∧
      a.compatible p = true ∧ a.promote.size = p.promote.size := by
  intro u t v a p
  have hu : u.Specified := ⟨⟨trivial, trivial⟩, trivial⟩
  have htu : t.agrees u = true := by simp [t, u, agrees, agreesAll]
  have huv : u.agrees v = true := by simp [u, v, agrees]
  have hap : a.compatible p = true := by
    simp [a, p, compatible, promote, isScalar, agrees]
  obtain ⟨-, -, hchains, hshared, -, -, -, hsizes⟩ := agreement_laws
  exact ⟨hu, htu, huv, (hchains u).mp hu t v htu huv, (hshared t u htu).1, (hshared t u htu).2, hap,
    hsizes a p hap⟩

end LittleC.Ty
