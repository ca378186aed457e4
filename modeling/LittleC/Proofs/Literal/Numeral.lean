import LittleC.Literal.Integer
import Mathlib.Data.Nat.Digits.Lemmas

/-! # The grammar of integer constants

The grammar speaks of runs of digits and of the number that a run denotes in its base. Reading a
constant splits the same text from both ends: the suffix first, then the mark of the radix, and
folds over what is left. No digit is a suffix and no octal digit the mark of a hexadecimal constant,
so both splits are the grammar's. -/

namespace LittleC

namespace IntegerLiteral

/-! ## Grammar -/

def lowerDigits : List Char :=
  ['0', '1', '2', '3', '4', '5', '6', '7', '8', '9', 'a', 'b', 'c', 'd', 'e', 'f']

def upperDigits : List Char :=
  ['0', '1', '2', '3', '4', '5', '6', '7', '8', '9', 'A', 'B', 'C', 'D', 'E', 'F']

/-- The character is the digit of the given value in the base, letters in either case. -/
def Digit (base : Nat) (c : Char) (d : Nat) : Prop :=
  d < base ∧ (lowerDigits[d]? = some c ∨ upperDigits[d]? = some c)

instance (base : Nat) (c : Char) (d : Nat) : Decidable (Digit base c d) :=
  inferInstanceAs (Decidable (_ ∧ _))

def IsDigit (base : Nat) (c : Char) : Prop := ∃ d, Digit base c d

/-- A run of one or more digits and the number it denotes, the most significant digit first. -/
def Run (base : Nat) (cs : List Char) (n : Nat) : Prop :=
  cs ≠ [] ∧ ∃ ds, List.Forall₂ (Digit base) cs ds ∧ n = Nat.ofDigits base ds.reverse

/-- A constant without its suffix and the number it denotes. -/
inductive Numeral : List Char → Nat → Prop where
  | zero : Numeral ['0'] 0
  | decimal {cs n} : cs.head? ≠ some '0' → Run 10 cs n → Numeral cs n
  | octal {cs n} : Run 8 cs n → Numeral ('0' :: cs) n
  | hex {x cs n} : x = 'x' ∨ x = 'X' → Run 16 cs n → Numeral ('0' :: x :: cs) n

/-- A constant with the number it denotes, and whether it ends with the suffix. -/
inductive Spelled : List Char → Nat → Bool → Prop where
  | plain {cs n} : Numeral cs n → Spelled cs n false
  | long {cs n c} : Numeral cs n → c = 'l' ∨ c = 'L' → Spelled (cs ++ [c]) n true

/-! ## Digits -/

theorem Digit.mem {base d : Nat} {c : Char} (h : Digit base c d) : c ∈ lowerDigits ++ upperDigits :=
  List.mem_append.mpr (h.2.imp List.mem_of_getElem? List.mem_of_getElem?)

theorem Digit.lt_ascii {base d : Nat} {c : Char} (h : Digit base c d) : c.toNat < 128 := by
  have hall : (lowerDigits ++ upperDigits).all (·.toNat < 128) = true := by decide
  exact of_decide_eq_true (List.all_eq_true.mp hall c h.mem)

theorem Digit.not_suffix {base d : Nat} {c : Char} (h : Digit base c d) : ¬(c = 'l' ∨ c = 'L') := by
  rintro (rfl | rfl)
  · exact absurd h.mem (by decide)
  · exact absurd h.mem (by decide)

theorem Digit.not_mark {base d : Nat} {c : Char} (h : Digit base c d) : ¬(c = 'x' ∨ c = 'X') := by
  rintro (rfl | rfl)
  · exact absurd h.mem (by decide)
  · exact absurd h.mem (by decide)

end IntegerLiteral

namespace Radix

open IntegerLiteral

theorem base_le (r : Radix) : r.base ≤ 16 := by
  cases r <;> decide

theorem lt_base_of_digit? {r : Radix} {c : Char} {d : Nat} (h : r.digit? c = some d) :
    d < r.base := by
  have := (Option.filter_eq_some_iff.mp h).2
  simpa using this

theorem lt_ascii_of_digit? {r : Radix} {c : Char} {d : Nat} (h : r.digit? c = some d) :
    c.toNat < 128 := by
  have hvalue := (Option.filter_eq_some_iff.mp h).1
  have hbelow : ∀ hi : Char, c ≤ hi → hi.toNat < 128 → c.toNat < 128 :=
    fun hi hle hlt => Nat.lt_of_le_of_lt hle hlt
  split at hvalue
  · next hc => exact hbelow '9' hc.2 (by decide)
  · split at hvalue
    · next hc => exact hbelow 'f' hc.2 (by decide)
    · split at hvalue
      · next hc => exact hbelow 'F' hc.2 (by decide)
      · cases hvalue

/-- The digits among the first 128 characters, one by one. -/
theorem digit?_ofNat (r : Radix) : ∀ k < 128, ∀ d < 16,
    r.digit? (Char.ofNat k) = some d ↔ Digit r.base (Char.ofNat k) d := by
  cases r <;> decide +kernel

theorem digit?_eq_some {r : Radix} {c : Char} {d : Nat} :
    r.digit? c = some d ↔ Digit r.base c d := by
  have hbase := r.base_le
  have hchecked : c.toNat < 128 → d < 16 → (r.digit? c = some d ↔ Digit r.base c d) := by
    intro hc hd
    have h := r.digit?_ofNat c.toNat hc d hd
    rwa [Char.ofNat_toNat] at h
  constructor
  · intro h
    have hd := lt_base_of_digit? h
    exact (hchecked (lt_ascii_of_digit? h) (by omega)).mp h
  · intro h
    have hd := h.1
    exact (hchecked h.lt_ascii (by omega)).mpr h

theorem isDigit_iff {r : Radix} {c : Char} : r.isDigit c = true ↔ IsDigit r.base c := by
  simp only [isDigit, Option.isSome_iff_exists, digit?_eq_some, IsDigit]

/-- A fold that starts at `a` puts the digits of `a` before the run. -/
theorem foldlM_eq_some {r : Radix} {cs : List Char} {a n : Nat} :
    cs.foldlM (fun n c => (r.digit? c).map (n * r.base + ·)) a = some n ↔
      ∃ ds, List.Forall₂ (Digit r.base) cs ds ∧
        n = Nat.ofDigits r.base ds.reverse + r.base ^ ds.length * a := by
  induction cs generalizing a with
  | nil => simp [eq_comm]
  | cons c cs ih =>
    rw [List.foldlM_cons, Option.bind_eq_bind, Option.bind_eq_some_iff]
    constructor
    · rintro ⟨_, hfirst, hrest⟩
      obtain ⟨d, hd, rfl⟩ := Option.map_eq_some_iff.mp hfirst
      obtain ⟨ds, hds, rfl⟩ := ih.mp hrest
      refine ⟨d :: ds, .cons (digit?_eq_some.mp hd) hds, ?_⟩
      simp only [List.reverse_cons, Nat.ofDigits_append, Nat.ofDigits_singleton,
        List.length_reverse, List.length_cons, pow_succ]
      ring
    · rintro ⟨_, hds, rfl⟩
      obtain ⟨d, ds, hd, hrest, rfl⟩ := List.forall₂_cons_left_iff.mp hds
      refine ⟨a * r.base + d, by rw [digit?_eq_some.mpr hd]; rfl, ih.mpr ⟨ds, hrest, ?_⟩⟩
      simp only [List.reverse_cons, Nat.ofDigits_append, Nat.ofDigits_singleton,
        List.length_reverse, List.length_cons, pow_succ]
      ring

theorem number?_eq_some {r : Radix} {cs : List Char} {n : Nat} (hne : cs ≠ []) :
    r.number? cs = some n ↔ Run r.base cs n := by
  unfold number? Run
  rw [foldlM_eq_some]
  simp [hne]

end Radix

namespace IntegerLiteral

/-! ## The mark of the radix -/

theorem Run.digits {base n : Nat} {cs : List Char} (h : Run base cs n) :
    ∀ c ∈ cs, IsDigit base c := by
  obtain ⟨-, ds, hds, -⟩ := h
  induction hds with
  | nil => simp
  | cons hd _ ih => exact List.forall_mem_cons.mpr ⟨⟨_, hd⟩, ih⟩

theorem splitRadix_of_head {cs : List Char} (h : cs.head? ≠ some '0') :
    splitRadix cs = (.decimal, cs) := by
  unfold splitRadix
  split
  · simp at h
  · simp at h
  · simp at h
  · rfl

theorem splitRadix_octal {c : Char} {cs : List Char} (h : ¬(c = 'x' ∨ c = 'X')) :
    splitRadix ('0' :: c :: cs) = (.octal, c :: cs) := by
  unfold splitRadix
  split
  · next heq => cases heq; simp at h
  · next heq => cases heq; simp at h
  · next heq => cases heq; rfl
  · next hother => exact absurd rfl (hother c cs)

theorem run_zero {n : Nat} : Run 10 ['0'] n ↔ n = 0 := by
  have h : Radix.decimal.number? ['0'] = some n ↔ Run 10 ['0'] n := Radix.number?_eq_some (by simp)
  exact h.symm.trans ⟨fun h => (Option.some.inj h).symm, fun h => h ▸ rfl⟩

/-- What the mark of the radix leaves is a run in that radix, for numerals and for no other text. -/
theorem numeral_iff {cs : List Char} {n : Nat} :
    Numeral cs n ↔ Run (splitRadix cs).1.base (splitRadix cs).2 n := by
  constructor
  · intro h
    cases h with
    | zero => exact run_zero.mpr rfl
    | decimal hhead hrun =>
      rw [splitRadix_of_head hhead]
      exact hrun
    | @octal cs n hrun =>
      obtain ⟨c, cs, rfl⟩ := List.exists_cons_of_ne_nil hrun.1
      obtain ⟨d, hd⟩ := hrun.digits c (by simp)
      rw [splitRadix_octal hd.not_mark]
      exact hrun
    | hex hx hrun =>
      rcases hx with rfl | rfl
      · exact hrun
      · exact hrun
  · intro h
    unfold splitRadix at h
    split at h
    · exact .hex (.inl rfl) h
    · exact .hex (.inr rfl) h
    · exact .octal h
    · next _ _ hmore =>
      by_cases hhead : cs.head? = some '0'
      · obtain ⟨rest, rfl⟩ := List.head?_eq_some_iff.mp hhead
        cases rest with
        | nil => exact run_zero.mp h ▸ .zero
        | cons c rest => exact absurd rfl (hmore c rest)
      · exact .decimal hhead h

/-! ## The suffix -/

theorem splitSuffix_append {cs : List Char} {c : Char} (h : c = 'l' ∨ c = 'L') :
    splitSuffix (cs ++ [c]) = (cs, true) := by
  unfold splitSuffix
  rcases h with rfl | rfl
  · simp
  · simp

theorem splitSuffix_of_last {cs : List Char}
    (h : ∀ c, cs.getLast? = some c → ¬(c = 'l' ∨ c = 'L')) : splitSuffix cs = (cs, false) := by
  unfold splitSuffix
  split
  · next heq => exact absurd (.inl rfl) (h 'l' heq)
  · next heq => exact absurd (.inr rfl) (h 'L' heq)
  · rfl

theorem getLast?_cons_of_ne {a : Char} {cs : List Char} (h : cs ≠ []) :
    (a :: cs).getLast? = cs.getLast? := by
  obtain ⟨b, cs, rfl⟩ := List.exists_cons_of_ne_nil h
  exact List.getLast?_cons_cons

theorem Run.last_not_suffix {base n : Nat} {cs : List Char} (h : Run base cs n) {c : Char}
    (hc : cs.getLast? = some c) : ¬(c = 'l' ∨ c = 'L') := by
  obtain ⟨d, hd⟩ := h.digits c (List.mem_of_getLast? hc)
  exact hd.not_suffix

theorem Numeral.last_not_suffix {cs : List Char} {n : Nat} (h : Numeral cs n) {c : Char}
    (hc : cs.getLast? = some c) : ¬(c = 'l' ∨ c = 'L') := by
  cases h with
  | zero =>
    cases hc
    decide
  | decimal _ hrun => exact hrun.last_not_suffix hc
  | octal hrun => exact hrun.last_not_suffix (getLast?_cons_of_ne hrun.1 ▸ hc)
  | hex _ hrun =>
    rw [List.getLast?_cons_cons, getLast?_cons_of_ne hrun.1] at hc
    exact hrun.last_not_suffix hc

theorem spelled_iff {cs : List Char} {n : Nat} {long : Bool} :
    Spelled cs n long ↔ Numeral (splitSuffix cs).1 n ∧ (splitSuffix cs).2 = long := by
  constructor
  · intro h
    cases h with
    | plain h =>
      rw [splitSuffix_of_last fun _ => h.last_not_suffix]
      exact ⟨h, rfl⟩
    | long h hc =>
      rw [splitSuffix_append hc]
      exact ⟨h, rfl⟩
  · rintro ⟨h, rfl⟩
    by_cases hlast : ∃ c, cs.getLast? = some c ∧ (c = 'l' ∨ c = 'L')
    · obtain ⟨c, hc, hsuffix⟩ := hlast
      rw [← List.dropLast_append_getLast? c hc, splitSuffix_append hsuffix] at h ⊢
      exact .long h hsuffix
    · have hplain := splitSuffix_of_last fun c hc hsuffix => hlast ⟨c, hc, hsuffix⟩
      rw [hplain] at h ⊢
      exact .plain h

/-! ## Constants -/

theorem Spelled.unique {cs : List Char} {n n' : Nat} {long long' : Bool} (h : Spelled cs n long)
    (h' : Spelled cs n' long') : n = n' ∧ long = long' := by
  obtain ⟨hn, hlong⟩ := spelled_iff.mp h
  obtain ⟨hn', hlong'⟩ := spelled_iff.mp h'
  rw [numeral_iff] at hn hn'
  have hread := (Radix.number?_eq_some hn.1).mpr hn
  have hread' := (Radix.number?_eq_some hn'.1).mpr hn'
  exact ⟨Option.some.inj (hread.symm.trans hread'), hlong.symm.trans hlong'⟩

theorem parse?_eq_some {text : String} {l : IntegerLiteral} :
    parse? text = some l ↔
      ∃ n long, Spelled text.toList n long ∧ n ≤ 2 ^ 63 - 1 ∧ l = ⟨n, long⟩ := by
  simp only [spelled_iff, numeral_iff, parse?]
  generalize splitSuffix text.toList = body
  generalize splitRadix body.1 = digits
  by_cases hne : digits.2 = []
  · simp [hne, Run]
  · simp only [← Radix.number?_eq_some hne, List.isEmpty_iff, hne, if_false]
    cases digits.1.number? digits.2 with
    | none => simp
    | some n =>
      have hbound : n < 0x8000000000000000 ↔ n ≤ 2 ^ 63 - 1 := by omega
      simp [hbound, and_comm, eq_comm]

theorem isLong_iff {n : Nat} {long : Bool} :
    isLong ⟨n, long⟩ = true ↔ long = true ∨ 2 ^ 31 - 1 < n := by
  have hfits : Ty.fitsInt n = true ↔ n ≤ 2 ^ 31 - 1 := by
    simp only [Ty.fitsInt, Bool.and_eq_true, decide_eq_true_eq]
    omega
  rw [isLong, Bool.or_eq_true, Bool.not_eq_true', ← Bool.not_eq_true, hfits, Nat.not_le]

/-- A text is read exactly when it is a constant of the grammar that fits 63 bits, and then as the
number it denotes; the constant is `long` by its suffix or because it does not fit 31 bits. -/
theorem parse_spelled (text : String) :
    ((parse? text).isSome = true ↔ ∃ n long, Spelled text.toList n long ∧ n ≤ 2 ^ 63 - 1) ∧
      ∀ l n long, parse? text = some l → Spelled text.toList n long →
        l.value = n ∧ l.longSuffix = long ∧ (l.isLong = true ↔ long = true ∨ 2 ^ 31 - 1 < n) := by
  constructor
  · rw [Option.isSome_iff_exists]
    constructor
    · rintro ⟨l, h⟩
      obtain ⟨n, long, hspelled, hn, -⟩ := parse?_eq_some.mp h
      exact ⟨n, long, hspelled, hn⟩
    · rintro ⟨n, long, hspelled, hn⟩
      exact ⟨_, parse?_eq_some.mpr ⟨n, long, hspelled, hn, rfl⟩⟩
  · intro l n long h hspelled
    obtain ⟨n', long', hspelled', -, rfl⟩ := parse?_eq_some.mp h
    obtain ⟨rfl, rfl⟩ := hspelled.unique hspelled'
    exact ⟨rfl, rfl, isLong_iff⟩

theorem spelled_hex : Spelled "0x80000000L".toList 0x80000000 true := by
  have hrun : Run 16 "80000000".toList 0x80000000 :=
    ⟨by decide, [8, 0, 0, 0, 0, 0, 0, 0], by decide, by decide⟩
  exact .long (.hex (.inl rfl) hrun) (.inr rfl)

theorem parse_spelled_hex :
    ∃ l, parse? "0x80000000L" = some l ∧ l.value = 0x80000000 ∧
      l.longSuffix = true ∧ l.isLong = true := by
  obtain ⟨hread, hvalue⟩ := parse_spelled "0x80000000L"
  obtain ⟨l, hl⟩ := Option.isSome_iff_exists.mp (hread.mpr ⟨_, _, spelled_hex, by decide⟩)
  obtain ⟨hn, hsuffix, hlong⟩ := hvalue l _ _ hl spelled_hex
  exact ⟨l, hl, hn, hsuffix, hlong.mpr (.inl rfl)⟩

end IntegerLiteral

end LittleC
