import Mathlib.Data.List.TakeWhile
import Mathlib.Data.String.Basic

/-! # Lines and runs of characters

A text is read back piece by piece: it falls into lines at its line breaks, and a run of characters
of one kind ends where another kind begins. -/

namespace LittleC

/-! ## Lines of a text -/

/-- The lines of a text; behind the last line break stands an empty one. -/
def textLines (text : String) : List String := (text.toList.splitOn '\n').map String.ofList

/-- The text fits on one line. -/
def Unbroken (text : String) : Prop := '\n' ∉ text.toList

instance (text : String) : Decidable (Unbroken text) := inferInstanceAs (Decidable (¬_))

/-- Every line ended by a line break. -/
def ofLines (lines : List String) : String := String.join (lines.map fun l => l ++ "\n")

theorem ofLines_cons (line : String) (lines : List String) :
    ofLines (line :: lines) = line ++ "\n" ++ ofLines lines := String.join_cons

theorem ofLines_append : ∀ lines lines' : List String,
    ofLines (lines ++ lines') = ofLines lines ++ ofLines lines'
  | [], _ => (String.empty_append).symm
  | line :: lines, lines' => by
      rw [List.cons_append, ofLines_cons, ofLines_append lines, ofLines_cons, String.append_assoc,
        String.append_assoc, String.append_assoc]

theorem ofLines_flatMap {α : Type} (f : α → List String) (xs : List α) :
    ofLines (xs.flatMap f) = String.join (xs.map fun x => ofLines (f x)) := by
  induction xs with
  | nil => rfl
  | cons x xs ih => rw [List.flatMap_cons, ofLines_append, ih, List.map_cons, String.join_cons]

theorem textLines_append {line : String} (h : Unbroken line) (rest : String) :
    textLines (line ++ "\n" ++ rest) = line :: textLines rest := by
  have hbreak : "\n".toList = ['\n'] := rfl
  have hline : ∀ c ∈ line.toList, (c == '\n') = false := fun c hc =>
    beq_eq_false_iff_ne.mpr fun heq => h (heq ▸ hc)
  rw [textLines, String.toList_append, String.toList_append, List.append_assoc, hbreak,
    List.singleton_append, List.splitOn,
    List.splitOnP_append_cons_of_forall_mem hline _ (beq_self_eq_true _), List.map_cons,
    String.ofList_toList]
  rfl

theorem textLines_ofLines : ∀ {lines : List String}, (∀ l ∈ lines, Unbroken l) →
    textLines (ofLines lines) = lines ++ [""]
  | [], _ => rfl
  | line :: lines, h => by
      rw [ofLines_cons, textLines_append (h line List.mem_cons_self),
        textLines_ofLines fun l hl => h l (List.mem_cons_of_mem _ hl)]
      rfl

/-! ## Texts on one line -/

@[simp]
theorem unbroken_append {a b : String} : Unbroken (a ++ b) ↔ Unbroken a ∧ Unbroken b := by
  simp [Unbroken]

@[simp]
theorem unbroken_nat (n : Nat) : Unbroken n.repr := fun h => by
  rw [Nat.toList_repr] at h
  exact absurd (Nat.isDigit_of_mem_toDigits (by decide) (by decide) h) (by decide)

@[simp]
theorem unbroken_int : ∀ n : Int, Unbroken n.repr
  | .ofNat n => unbroken_nat n
  | .negSucc n => unbroken_append.mpr ⟨by decide, unbroken_nat (n + 1)⟩

/-! ## Runs -/

/-- Where a run of characters of one kind ends is told by the text. -/
theorem append_inj_of_run {p : Char → Bool} {u v x y : List Char} (hu : ∀ c ∈ u, p c = true)
    (hv : ∀ c ∈ v, p c = true) (hx : ∀ c ∈ x.head?, p c = false) (hy : ∀ c ∈ y.head?, p c = false)
    (h : u ++ x = v ++ y) : u = v ∧ x = y := by
  have hcut {w z : List Char} (hw : ∀ c ∈ w, p c = true) (hz : ∀ c ∈ z.head?, p c = false) :
      (w ++ z).takeWhile p = w := by
    rw [List.takeWhile_append_of_pos hw]
    cases z with
    | nil => simp
    | cons c z => simp [hz c rfl]
  have huv : u = v := by rw [← hcut hu hx, h, hcut hv hy]
  subst huv
  exact ⟨rfl, List.append_cancel_left h⟩

theorem natText_injective {m n : Nat} (h : (toString m).toList = (toString n).toList) : m = n := by
  rw [Nat.toString_eq_repr, Nat.toString_eq_repr, Nat.toList_repr, Nat.toList_repr] at h
  have hnumber := congrArg (Nat.ofDigitChars 10 · 0) h
  rwa [Nat.ofDigitChars_ten_toDigits, Nat.ofDigitChars_ten_toDigits] at hnumber

theorem isDigit_of_mem_natText {n : Nat} {c : Char} (h : c ∈ (toString n).toList) :
    c.isDigit = true := by
  rw [Nat.toString_eq_repr, Nat.toList_repr] at h
  exact Nat.isDigit_of_mem_toDigits (by decide) (by decide) h

end LittleC
