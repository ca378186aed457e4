import LittleC.Proofs.Outline.Forest
import LittleC.Proofs.Ty.Display
import Mathlib.Data.List.Nodup

/-! # Headlines

Every line of an outline opens with a word that tells which kind of node it stands for. Behind the
word stand numbers, names, literals and types, which are told apart by the blanks between them, the
quote that ends a literal and the sign in front of an offset. -/

namespace LittleC

/-! ## Characters of numbers and types -/

theorem intText_injective {m n : Int} (h : (toString m).toList = (toString n).toList) : m = n := by
  have hsign {k : Nat} {cs : List Char} : (toString k).toList ≠ '-' :: cs := by
    intro heq
    have hdigit : ('-').isDigit = true := isDigit_of_mem_natText (heq ▸ List.mem_cons_self)
    exact absurd hdigit (by decide)
  have hneg (k : Nat) : (toString (Int.negSucc k)).toList = '-' :: (toString (k + 1)).toList :=
    String.toList_append
  cases m with
  | ofNat m =>
      cases n with
      | ofNat n => exact congrArg Int.ofNat (natText_injective h)
      | negSucc n => exact absurd (h.trans (hneg n)) hsign
  | negSucc m =>
      cases n with
      | ofNat n => exact absurd (h.symm.trans (hneg m)) hsign
      | negSucc n =>
          rw [hneg, hneg] at h
          exact congrArg Int.negSucc (Nat.succ.inj (natText_injective (List.cons.inj h).2))

/-- A number is written with digits and a sign. -/
theorem isDigit_of_mem_intText {n : Int} {c : Char} (h : c ∈ (toString n).toList) :
    c.isDigit = true ∨ c = '-' := by
  cases n with
  | ofNat n => exact .inl (isDigit_of_mem_natText h)
  | negSucc n =>
      change c ∈ ("-" ++ (n + 1).repr).toList at h
      rw [String.toList_append, List.mem_append] at h
      rcases h with h | h
      · exact .inr (List.mem_singleton.mp h)
      · exact .inl (isDigit_of_mem_natText h)

namespace Ty

/-- The characters of the text of a type. -/
def isTextChar (c : Char) : Bool :=
  isLeadChar c || c.isDigit || c == '[' || c == ']' || c == '(' || c == ')' || c == ','

mutual
theorem isTextChar_of_mem : ∀ {t : Ty} {c : Char}, c ∈ t.text.toList → isTextChar c = true
  | .error, c, h => by
      have herror : "error".toList.all isTextChar = true := by decide
      exact List.all_eq_true.mp herror c h
  | .scalar b d, c, h => by simp [isTextChar, isLeadChar_of_mem_lead h]
  | .array b d n, c, h => by
      simp only [text, String.toList_append, List.mem_append] at h
      rcases h with ((h | h) | h) | h
      · simp [isTextChar, isLeadChar_of_mem_lead h]
      · rw [List.mem_singleton.mp h]
        decide
      · simp [isTextChar, isDigit_of_mem_natText h]
      · rw [List.mem_singleton.mp h]
        decide
  | .func b d ps, c, h => by
      simp only [text, String.toList_append, List.mem_append] at h
      rcases h with ((h | h) | h) | h
      · simp [isTextChar, isLeadChar_of_mem_lead h]
      · rw [List.mem_singleton.mp h]
        decide
      · exact isTextChar_of_mem_all h
      · rw [List.mem_singleton.mp h]
        decide
  | .funcUnspecified b d, c, h => by
      simp only [text, String.toList_append, List.mem_append] at h
      have hlist : "()".toList.all isTextChar = true := by decide
      rcases h with h | h
      · simp [isTextChar, isLeadChar_of_mem_lead h]
      · exact List.all_eq_true.mp hlist c h

theorem isTextChar_of_mem_all : ∀ {ts : List Ty} {c : Char}, c ∈ (textAll ts).toList →
    isTextChar c = true
  | t :: ts, c, h => by
      rw [textAll, String.toList_append, List.mem_append] at h
      rcases h with h | h
      · exact isTextChar_of_mem h
      · exact isTextChar_of_mem_more h

theorem isTextChar_of_mem_more : ∀ {ts : List Ty} {c : Char}, c ∈ (textMore ts).toList →
    isTextChar c = true
  | t :: ts, c, h => by
      simp only [textMore, String.toList_append, List.mem_append] at h
      have hcomma : ", ".toList.all isTextChar = true := by decide
      rcases h with (h | h) | h
      · exact List.all_eq_true.mp hcomma c h
      · exact isTextChar_of_mem h
      · exact isTextChar_of_mem_more h
end

theorem not_mem_text {c : Char} (hc : isTextChar c = false) (t : Ty) : c ∉ t.text.toList := by
  intro h
  rw [isTextChar_of_mem h] at hc
  cases hc

end Ty

/-! ## Titles -/

/-- The kinds of expressions that an outline tells apart. -/
inductive Expr.Title where
  | number
  | text
  | ident
  | call
  | unary (op : UnaryOp)
  | cast
  | binary (op : BinaryOp)
  deriving DecidableEq

/-- What a line of an outline stands for. -/
inductive Title where
  | node (t : Expr.Title)
  | assign
  | ret
  | loop
  | cond
  | otherwise
  | block
  | declare
  | function
  deriving DecidableEq

def Expr.Title.word : Expr.Title → String
  | number => "Number"
  | text => "String"
  | ident => "Identifier"
  | call => "Call"
  | unary op => op.title
  | cast => "Cast"
  | binary op => op.title

namespace Title

/-- The word that the line opens with. -/
def word : Title → String
  | node t => t.word
  | assign => "Assign"
  | ret => "Return"
  | loop => "While"
  | cond => "If"
  | otherwise => "Else"
  | block => "Block"
  | declare => "Declare"
  | function => "Function"

def all : List Title :=
  (([.number, .text, .ident, .call, .cast] : List Expr.Title) ++ UnaryOp.all.map Expr.Title.unary ++
    BinaryOp.all.map Expr.Title.binary).map .node ++
    [.assign, .ret, .loop, .cond, .otherwise, .block, .declare, .function]

theorem mem_all (t : Title) : t ∈ all := by
  cases t with
  | node t =>
      cases t with
      | unary op => cases op <;> decide
      | binary op =>
          cases op with
          | compare c => cases c <;> decide
          | _ => decide
      | _ => decide
  | _ => decide

theorem word_injective {t u : Title} (h : t.word = u.word) : t = u := by
  have hnodup : (all.map word).Nodup := by decide
  exact List.inj_on_of_nodup_map hnodup (mem_all t) (mem_all u) h

theorem unspaced_word (t : Title) : ∀ c ∈ t.word.toList, (c != ' ') = true := by
  have hall : ∀ t ∈ all, t.word.toList.all (· != ' ') = true := by decide
  exact List.all_eq_true.mp (hall t (mem_all t))

theorem unbroken_word (t : Title) : Unbroken t.word := by
  have hall : ∀ t ∈ all, Unbroken t.word := by decide
  exact hall t (mem_all t)

theorem word_ne_nil (t : Title) : t.word.toList ≠ [] := by
  have hall : ∀ t ∈ all, t.word.toList ≠ [] := by decide
  exact hall t (mem_all t)

/-- The word of the title stands in front of the first blank. -/
def Opens (t : Title) (text : String) : Prop := text.toList.takeWhile (· != ' ') = t.word.toList

theorem opens_word (t : Title) : t.Opens t.word :=
  List.takeWhile_eq_self_iff.mpr (t.unspaced_word)

theorem opens_append (t : Title) (rest : String) : t.Opens (t.word ++ " " ++ rest) := by
  rw [Opens, String.append_assoc, String.toList_append,
    List.takeWhile_append_of_pos t.unspaced_word, String.toList_append]
  exact List.append_nil _

variable {t u : Title} {text : String}

theorem Opens.unique (h : t.Opens text) (h' : u.Opens text) : t = u :=
  word_injective (String.toList_inj.mp (h.symm.trans h'))

/-- A line with a title begins at its own depth. -/
theorem Opens.flush (h : t.Opens text) (hbreak : Unbroken text) : Flush text := by
  refine ⟨hbreak, ?_⟩
  rintro c hc rfl
  obtain ⟨cs, hchars⟩ : ∃ cs, text.toList = ' ' :: cs := by
    cases hlist : text.toList with
    | nil => simp [hlist] at hc
    | cons c cs =>
        rw [hlist] at hc
        cases hc
        exact ⟨cs, rfl⟩
  rw [Opens, hchars] at h
  exact t.word_ne_nil h.symm

theorem flush_word (t : Title) : Flush t.word := (opens_word t).flush t.unbroken_word

end Title

/-! ## What stands behind a title -/

/-- The name has no blanks and no line breaks. -/
def Unspaced (name : String) : Prop := ∀ c ∈ name.toList, c.isWhitespace = false

instance (name : String) : Decidable (Unspaced name) :=
  List.decidableBAll _ name.toList

/-- The literal ends with a quote and stands on one line. -/
def Quoted (literal : String) : Prop := literal.toList.getLast? = some '"' ∧ Unbroken literal

instance (literal : String) : Decidable (Quoted literal) :=
  inferInstanceAs (Decidable (literal.toList.getLast? = some '"' ∧ Unbroken literal))

section
variable {a b x y : String}

theorem Unspaced.not_blank (h : Unspaced a) : ' ' ∉ a.toList := fun hmem =>
  absurd (h ' ' hmem) (by decide)

theorem Unspaced.unbroken (h : Unspaced a) : Unbroken a := fun hmem =>
  absurd (h '\n' hmem) (by decide)

theorem unbroken_spaced (ha : Unbroken a) (hx : Unbroken x) : Unbroken (a ++ " " ++ x) :=
  unbroken_append.mpr ⟨unbroken_append.mpr ⟨ha, by decide⟩, hx⟩

theorem toList_spaced (a x : String) : (a ++ " " ++ x).toList = a.toList ++ ' ' :: x.toList := by
  simp

/-- Two texts fall apart at their first blanks. -/
theorem append_inj_of_blank (ha : ' ' ∉ a.toList) (hb : ' ' ∉ b.toList)
    (h : a ++ " " ++ x = b ++ " " ++ y) : a = b ∧ x = y := by
  have hrun {a : String} (ha : ' ' ∉ a.toList) : ∀ c ∈ a.toList, (c != ' ') = true := by
    intro c hc
    exact bne_iff_ne.mpr fun heq => ha (heq ▸ hc)
  have hstop (x : String) : ∀ c ∈ (' ' :: x.toList).head?, (c != ' ') = false := by
    rintro c ⟨⟩
    rfl
  have hchars := congrArg String.toList h
  rw [toList_spaced, toList_spaced] at hchars
  obtain ⟨hfirst, hrest⟩ := append_inj_of_run (hrun ha) (hrun hb) (hstop x) (hstop y) hchars
  exact ⟨String.toList_inj.mp hfirst, String.toList_inj.mp (List.cons.inj hrest).2⟩

/-- Two literals end at the last quote. -/
theorem append_inj_of_quote (ha : Quoted a) (hb : Quoted b) (hx : '"' ∉ x.toList)
    (hy : '"' ∉ y.toList) (h : a ++ " " ++ x = b ++ " " ++ y) : a = b ∧ x = y := by
  -- Read backwards, a literal begins with the first quote.
  have hrun {x : String} (hx : '"' ∉ x.toList) :
      ∀ c ∈ x.toList.reverse ++ [' '], (c != '"') = true := by
    intro c hc
    refine bne_iff_ne.mpr ?_
    rintro rfl
    rcases List.mem_append.mp hc with hc | hc
    · exact hx (List.mem_reverse.mp hc)
    · exact absurd hc (by decide)
  have hstop {a : String} (ha : Quoted a) : ∀ c ∈ a.toList.reverse.head?, (c != '"') = false := by
    intro c hc
    rw [List.head?_reverse, ha.1] at hc
    cases hc
    rfl
  have hchars := congrArg (fun s => s.toList.reverse) h
  simp only [toList_spaced, List.reverse_append, List.reverse_cons] at hchars
  obtain ⟨hback, hfront⟩ := append_inj_of_run (hrun hx) (hrun hy) (hstop ha) (hstop hb) hchars
  have htail := List.reverse_injective (List.append_cancel_right hback)
  exact ⟨String.toList_inj.mp (List.reverse_injective hfront), String.toList_inj.mp htail⟩

end

end LittleC
