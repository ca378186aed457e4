import LittleC.Proofs.Text.Lines
import LittleC.Ty.Lemmas
import LittleC.Ty.Text

/-! # Reading the text of a type back

The text of a type is a run of letters, blanks and stars, and what follows it up to a comma, a
closing parenthesis or the end. So a type can be told from its text, except that an unspecified
parameter list is written as an empty one. -/

namespace LittleC

namespace Ty

mutual
/-- The type with an empty list for every unspecified one. Types that are equal once emptied are the
same in all but that an unspecified list may stand where the other has an empty one. -/
def emptied : Ty → Ty
  | .funcUnspecified b d => .func b d []
  | .func b d ps => .func b d (emptiedAll ps)
  | .error => .error
  | .scalar b d => .scalar b d
  | .array b d n => .array b d n

def emptiedAll : List Ty → List Ty
  | [] => []
  | t :: ts => t.emptied :: emptiedAll ts
end

mutual
theorem text_emptied : ∀ t : Ty, t.emptied.text = t.text
  | .funcUnspecified b d => by
      rw [emptied, text, text, textAll, String.append_empty, String.append_assoc]
      rfl
  | .func b d ps => by simp only [emptied, text, textAll_emptied ps]
  | .error | .scalar .. | .array .. => rfl

theorem textAll_emptied : ∀ ts : List Ty, textAll (emptiedAll ts) = textAll ts
  | [] => rfl
  | t :: ts => by simp only [emptiedAll, textAll, text_emptied t, textMore_emptied ts]

theorem textMore_emptied : ∀ ts : List Ty, textMore (emptiedAll ts) = textMore ts
  | [] => rfl
  | t :: ts => by simp only [emptiedAll, textMore, text_emptied t, textMore_emptied ts]
end

mutual
theorem agrees_of_emptied : ∀ {t u : Ty}, t.emptied = u.emptied → t.agrees u = true
  | .func b d ts, u, h => by
      cases u with
      | func b' d' us =>
          simp only [emptied, func.injEq] at h
          obtain ⟨rfl, rfl, hall⟩ := h
          simp [agrees, agreesAll_of_emptied hall]
      | funcUnspecified => simp_all [emptied, agrees]
      | _ => cases h
  | .funcUnspecified b d, u, h => by
      cases u <;> simp_all [emptied, agrees]
  | .error, u, h | .scalar .., u, h | .array .., u, h => by
      cases u <;> simp_all [emptied, agrees]

theorem agreesAll_of_emptied : ∀ {ts us : List Ty}, emptiedAll ts = emptiedAll us →
    agreesAll ts us = true
  | [], [], _ => rfl
  | t :: ts, u :: us, h => by
      simp only [emptiedAll, List.cons.injEq] at h
      simp [agreesAll, agrees_of_emptied h.1, agreesAll_of_emptied h.2]
end

/-! ## The front of a text -/

theorem toList_stars_succ (d : Nat) :
    (stars (d + 1)).toList = ' ' :: List.replicate (d + 1) '*' := by
  simp [stars]

theorem length_stars : ∀ d : Nat, (stars d).toList.length = if d = 0 then 0 else d + 1
  | 0 => rfl
  | d + 1 => by simp [toList_stars_succ]

theorem stars_injective {d e : Nat} (h : (stars d).toList = (stars e).toList) : d = e := by
  have hlength := congrArg List.length h
  rw [length_stars, length_stars] at hlength
  split at hlength <;> split at hlength <;> omega

/-- The characters of bases and stars. -/
def isLeadChar (c : Char) : Bool := c.isAlpha || c == ' ' || c == '*'

theorem isLeadChar_of_mem_lead {b : Base} {d : Nat} {c : Char} (h : c ∈ (lead b d).toList) :
    isLeadChar c = true := by
  rw [lead, String.toList_append, List.mem_append] at h
  rcases h with h | h
  · have hbase : b.text.toList.all isLeadChar = true := by cases b <;> decide
    exact List.all_eq_true.mp hbase c h
  · cases d with
    | zero => cases h
    | succ d =>
        rw [toList_stars_succ, List.mem_cons] at h
        rcases h with rfl | h
        · decide
        · rw [List.eq_of_mem_replicate h]
          decide

theorem lead_injective {b c : Base} {d e : Nat} (h : (lead b d).toList = (lead c e).toList) :
    b = c ∧ d = e := by
  rw [lead, lead, String.toList_append, String.toList_append] at h
  have hbase : b = c := by cases b <;> cases c <;> simp_all [Base.text]
  subst hbase
  exact ⟨rfl, stars_injective (List.append_cancel_left h)⟩

/-- What the text of a type begins with: all but length or parameters. -/
def front : Ty → List Char
  | .error => "error".toList
  | t => (lead t.base t.depth).toList

/-- Length or parameters. -/
def back : Ty → List Char
  | .error | .scalar .. => []
  | .array _ _ n => '[' :: (toString n).toList ++ [']']
  | .func _ _ ps => '(' :: (textAll ps).toList ++ [')']
  | .funcUnspecified .. => ['(', ')']

theorem toList_text (t : Ty) : t.text.toList = t.front ++ t.back := by
  cases t <;> simp [text, front, back, base, depth]

theorem isLeadChar_of_mem_front {t : Ty} {c : Char} (h : c ∈ t.front) : isLeadChar c = true := by
  cases t with
  | error =>
      have herror : "error".toList.all isLeadChar = true := by decide
      exact List.all_eq_true.mp herror c h
  | _ => exact isLeadChar_of_mem_lead h

theorem front_injective {t u : Ty} (h : t.front = u.front) :
    t.isError = u.isError ∧ t.base = u.base ∧ t.depth = u.depth := by
  have herror {b : Base} {d : Nat} : "error".toList ≠ (lead b d).toList := by
    rw [lead, String.toList_append]
    cases b <;> simp [Base.text]
  cases t with
  | error =>
      cases u with
      | error => exact ⟨rfl, rfl, rfl⟩
      | _ => exact absurd h herror
  | _ =>
      cases u with
      | error => exact absurd h.symm herror
      | _ => exact ⟨rfl, lead_injective h⟩

/-! ## The text of a type in front of others -/

/-- The text of a type can end here: no more text, or a comma or parenthesis that belongs to a list
around the type. -/
def Ends (rest : List Char) : Prop := ∀ c ∈ rest.head?, c = ',' ∨ c = ')'

theorem ends_nil : Ends [] := nofun

theorem ends_close (rest : List Char) : Ends (')' :: rest) := by
  rintro c ⟨⟩
  exact .inr rfl

theorem ends_textMore (ts : List Ty) (rest : List Char) :
    Ends ((textMore ts).toList ++ ')' :: rest) := by
  cases ts with
  | nil => exact ends_close rest
  | cons t ts =>
      rintro c hc
      rw [textMore, String.append_assoc, String.toList_append] at hc
      cases hc
      exact .inl rfl

theorem not_isLeadChar_back {t : Ty} {rest : List Char} (h : Ends rest) :
    ∀ c ∈ (t.back ++ rest).head?, isLeadChar c = false := by
  have hrest : ∀ c ∈ rest.head?, isLeadChar c = false := by
    intro c hc
    rcases h c hc with rfl | rfl <;> decide
  cases t with
  | error | scalar => exact hrest
  | array | func | funcUnspecified =>
      rintro c ⟨⟩
      decide

theorem back_of_text {t u : Ty} {x y : List Char} (hx : Ends x) (hy : Ends y)
    (h : t.text.toList ++ x = u.text.toList ++ y) :
    (t.isError = u.isError ∧ t.base = u.base ∧ t.depth = u.depth) ∧ t.back ++ x = u.back ++ y := by
  rw [toList_text, toList_text, List.append_assoc, List.append_assoc] at h
  obtain ⟨hfront, hback⟩ := append_inj_of_run (fun _ => isLeadChar_of_mem_front)
    (fun _ => isLeadChar_of_mem_front) (not_isLeadChar_back hx) (not_isLeadChar_back hy) h
  exact ⟨front_injective hfront, hback⟩

/-- A type that ends without length or parameters is told from one with them. -/
theorem not_ends_back {t : Ty} {x y : List Char} (hx : Ends x) (h : x = t.back ++ y) :
    t.back = [] := by
  subst h
  cases t with
  | error | scalar => rfl
  | array | func | funcUnspecified => rcases hx _ rfl with h | h <;> cases h

theorem exists_text (t : Ty) : ∃ c cs, t.text.toList = c :: cs ∧ c ≠ ')' := by
  rw [toList_text]
  cases t with
  | error => exact ⟨'e', _, rfl, by decide⟩
  | _ b =>
      simp only [front, base, lead, String.toList_append]
      cases b
      · exact ⟨'c', _, rfl, by decide⟩
      · exact ⟨'i', _, rfl, by decide⟩
      · exact ⟨'l', _, rfl, by decide⟩

theorem back_array_append (b : Base) (d n : Nat) (x : List Char) :
    (array b d n).back ++ x = '[' :: ((toString n).toList ++ ']' :: x) := by
  simp [back]

theorem back_func_append (b : Base) (d : Nat) (ts : List Ty) (x : List Char) :
    (func b d ts).back ++ x = '(' :: ((textAll ts).toList ++ ')' :: x) := by
  simp [back]

theorem length_of_back {m n : Nat} {x y : List Char}
    (h : (toString m).toList ++ ']' :: x = (toString n).toList ++ ']' :: y) : m = n ∧ x = y := by
  have hstop (z : List Char) : ∀ c ∈ (']' :: z).head?, c.isDigit = false := by
    rintro c ⟨⟩
    decide
  obtain ⟨hnumber, hrest⟩ := append_inj_of_run (fun _ => isDigit_of_mem_natText)
    (fun _ => isDigit_of_mem_natText) (hstop x) (hstop y) h
  exact ⟨natText_injective hnumber, (List.cons.inj hrest).2⟩

/-- A list that is closed at once is empty. -/
theorem nil_of_textAll {ts : List Ty} {x y : List Char}
    (h : (textAll ts).toList ++ ')' :: x = ')' :: y) : ts = [] ∧ x = y := by
  cases ts with
  | nil => exact ⟨rfl, (List.cons.inj h).2⟩
  | cons t ts =>
      obtain ⟨c, cs, hchars, hc⟩ := t.exists_text
      rw [textAll, String.toList_append, hchars] at h
      exact absurd (List.cons.inj h).1 hc

mutual
/-- A type is read off the text that begins with its own, in all but which empty lists are
unspecified. -/
theorem emptied_of_text : ∀ {t u : Ty} {x y : List Char}, Ends x → Ends y →
    t.text.toList ++ x = u.text.toList ++ y → t.emptied = u.emptied ∧ x = y
  | .error, u, x, y, hx, hy, h => by
      obtain ⟨⟨herror, -⟩, hback⟩ := back_of_text hx hy h
      cases u with
      | error => exact ⟨rfl, hback⟩
      | _ => cases herror
  | .scalar b d, u, x, y, hx, hy, h => by
      obtain ⟨⟨herror, hbase, hdepth⟩, hback⟩ := back_of_text hx hy h
      cases u with
      | scalar c e =>
          cases hbase
          cases hdepth
          exact ⟨rfl, hback⟩
      | error => cases herror
      | _ => cases not_ends_back hx hback
  | .array b d n, u, x, y, hx, hy, h => by
      obtain ⟨⟨herror, hbase, hdepth⟩, hback⟩ := back_of_text hx hy h
      cases u with
      | array c e m =>
          cases hbase
          cases hdepth
          rw [back_array_append, back_array_append] at hback
          obtain ⟨rfl, hrest⟩ := length_of_back (List.cons.inj hback).2
          exact ⟨rfl, hrest⟩
      | error => cases herror
      | scalar => cases not_ends_back hy hback.symm
      | _ => cases hback
  | .func b d ts, u, x, y, hx, hy, h => by
      obtain ⟨⟨herror, hbase, hdepth⟩, hback⟩ := back_of_text hx hy h
      cases u with
      | func c e us =>
          cases hbase
          cases hdepth
          rw [back_func_append, back_func_append] at hback
          obtain ⟨hall, hrest⟩ := emptiedAll_of_textAll (List.cons.inj hback).2
          exact ⟨congrArg (Ty.func b d) hall, hrest⟩
      | funcUnspecified c e =>
          cases hbase
          cases hdepth
          rw [back_func_append] at hback
          obtain ⟨rfl, hrest⟩ := nil_of_textAll (List.cons.inj hback).2
          exact ⟨rfl, hrest⟩
      | error => cases herror
      | scalar => cases not_ends_back hy hback.symm
      | array => cases hback
  | .funcUnspecified b d, u, x, y, hx, hy, h => by
      obtain ⟨⟨herror, hbase, hdepth⟩, hback⟩ := back_of_text hx hy h
      cases u with
      | func c e us =>
          cases hbase
          cases hdepth
          rw [back_func_append] at hback
          obtain ⟨rfl, hrest⟩ := nil_of_textAll (List.cons.inj hback).2.symm
          exact ⟨rfl, hrest.symm⟩
      | funcUnspecified c e =>
          cases hbase
          cases hdepth
          exact ⟨rfl, List.append_cancel_left hback⟩
      | error => cases herror
      | scalar => cases not_ends_back hy hback.symm
      | array => cases hback

theorem emptiedAll_of_textAll : ∀ {ts us : List Ty} {x y : List Char},
    (textAll ts).toList ++ ')' :: x = (textAll us).toList ++ ')' :: y →
    emptiedAll ts = emptiedAll us ∧ x = y
  | [], us, x, y, h => by
      obtain ⟨rfl, hrest⟩ := nil_of_textAll h.symm
      exact ⟨rfl, hrest.symm⟩
  | t :: ts, [], x, y, h => by
      cases (nil_of_textAll h).1
  | t :: ts, u :: us, x, y, h => by
      simp only [textAll, String.toList_append, List.append_assoc] at h
      obtain ⟨hhead, hmore⟩ := emptied_of_text (ends_textMore ts x) (ends_textMore us y) h
      obtain ⟨htail, hrest⟩ := emptiedAll_of_textMore hmore
      exact ⟨by rw [emptiedAll, emptiedAll, hhead, htail], hrest⟩

theorem emptiedAll_of_textMore : ∀ {ts us : List Ty} {x y : List Char},
    (textMore ts).toList ++ ')' :: x = (textMore us).toList ++ ')' :: y →
    emptiedAll ts = emptiedAll us ∧ x = y
  | [], [], x, y, h => ⟨rfl, (List.cons.inj h).2⟩
  | [], u :: us, x, y, h => by
      rw [textMore, textMore, String.append_assoc, String.toList_append] at h
      cases h
  | t :: ts, [], x, y, h => by
      rw [textMore, textMore, String.append_assoc, String.toList_append] at h
      cases h
  | t :: ts, u :: us, x, y, h => by
      simp only [textMore, String.toList_append, List.append_assoc] at h
      obtain ⟨hhead, hmore⟩ :=
        emptied_of_text (ends_textMore ts x) (ends_textMore us y) (List.append_cancel_left h)
      obtain ⟨htail, hrest⟩ := emptiedAll_of_textMore hmore
      exact ⟨by rw [emptiedAll, emptiedAll, hhead, htail], hrest⟩
end

/-- Two types have one text exactly when they are the same in all but that an unspecified list may
stand where the other has an empty one. -/
theorem text_eq_iff {t u : Ty} : t.text = u.text ↔ t.emptied = u.emptied := by
  constructor
  · intro h
    exact (emptied_of_text ends_nil ends_nil (by rw [h])).1
  · intro h
    rw [← text_emptied t, h, text_emptied u]

/-- The text of a type is unambiguous. Types of one text agree, and they are the same in all but
that an unspecified list may stand where the other has an empty one; such types have one text. -/
theorem text_unambiguous (t u : Ty) :
    (t.text = u.text → t.agrees u = true) ∧ (t.text = u.text ↔ t.emptied = u.emptied) := by
  constructor
  · intro h
    exact agrees_of_emptied (text_eq_iff.mp h)
  · exact text_eq_iff

/-- Two functions of text `int *(char(), long **[3])` agree and differ only inside the first
parameter. -/
theorem text_unambiguous_nested :
    let t : Ty := .func .int 1 [.funcUnspecified .char 0, .array .long 2 3]
    let u : Ty := .func .int 1 [.func .char 0 [], .array .long 2 3]
    t.text = u.text ∧ t.agrees u = true ∧ t.emptied = u.emptied := by
  intro t u
  have htext : t.text = u.text := by decide
  exact ⟨htext, (text_unambiguous t u).1 htext, (text_unambiguous t u).2.mp htext⟩

end Ty

end LittleC
