import LittleC.Literal.Text
import LittleC.Proofs.Literal.Numeral
import Mathlib.Data.String.Basic

/-! # The items of a string literal

A text between its quotes is a sequence of items: escapes, each as long as it can be, and plain
characters. Reading keeps a position and looks at one character at a time; the bytes it counts are
those of the items, since a reader behind an escape stands where a reader outside of any escape
would. -/

namespace LittleC

namespace TextLiteral

open IntegerLiteral (IsDigit)

/-! ## Items -/

inductive Item where
  | hex (digits : List Char)
  | octal (first : Char) (more : List Char)
  | escape (c : Char)
  | backslash
  | plain (c : Char)
  deriving DecidableEq, Repr

namespace Item

def chars : Item → List Char
  | hex digits => '\\' :: 'x' :: digits
  | octal first more => '\\' :: first :: more
  | escape c => ['\\', c]
  | backslash => ['\\']
  | plain c => [c]

/-- Each escape is one byte, and a backslash at the end is none. -/
def bytes : Item → Nat
  | hex _ => 1
  | octal _ _ => 1
  | escape _ => 1
  | backslash => 0
  | plain c => c.utf8Size

end Item

/-- The rest does not go on with a digit of the base. -/
def Stops (base : Nat) (rest : List Char) : Prop :=
  ∀ c, rest.head? = some c → ¬IsDigit base c

/-- The item is one that may stand before the rest: no digit behind it could still belong to it. -/
def Item.Before (rest : List Char) : Item → Prop
  | hex digits => (∀ c ∈ digits, IsDigit 16 c) ∧ Stops 16 rest
  | octal first more =>
    IsDigit 8 first ∧ (∀ c ∈ more, IsDigit 8 c) ∧ more.length ≤ 2 ∧ (more.length < 2 → Stops 8 rest)
  | escape c => c ≠ 'x' ∧ ¬IsDigit 8 c
  | backslash => rest = []
  | plain c => c ≠ '\\'

def Splits : List Char → List Item → Prop
  | cs, [] => cs = []
  | cs, item :: items => ∃ rest, cs = item.chars ++ rest ∧ item.Before rest ∧ Splits rest items

/-- A text without the quotes around it, when it has both. -/
inductive Stripped : List Char → List Char → Prop where
  | quoted {inner} : Stripped ('"' :: (inner ++ ['"'])) inner
  | bare {cs} : (∀ inner, cs ≠ '"' :: (inner ++ ['"'])) → Stripped cs cs

/-! ## Runs of digits -/

section
variable {base : Nat} {cs ds ds' rest rest' : List Char}

theorem exists_run (base most : Nat) (cs : List Char) :
    ∃ ds rest, cs = ds ++ rest ∧ (∀ c ∈ ds, IsDigit base c) ∧ ds.length ≤ most ∧
      (ds.length < most → Stops base rest) := by
  induction cs generalizing most with
  | nil => exact ⟨[], [], rfl, by simp, by simp, fun _ => by simp [Stops]⟩
  | cons c cs ih =>
    cases most with
    | zero => exact ⟨[], c :: cs, rfl, by simp, by simp, by simp⟩
    | succ most =>
      by_cases hc : IsDigit base c
      · obtain ⟨ds, rest, rfl, hds, hle, hstops⟩ := ih most
        refine ⟨c :: ds, rest, rfl, List.forall_mem_cons.mpr ⟨hc, hds⟩, ?_, ?_⟩
        · simpa using hle
        · simpa using hstops
      · refine ⟨[], c :: cs, rfl, by simp, by simp, fun _ => ?_⟩
        simpa [Stops] using hc

theorem exists_long_run (base : Nat) (cs : List Char) :
    ∃ ds rest, cs = ds ++ rest ∧ (∀ c ∈ ds, IsDigit base c) ∧ Stops base rest := by
  obtain ⟨ds, rest, rfl, hds, -, hstops⟩ := exists_run base (cs.length + 1) cs
  refine ⟨ds, rest, rfl, hds, hstops ?_⟩
  simp only [List.length_append]
  omega

/-- A run that stops is not a part of a longer run. -/
theorem run_le (h : ds ++ rest = ds' ++ rest') (hds' : ∀ c ∈ ds', IsDigit base c)
    (hstops : ds.length < ds'.length → Stops base rest) : ds'.length ≤ ds.length := by
  by_contra hlt
  have hlt : ds.length < ds'.length := by omega
  have hnext : rest.head? = some ds'[ds.length] := by
    have hat := congrArg (·[ds.length]?) h
    simp only [List.getElem?_append_left hlt, List.getElem?_append_right (Nat.le_refl _),
      Nat.sub_self, List.getElem?_eq_getElem hlt] at hat
    rwa [List.head?_eq_getElem?]
  exact hstops hlt _ hnext (hds' _ (List.getElem_mem hlt))

theorem run_unique (h : ds ++ rest = ds' ++ rest') (hds : ∀ c ∈ ds, IsDigit base c)
    (hds' : ∀ c ∈ ds', IsDigit base c) (hstops : ds.length < ds'.length → Stops base rest)
    (hstops' : ds'.length < ds.length → Stops base rest') : ds = ds' ∧ rest = rest' :=
  List.append_inj h (Nat.le_antisymm (run_le h.symm hds hstops') (run_le h hds' hstops))

end

/-! ## Splitting -/

theorem not_isDigit_mark {base : Nat} : ¬IsDigit base 'x' := by
  rintro ⟨d, hd⟩
  exact hd.not_mark (.inl rfl)

theorem exists_item {cs : List Char} (h : cs ≠ []) :
    ∃ (item : Item) (rest : List Char), cs = item.chars ++ rest ∧ item.Before rest := by
  obtain ⟨a, cs, rfl⟩ := List.exists_cons_of_ne_nil h
  by_cases ha : a = '\\'
  · subst ha
    cases cs with
    | nil => exact ⟨.backslash, [], rfl, rfl⟩
    | cons c cs =>
      by_cases hx : c = 'x'
      · obtain ⟨ds, rest, rfl, hds, hstops⟩ := exists_long_run 16 cs
        exact ⟨.hex ds, rest, by rw [hx]; rfl, hds, hstops⟩
      · by_cases hc : IsDigit 8 c
        · obtain ⟨ds, rest, rfl, hds, hle, hstops⟩ := exists_run 8 2 cs
          exact ⟨.octal c ds, rest, rfl, hc, hds, hle, hstops⟩
        · exact ⟨.escape c, cs, rfl, hx, hc⟩
  · exact ⟨.plain a, cs, rfl, ha⟩

theorem Item.chars_ne_nil (item : Item) : item.chars ≠ [] := by
  cases item <;> simp [chars]

theorem exists_splits (cs : List Char) : ∃ items, Splits cs items := by
  induction hlen : cs.length using Nat.strong_induction_on generalizing cs with
  | _ len ih =>
    by_cases hcs : cs = []
    · exact ⟨[], hcs⟩
    · obtain ⟨item, rest, rfl, hitem⟩ := exists_item hcs
      have hpos := List.length_pos_of_ne_nil item.chars_ne_nil
      rw [List.length_append] at hlen
      obtain ⟨items, hitems⟩ := ih rest.length (by omega) rest rfl
      exact ⟨item :: items, rest, rfl, hitem, hitems⟩

/-- The first two characters tell the kinds of items apart, and a run of digits ends where it
must. -/
theorem Item.unique {item item' : Item} {rest rest' : List Char} (h : item.Before rest)
    (h' : item'.Before rest') (heq : item.chars ++ rest = item'.chars ++ rest') :
    item = item' ∧ rest = rest' := by
  have hmark : ¬IsDigit 8 'x' := not_isDigit_mark
  cases item with
  | hex ds =>
    cases item' with
    | hex ds' =>
      have hsame : ds ++ rest = ds' ++ rest' := by simpa [chars] using heq
      obtain ⟨rfl, rfl⟩ := run_unique hsame h.1 h'.1 (fun _ => h.2) (fun _ => h'.2)
      exact ⟨rfl, rfl⟩
    | _ => grind [chars, Before]
  | octal d ds =>
    cases item' with
    | octal d' ds' =>
      obtain ⟨-, hds, hle, hstops⟩ := h
      obtain ⟨-, hds', hle', hstops'⟩ := h'
      obtain ⟨rfl, hsame⟩ : d = d' ∧ ds ++ rest = ds' ++ rest' := by simpa [chars] using heq
      obtain ⟨rfl, rfl⟩ := run_unique hsame hds hds' (fun hlt => hstops (by omega))
        (fun hlt => hstops' (by omega))
      exact ⟨rfl, rfl⟩
    | _ => grind [chars, Before]
  | escape c => cases item' <;> grind [chars, Before]
  | backslash => cases item' <;> grind [chars, Before]
  | plain c => cases item' <;> grind [chars, Before]

theorem Splits.unique {cs : List Char} {items items' : List Item} (h : Splits cs items)
    (h' : Splits cs items') : items = items' := by
  induction items generalizing cs items' with
  | nil =>
    cases items' with
    | nil => rfl
    | cons item' items' =>
      obtain ⟨rest, hcs, -, -⟩ := h'
      exact absurd (List.append_eq_nil_iff.mp (hcs.symm.trans h)).1 item'.chars_ne_nil
  | cons item items ih =>
    obtain ⟨rest, rfl, hitem, hrest⟩ := h
    cases items' with
    | nil => exact absurd (List.append_eq_nil_iff.mp h').1 item.chars_ne_nil
    | cons item' items' =>
      obtain ⟨rest', hcs, hitem', hrest'⟩ := h'
      obtain ⟨rfl, rfl⟩ := Item.unique hitem hitem' hcs
      rw [ih hrest hrest']

/-! ## Reading -/

section
variable {ds rest : List Char}

theorem bytesFrom_hexDigits (hds : ∀ c ∈ ds, IsDigit 16 c) (hstops : Stops 16 rest) :
    bytesFrom .hexDigits (ds ++ rest) = bytesFrom .plain rest := by
  induction ds with
  | nil =>
    cases rest with
    | nil => rfl
    | cons c rest =>
      have hc : Radix.hex.isDigit c = false :=
        Bool.eq_false_iff.mpr fun h => hstops c rfl (Radix.isDigit_iff.mp h)
      simp [bytesFrom, read, hc]
  | cons d ds ih =>
    obtain ⟨hd, hds⟩ := List.forall_mem_cons.mp hds
    have hdigit : Radix.hex.isDigit d = true := Radix.isDigit_iff.mpr hd
    simp [bytesFrom, read, hdigit, ih hds]

theorem bytesFrom_octalDigits {left : Nat} (hds : ∀ c ∈ ds, IsDigit 8 c) (hle : ds.length ≤ left)
    (hstops : ds.length < left → Stops 8 rest) :
    bytesFrom (.octalDigits left) (ds ++ rest) = bytesFrom .plain rest := by
  induction ds generalizing left with
  | nil =>
    cases rest with
    | nil => rfl
    | cons c rest =>
      cases left with
      | zero => rfl
      | succ left =>
        have hc : Radix.octal.isDigit c = false :=
          Bool.eq_false_iff.mpr fun h => hstops (by simp) c rfl (Radix.isDigit_iff.mp h)
        simp [bytesFrom, read, hc]
  | cons d ds ih =>
    obtain ⟨hd, hds⟩ := List.forall_mem_cons.mp hds
    have hdigit : Radix.octal.isDigit d = true := Radix.isDigit_iff.mpr hd
    cases left with
    | zero => simp at hle
    | succ left =>
      have hrest := @ih left hds (by simpa using hle) (by simpa using hstops)
      simp [bytesFrom, read, hdigit, hrest]

/-- Behind an item the reader stands outside of any escape. -/
theorem bytesFrom_item {item : Item} (h : item.Before rest) :
    bytesFrom .plain (item.chars ++ rest) = item.bytes + bytesFrom .plain rest := by
  cases item with
  | hex ds =>
    have hread := bytesFrom_hexDigits h.1 h.2
    simp [Item.chars, Item.bytes, bytesFrom, read, readPlain, hread]
  | octal d ds =>
    obtain ⟨hd, hds, hle, hstops⟩ := h
    have hx : d ≠ 'x' := by
      rintro rfl
      exact not_isDigit_mark hd
    have hdigit : Radix.octal.isDigit d = true := Radix.isDigit_iff.mpr hd
    have hread := bytesFrom_octalDigits hds hle hstops
    simp [Item.chars, Item.bytes, bytesFrom, read, readPlain, hx, hdigit, hread]
  | escape c =>
    obtain ⟨hx, hc⟩ := h
    have hdigit : Radix.octal.isDigit c = false :=
      Bool.eq_false_iff.mpr fun h => hc (Radix.isDigit_iff.mp h)
    simp [Item.chars, Item.bytes, bytesFrom, read, readPlain, hx, hdigit]
  | backslash =>
    obtain rfl : rest = [] := h
    rfl
  | plain c =>
    have hc : c ≠ '\\' := h
    simp [Item.chars, Item.bytes, bytesFrom, read, readPlain, hc]

end

theorem bytesFrom_splits {cs : List Char} {items : List Item} (h : Splits cs items) :
    bytesFrom .plain cs = (items.map Item.bytes).sum := by
  induction items generalizing cs with
  | nil =>
    obtain rfl : cs = [] := h
    rfl
  | cons item items ih =>
    obtain ⟨rest, rfl, hitem, hrest⟩ := h
    rw [bytesFrom_item hitem, ih hrest, List.map_cons, List.sum_cons]

/-! ## Quotes -/

theorem unquote_quoted (inner : List Char) : unquote ('"' :: (inner ++ ['"'])) = inner := by
  simp [unquote]

theorem unquote_bare {cs : List Char} (h : ∀ inner, cs ≠ '"' :: (inner ++ ['"'])) :
    unquote cs = cs := by
  unfold unquote
  split
  · next rest =>
    split
    · next hlast => exact absurd (by rw [List.dropLast_append_getLast? '"' hlast]) (h rest.dropLast)
    · rfl
  · rfl

theorem stripped_iff {cs inner : List Char} : Stripped cs inner ↔ unquote cs = inner := by
  constructor
  · intro h
    cases h with
    | quoted => exact unquote_quoted inner
    | bare h => exact unquote_bare h
  · rintro rfl
    by_cases h : ∃ inner, cs = '"' :: (inner ++ ['"'])
    · obtain ⟨inner, rfl⟩ := h
      rw [unquote_quoted]
      exact .quoted
    · have hbare : ∀ inner, cs ≠ '"' :: (inner ++ ['"']) := not_exists.mp h
      rw [unquote_bare hbare]
      exact .bare hbare

/-! ## Bytes of the text -/

theorem Item.bytes_le (item : Item) : item.bytes ≤ String.utf8Len item.chars := by
  have hslash : Char.utf8Size '\\' = 1 := by decide
  cases item <;> simp [bytes, chars, hslash]

theorem sum_bytes_le {cs : List Char} {items : List Item} (h : Splits cs items) :
    (items.map Item.bytes).sum ≤ String.utf8Len cs := by
  induction items generalizing cs with
  | nil => simp
  | cons item items ih =>
    obtain ⟨rest, rfl, -, hrest⟩ := h
    rw [List.map_cons, List.sum_cons, String.utf8Len_append]
    exact Nat.add_le_add item.bytes_le (ih hrest)

theorem utf8Len_inner_le {cs inner : List Char} (h : Stripped cs inner) :
    String.utf8Len inner ≤ String.utf8Len cs := by
  cases h with
  | quoted =>
    simp only [String.utf8Len_cons, String.utf8Len_append]
    omega
  | bare => exact Nat.le_refl _

/-- A text has one way to lose its quotes and one splitting into items, its length is the sum over
them, and that is no more than the text itself takes. -/
theorem byteLength_splits (text : String) :
    ∃ inner items,
      (∀ cs, Stripped text.toList cs ↔ cs = inner) ∧ (∀ is, Splits inner is ↔ is = items) ∧
        byteLength text = (items.map Item.bytes).sum ∧ byteLength text ≤ text.utf8ByteSize := by
  obtain ⟨items, hitems⟩ := exists_splits (unquote text.toList)
  have hlength : byteLength text = (items.map Item.bytes).sum := bytesFrom_splits hitems
  refine ⟨unquote text.toList, items, ?_, ?_, hlength, ?_⟩
  · intro cs
    rw [stripped_iff, eq_comm]
  · intro is
    exact ⟨fun h => h.unique hitems, fun h => h ▸ hitems⟩
  · calc byteLength text
        = (items.map Item.bytes).sum := hlength
      _ ≤ String.utf8Len (unquote text.toList) := sum_bytes_le hitems
      _ ≤ String.utf8Len text.toList := utf8Len_inner_le (stripped_iff.mpr rfl)
      _ = text.utf8ByteSize := by rw [← String.utf8ByteSize_ofList, String.ofList_toList]

example : byteLength "\"\\x41\\1012\\n\"" = 4 := by decide

end TextLiteral

end LittleC
