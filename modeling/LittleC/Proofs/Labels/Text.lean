import LittleC.Assembly
import LittleC.Proofs.Labels.Linked
import LittleC.Proofs.Text.Lines

/-! # Lines of assembly text

The text of an assembly is made of lines, one for each line of code. A line that begins with a local
label and a colon defines the label, and no other line of an assembly begins like that. -/

namespace LittleC

/-! ## Texts on one line -/

@[simp]
theorem Reg.unbroken_name (r : Reg) (size : Nat) : Unbroken (r.name size) := by
  unfold Reg.name
  split <;> cases r <;> decide

@[simp]
theorem unbroken_widthSuffix (size : Nat) : Unbroken (widthSuffix size) := by
  unfold widthSuffix
  split <;> decide

@[simp]
theorem AluOp.unbroken_text (op : AluOp) : Unbroken op.text := by cases op <;> decide

@[simp]
theorem Comparison.unbroken_conditionText (c : Comparison) : Unbroken c.conditionText := by
  cases c <;> decide

/-- Letters, digits and underlines only. -/
def isWord (name : String) : Bool := name.toList.all fun c => c.isAlphanum || c == '_'

/-- All names are words. -/
def Naming.words : Naming := ⟨(isWord · = true), (isWord · = true)⟩

theorem unbroken_of_isWord {name : String} (h : isWord name = true) : Unbroken name := fun hbreak =>
  absurd (List.all_eq_true.mp h _ hbreak) (by decide)

section
variable {t : Target} {labels : List Label}

namespace Target

/-- The target is one of those that triples have. -/
def Known (t : Target) : Prop := t = elf ∨ t = machO

theorem known_of_ofTriple? {triple : Triple} (h : ofTriple? triple = some t) : t.Known := by
  unfold ofTriple? at h
  split at h
  · split at h <;> cases h
    · exact .inr rfl
    · exact .inl rfl
  · cases h

theorem Known.unbroken_globalLead (ht : t.Known) : Unbroken t.globalLead := by
  rcases ht with rfl | rfl <;> decide

theorem Known.unbroken_labelLead (ht : t.Known) : Unbroken t.labelLead := by
  rcases ht with rfl | rfl <;> decide

end Target

theorem Label.unbroken_text (ht : t.Known) (l : Label) : Unbroken (l.text t.labelLead) :=
  unbroken_append.mpr ⟨ht.unbroken_labelLead, unbroken_nat _⟩

theorem Mem.unbroken_text (ht : t.Known) {m : Mem} (hm : m.Linked labels .words) :
    Unbroken (m.text t) := by
  cases m with
  | frame offset => exact unbroken_append.mpr ⟨unbroken_int offset, by decide⟩
  | global name =>
      have hname := unbroken_append.mpr ⟨ht.unbroken_globalLead, unbroken_of_isWord hm⟩
      exact unbroken_append.mpr ⟨hname, by decide⟩
  | literal l => exact unbroken_append.mpr ⟨l.unbroken_text ht, by decide⟩
  | indirect r => simp +decide [Mem.text]

theorem Operand.unbroken_text (ht : t.Known) {x : Operand} (hx : x.Linked labels .words) :
    Unbroken (x.text t) := by
  cases x with
  | imm value => exact unbroken_append.mpr ⟨by decide, unbroken_int value⟩
  | mem place => exact Mem.unbroken_text ht hx
  | reg r size => exact r.unbroken_name size

theorem Instr.unbroken_text (ht : t.Known) {i : Instr} (hi : i.Linked labels .words) :
    Unbroken (i.text t) := by
  have hop {x : Operand} (hx : x.Linked labels .words) := Operand.unbroken_text ht hx
  have hlabel (l : Label) := l.unbroken_text ht
  cases i with
  | mov size source target => simp +decide [Instr.text, hop hi.1, hop hi.2]
  | lea source | alu _ _ source | cmp _ source | push source => simp +decide [Instr.text, hop hi]
  | jmp l | jcc _ l => simp +decide [Instr.text, hlabel]
  | call name => simp +decide [Instr.text, ht.unbroken_globalLead, unbroken_of_isWord hi]
  | signExtend wide => cases wide <;> simp +decide [Instr.text]
  | _ => simp +decide [Instr.text]

theorem Line.unbroken_text (ht : t.Known) {l : Line} (hl : l.Linked labels .words) :
    Unbroken (l.text t) := by
  cases l with
  | instr i => exact unbroken_append.mpr ⟨by decide, Instr.unbroken_text ht hl⟩
  | label l => exact unbroken_append.mpr ⟨l.unbroken_text ht, by decide⟩
  | note text => exact unbroken_append.mpr ⟨by decide, hl⟩

/-! ## The lines of an assembly -/

/-- The line that a text stands on. -/
def literalLine (t : Target) (d : Label × String) : String :=
  d.1.text t.labelLead ++ ": .asciz " ++ d.2

def commonLine (t : Target) (c : String × Nat) : String :=
  "    .comm " ++ t.globalLead ++ c.1 ++ ", " ++ toString c.2

def Routine.lines (t : Target) (r : Routine) : List String :=
  ["    .globl " ++ (t.globalLead ++ r.name), t.globalLead ++ r.name ++ ":"] ++
    r.code.map (·.text t) ++ [""]

def dataLines (t : Target) (texts : List (Label × String)) : List String :=
  if texts.isEmpty then [] else "    .data" :: texts.map (literalLine t)

def Assembly.lines (t : Target) (a : Assembly) : List String :=
  a.routines.flatMap (·.lines t) ++ a.commons.map (commonLine t) ++ dataLines t a.texts

theorem Routine.text_eq (t : Target) (r : Routine) : r.text t = ofLines (r.lines t) := by
  have hcode : ofLines (r.code.map (·.text t)) =
      String.join (r.code.map fun l => l.text t ++ "\n") := by
    rw [ofLines, List.map_map]
    rfl
  rw [lines, ofLines_append, ofLines_append, ofLines_cons, ofLines_cons, hcode]
  simp [Routine.text, ofLines, String.append_assoc]

theorem Assembly.dataText_eq (t : Target) (texts : List (Label × String)) :
    dataText t texts = ofLines (dataLines t texts) := by
  unfold dataText dataLines
  split
  · rfl
  · rw [ofLines_cons, ofLines, List.map_map]
    rfl

theorem Assembly.text_eq (t : Target) (a : Assembly) : a.text t = ofLines (a.lines t) := by
  have hroutines : ofLines (a.routines.flatMap (·.lines t)) =
      String.join (a.routines.map (·.text t)) := by
    rw [ofLines_flatMap]
    exact congrArg String.join (List.map_congr_left fun r _ => (r.text_eq t).symm)
  have hcommons : ofLines (a.commons.map (commonLine t)) =
      String.join (a.commons.map (commonText t)) := by
    rw [ofLines, List.map_map]
    rfl
  rw [lines, ofLines_append, ofLines_append, hroutines, hcommons, ← dataText_eq, text]

/-! ## Which lines define labels -/

/-- The line begins with the label and a colon. -/
def Label.definedBy (t : Target) (l : Label) (line : String) : Bool :=
  (l.text t.labelLead ++ ":").toList.isPrefixOf line.toList

namespace Label

variable {l : Label}

/-- What begins otherwise than local labels defines none. -/
theorem definedBy_of_head {line : String} (ht : t.Known)
    (h : line.toList.head? ≠ t.labelLead.toList.head?) : l.definedBy t line = false := by
  obtain ⟨c, cs, hlead⟩ : ∃ c cs, t.labelLead.toList = c :: cs := by
    rcases ht with rfl | rfl
    · exact ⟨'.', ['L'], rfl⟩
    · exact ⟨'L', [], rfl⟩
  refine Bool.eq_false_iff.mpr fun hdefined => h ?_
  obtain ⟨rest, hrest⟩ := List.isPrefixOf_iff_prefix.mp hdefined
  rw [← hrest, text, String.toList_append, String.toList_append, hlead]
  rfl

theorem definedBy_indented (ht : t.Known) {line : String} (h : line.toList.head? = some ' ') :
    l.definedBy t line = false := by
  refine definedBy_of_head ht ?_
  rw [h]
  rcases ht with rfl | rfl <;> exact nofun

theorem definedBy_name (ht : t.Known) {name : String} (hname : isWord name = true) :
    l.definedBy t (t.globalLead ++ name ++ ":") = false := by
  refine definedBy_of_head ht ?_
  rw [String.toList_append, String.toList_append]
  rcases ht with rfl | rfl
  · cases hchars : name.toList with
    | nil => exact nofun
    | cons c cs =>
        have hc := List.all_eq_true.mp hname c (hchars ▸ List.mem_cons_self)
        intro heq
        cases Option.some.inj heq
        exact absurd hc (by decide)
  · exact nofun

theorem toList_text_colon (l : Label) (rest : List Char) :
    (l.text t.labelLead ++ ":").toList ++ rest =
      t.labelLead.toList ++ (Nat.toDigits 10 l.number ++ ':' :: rest) := by
  simp [text]

/-- Digits end before the colon, so no label begins another. -/
theorem definedBy_label (l' : Label) (rest : String) :
    l.definedBy t (l'.text t.labelLead ++ ":" ++ rest) = (l' == l) := by
  have hdigits (n : Nat) (rest : List Char) :
      (Nat.toDigits 10 n ++ ':' :: rest).takeWhile (·.isDigit) = Nat.toDigits 10 n := by
    rw [List.takeWhile_append_of_pos fun c => Nat.isDigit_of_mem_toDigits (by decide) (by decide)]
    simp
  rw [definedBy, Bool.eq_iff_iff, List.isPrefixOf_iff_prefix, beq_iff_eq,
    String.toList_append (s := _ ++ ":")]
  constructor
  · rintro ⟨rest', hrest⟩
    rw [toList_text_colon, toList_text_colon] at hrest
    have hcut := congrArg (List.takeWhile (·.isDigit)) (List.append_cancel_left hrest)
    rw [hdigits, hdigits] at hcut
    have hnumber := congrArg (Nat.ofDigitChars 10 · 0) hcut
    rw [Nat.ofDigitChars_ten_toDigits, Nat.ofDigitChars_ten_toDigits] at hnumber
    exact congrArg Label.mk hnumber.symm
  · rintro rfl
    exact List.prefix_append _ _

end Label

/-- Whether the line of code is the definition is whether its text is. -/
theorem Line.definedBy_text (ht : t.Known) (l : Label) (line : Line) :
    l.definedBy t (line.text t) = (line.label? == some l) := by
  cases line with
  | instr i => exact Label.definedBy_indented ht (by rw [text, String.toList_append]; rfl)
  | note note => exact Label.definedBy_indented ht (by rw [text, String.toList_append]; rfl)
  | label l' =>
      have h := Label.definedBy_label (t := t) (l := l) l' ""
      rw [String.append_empty] at h
      exact h.trans (Option.some_beq_some).symm

theorem Routine.countP_lines (ht : t.Known) {r : Routine} (hname : isWord r.name = true)
    (l : Label) : (r.lines t).countP (l.definedBy t) = (labelsOf r.code).count l := by
  have hcode : (r.code.map (·.text t)).countP (l.definedBy t) = (labelsOf r.code).count l := by
    rw [List.countP_map, labelsOf, List.count_filterMap]
    exact List.countP_congr fun line _ => by rw [Function.comp, line.definedBy_text ht]
  have hglobal : l.definedBy t ("    .globl " ++ (t.globalLead ++ r.name)) = false :=
    Label.definedBy_indented ht (by rw [String.toList_append]; rfl)
  have hempty : l.definedBy t "" = false :=
    Label.definedBy_of_head ht (by rcases ht with rfl | rfl <;> exact nofun)
  have hentry : l.definedBy t (t.globalLead ++ r.name ++ ":") = false :=
    Label.definedBy_name ht hname
  simp only [lines, List.countP_append, hcode, List.countP_cons, List.countP_nil, hglobal, hentry,
    hempty, Bool.false_eq_true, if_false, Nat.zero_add, Nat.add_zero]

theorem Assembly.countP_dataLines (ht : t.Known) (texts : List (Label × String)) (l : Label) :
    (dataLines t texts).countP (l.definedBy t) = (textLabels texts).count l := by
  have htexts : (texts.map (literalLine t)).countP (l.definedBy t) =
      (textLabels texts).count l := by
    rw [textLabels, List.count, List.countP_map, List.countP_map]
    refine List.countP_congr fun d _ => ?_
    have hline : literalLine t d = d.1.text t.labelLead ++ ":" ++ (" .asciz " ++ d.2) := by
      have hcolon : ": .asciz " = ":" ++ " .asciz " := rfl
      rw [literalLine, hcolon]
      simp only [String.append_assoc]
    rw [Function.comp, hline, Label.definedBy_label]
    rfl
  have hdata : l.definedBy t "    .data" = false := Label.definedBy_indented ht rfl
  unfold dataLines
  split
  · next h =>
    rw [List.isEmpty_iff.mp h]
    rfl
  · rw [List.countP_cons, hdata, htexts]
    rfl

theorem Assembly.countP_lines (ht : t.Known) {a : Assembly}
    (hnames : ∀ r ∈ a.routines, isWord r.name = true) (l : Label) :
    (a.lines t).countP (l.definedBy t) =
      ((a.routines.flatMap fun r => labelsOf r.code) ++ textLabels a.texts).count l := by
  have hcommon : (a.commons.map (commonLine t)).countP (l.definedBy t) = 0 := by
    refine List.countP_eq_zero.mpr fun line hline => ?_
    obtain ⟨c, -, rfl⟩ := List.mem_map.mp hline
    rw [Label.definedBy_indented ht (by simp [commonLine])]
    exact Bool.false_ne_true
  rw [lines, List.countP_append, List.countP_append, hcommon, countP_dataLines ht,
    List.count_append, List.countP_flatMap, List.count_flatMap, Nat.add_zero]
  refine congrArg (List.sum · + _) (List.map_congr_left fun r hr => ?_)
  exact Routine.countP_lines ht (hnames r hr) l

end

end LittleC
