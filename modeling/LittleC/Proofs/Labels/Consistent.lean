import LittleC.Compilation
import LittleC.Proofs.Labels.Program
import LittleC.Proofs.Labels.Strings
import LittleC.Proofs.Labels.Text

/-! # Local labels of an assembly

In the text of an assembly every local label that was handed out is defined on exactly one line. A
routine jumps to labels on its own lines only, and what is read under a local label stands in the
data at the end: the string literals of the program in the order in which they were lowered. -/

namespace LittleC

/-! ## Names -/

/-- A name as programs write it: a letter or underline, then letters, digits and underlines. -/
def isIdentifier (name : String) : Bool :=
  match name.toList with
  | [] => false
  | c :: cs => (c.isAlpha || c == '_') && cs.all fun d => d.isAlphanum || d == '_'

theorem isWord_of_isIdentifier {name : String} (h : isIdentifier name = true) :
    isWord name = true := by
  unfold isIdentifier at h
  unfold isWord
  split at h
  · cases h
  · next c cs hname =>
    rw [hname, List.all_cons, Bool.and_eq_true, Char.isAlphanum, Bool.or_assoc]
    rw [Bool.and_eq_true] at h
    refine ⟨?_, h.2⟩
    rw [Bool.or_left_comm, h.1, Bool.or_true]

/-- The name of a symbol that the table does not have is empty. -/
theorem SymbolTable.isWord_symbol {t : SymbolTable}
    (h : ∀ s ∈ t.entries, isIdentifier s.name = true) (x : SymbolId) :
    isWord (t.symbol x).name = true := by
  unfold symbol
  rw [List.getD_eq_getElem?_getD]
  cases hx : t.entries[x.index]? with
  | none => rfl
  | some s => exact isWord_of_isIdentifier (h s (List.mem_of_getElem? hx))

namespace Assembly

variable {target : Target} {a : Assembly} {t : SymbolTable} {fs : List Function}

/-! ## Lines are not broken -/

theorem unbroken_lines (htarget : target.Known) (hnames : ∀ r ∈ a.routines, isWord r.name = true)
    (hlines : ∀ r ∈ a.routines, ∀ l ∈ r.code, l.Linked (textLabels a.texts) .words)
    (hcommons : ∀ c ∈ a.commons, isWord c.1 = true) (htexts : ∀ d ∈ a.texts, Unbroken d.2) :
    (∀ r ∈ a.routines, ∀ l ∈ r.lines target, Unbroken l) ∧
      (∀ l ∈ dataLines target a.texts, Unbroken l) ∧ ∀ l ∈ a.lines target, Unbroken l := by
  have hglobal := htarget.unbroken_globalLead
  have hroutine : ∀ r ∈ a.routines, ∀ l ∈ r.lines target, Unbroken l := by
    intro r hr
    have hname := unbroken_of_isWord (hnames r hr)
    simp only [Routine.lines, List.forall_mem_append, List.forall_mem_cons, List.forall_mem_map]
    refine ⟨⟨?_, fun l hl => Line.unbroken_text htarget (hlines r hr l hl)⟩, by decide, ?_⟩
    · simp +decide [hglobal, hname]
    · exact fun _ h => absurd h List.not_mem_nil
  have hdata : ∀ l ∈ dataLines target a.texts, Unbroken l := by
    unfold dataLines
    split
    · exact fun _ h => absurd h List.not_mem_nil
    · refine List.forall_mem_cons.mpr ⟨by decide, List.forall_mem_map.mpr fun d hd => ?_⟩
      simp +decide [literalLine, d.1.unbroken_text htarget, htexts d hd]
  refine ⟨hroutine, hdata, ?_⟩
  simp only [lines, List.forall_mem_append, List.mem_flatMap, List.forall_mem_map]
  refine ⟨⟨?_, fun c hc => ?_⟩, hdata⟩
  · rintro l ⟨r, hr, hl⟩
    exact hroutine r hr l hl
  · simp +decide [commonLine, hglobal, unbroken_of_isWord (hcommons c hc)]

/-! ## Labels of a text -/

/-- Of the labels numbered below `n` each is defined on one line, of the others none is. Jumps stay
in their routine, and what is read under a label is among the data. -/
structure Consistent (target : Target) (a : Assembly) (n : Nat) : Prop where
  defined : ∀ l : Label,
    (textLines (a.text target)).countP (l.definedBy target) = if l.number < n then 1 else 0
  jumps : ∀ r ∈ a.routines, ∀ l ∈ targetsOf r.code,
    (textLines (r.text target)).countP (l.definedBy target) = 1
  literals : ∀ r ∈ a.routines, ∀ l ∈ literalsOf r.code,
    (textLines (dataText target a.texts)).countP (l.definedBy target) = 1

theorem countP_textLines (htarget : target.Known) {lines : List String}
    (h : ∀ l ∈ lines, Unbroken l) (l : Label) :
    (textLines (ofLines lines)).countP (l.definedBy target) =
      lines.countP (l.definedBy target) := by
  have hempty : l.definedBy target "" = false :=
    Label.definedBy_of_head htarget (by rcases htarget with rfl | rfl <;> exact nofun)
  rw [textLines_ofLines h, List.countP_append, List.countP_singleton, hempty]
  rfl

theorem consistent_of_linkage (htarget : target.Known) {s s' : Lowering.State}
    (hs : s.nextLabel = 0) (hnone : s.texts = []) (ha : a.texts = s'.texts)
    (h : Linkage .words s a.routines s') (hcommons : ∀ c ∈ a.commons, isWord c.1 = true)
    (htexts : ∀ d ∈ a.texts, Unbroken d.2) : Consistent target a s'.nextLabel := by
  obtain ⟨texts, htaken, hperm⟩ := h.taken
  rw [hnone, List.nil_append, ← ha] at htaken
  rw [← htaken, hs] at hperm
  have hnodup := hperm.nodup_iff.mpr (nodup_labelsBetween 0 s'.nextLabel)
  have hlines := h.lines
  rw [← ha] at hlines
  obtain ⟨hroutine, hdata, hall⟩ := unbroken_lines htarget h.names hlines hcommons htexts
  refine ⟨fun l => ?_, fun r hr l hl => ?_, fun r hr l hl => ?_⟩
  · rw [text_eq, countP_textLines htarget hall, countP_lines htarget h.names, hperm.count_eq,
      (nodup_labelsBetween 0 s'.nextLabel).count]
    simp only [mem_labelsBetween, Nat.zero_le, true_and]
  · have hown : (labelsOf r.code).Nodup := (List.nodup_flatMap.mp hnodup.of_append_left).1 r hr
    rw [Routine.text_eq, countP_textLines htarget (hroutine r hr),
      Routine.countP_lines htarget (h.names r hr)]
    exact List.count_eq_one_of_mem hown (h.targets r hr l hl)
  · obtain ⟨line, hline, hread⟩ := List.mem_flatMap.mp hl
    rw [dataText_eq, countP_textLines htarget hdata, countP_dataLines htarget]
    exact List.count_eq_one_of_mem hnodup.of_append_right
      ((hlines r hr line hline).mem_labels l hread)

/-! ## Generated assemblies -/

/-- The number of labels that the functions of a program take. -/
def labelCount (notes : Bool) (t : SymbolTable) (fs : List Function) : Nat :=
  (Function.lowerAll (t.allocateAll fs).2 (fs.zip (t.allocateAll fs).1) (.start notes)).2.nextLabel

theorem generate_ofFunctions {o : Options} (htarget : Target.ofTriple? o.triple = some target)
    (hsound : ∀ f ∈ fs, f.hasError = false) :
    generate o t fs = .ok ((ofFunctions o.notes t fs).text target) := by
  have hfind : fs.find? (·.hasError) = none :=
    List.find?_eq_none.mpr fun f hf => by simp [hsound f hf]
  unfold generate
  rw [htarget, hfind]

theorem texts_ofFunctions (notes : Bool) (t : SymbolTable) (fs : List Function) :
    (ofFunctions notes t fs).texts =
      Function.internedAll (t.allocateAll fs).2 (fs.zip (t.allocateAll fs).1) (.start notes) :=
  (Function.texts_lowerAll (fs.zip (t.allocateAll fs).1) (.start notes)).trans (List.nil_append _)

theorem strings_ofFunctions (notes : Bool) (t : SymbolTable) (fs : List Function) :
    (ofFunctions notes t fs).texts.map (·.2) = fs.flatMap (·.strings) := by
  rw [texts_ofFunctions, Function.say_internedAll, SymbolTable.allocateAll_eq,
    ← List.map_prod_left_eq_zip, List.flatMap_map]

/-- In the assembly of sound functions labels are consistent, and the data are the string literals
of the functions, each under the label that its use refers to, in the order of lowering. -/
theorem consistent_of_generate {o : Options} (htarget : Target.ofTriple? o.triple = some target)
    (hsound : ∀ f ∈ fs, f.hasError = false) (hnames : ∀ s ∈ t.entries, isIdentifier s.name = true)
    (hstrings : ∀ f ∈ fs, ∀ s ∈ f.strings, '\n' ∉ s.toList) :
    let assembly := ofFunctions o.notes t fs
    generate o t fs = .ok (assembly.text target) ∧
      Consistent target assembly (labelCount o.notes t fs) ∧
      assembly.texts = Function.internedAll (t.allocateAll fs).2 (fs.zip (t.allocateAll fs).1)
        (.start o.notes) ∧
      assembly.texts.map (·.2) = fs.flatMap (·.strings) := by
  refine ⟨generate_ofFunctions htarget hsound, ?_, texts_ofFunctions o.notes t fs,
    strings_ofFunctions o.notes t fs⟩
  have hP : ∀ x, isWord ((t.allocateAll fs).2.symbol x).name = true := fun x => by
    rw [SymbolTable.name_allocateAll]
    exact SymbolTable.isWord_symbol hnames x
  have hrefers : ∀ p ∈ fs.zip (t.allocateAll fs).1,
      p.1.Refers (t.allocateAll fs).2 .words := fun p _ =>
    ⟨hP _, fun e _ n _ => Expr.refers_of_forall (fun x => ⟨hP x, hP x⟩) n⟩
  have hlinkage := Function.linkage_lowerAll (fs.zip (t.allocateAll fs).1) (.start o.notes) hrefers
  have hcommons : ∀ c ∈ (ofFunctions o.notes t fs).commons, isWord c.1 = true := by
    refine List.forall_mem_map.mpr fun s hs => ?_
    unfold globals at hs
    split at hs
    · obtain ⟨x, -, rfl⟩ := List.mem_map.mp (List.mem_of_mem_filter hs)
      exact hP x
    · cases hs
  have htexts : ∀ d ∈ (ofFunctions o.notes t fs).texts, Unbroken d.2 := fun d hd => by
    have hmem := List.mem_map_of_mem (f := (·.2)) hd
    rw [strings_ofFunctions] at hmem
    obtain ⟨f, hf, hstring⟩ := List.mem_flatMap.mp hmem
    exact hstrings f hf d.2 hstring
  exact consistent_of_linkage (Target.known_of_ofTriple? htarget) rfl rfl rfl hlinkage hcommons
    htexts

namespace Greeting

/-- The names `puts`, `greet` and `n`, the last in the scope of `greet`. -/
def table : SymbolTable :=
  ⟨[.fresh "puts" (.func .int 0 [.scalar .char 1]), .fresh "greet" (.func .int 0 [.int]),
      .fresh "n" .int],
    [⟨none, [("puts", ⟨0⟩), ("greet", ⟨1⟩)], [⟨1⟩]⟩, ⟨some ⟨0⟩, [("n", ⟨2⟩)], []⟩], [⟨0⟩]⟩

def options : Options := ⟨.linux, false⟩

def count : Expr := .ident ⟨2⟩ (.place .int)

def greet (word : String) : Stmt :=
  .expr (.call ⟨0⟩
    [.unary .address (.text word (.place (.array .char 0 6))) (.value (.scalar .char 1))]
    (.value .int))

/-- As long as `n` is not zero it greets with one word or the other. -/
def greets : Function :=
  ⟨⟨1⟩, ⟨1⟩, [.loop count (.ifElse (.binary .land count count (.value .int))
    (greet "\"hello\"") (greet "\"bye\"")), .ret count]⟩

end Greeting

open Greeting in
theorem consistent_of_generate_greets :
    Target.ofTriple? options.triple = some .elf ∧ (∀ f ∈ [greets], f.hasError = false) ∧
      (∀ s ∈ table.entries, isIdentifier s.name = true) ∧
      (∀ f ∈ [greets], ∀ s ∈ f.strings, '\n' ∉ s.toList) ∧
      Consistent .elf (ofFunctions options.notes table [greets])
        (labelCount options.notes table [greets]) ∧
      (ofFunctions options.notes table [greets]).texts.map (·.2) = ["\"hello\"", "\"bye\""] := by
  have htarget : Target.ofTriple? options.triple = some .elf := rfl
  have hsound : ∀ f ∈ [greets], f.hasError = false := List.forall_mem_singleton.mpr rfl
  have hnames : ∀ s ∈ table.entries, isIdentifier s.name = true := by decide
  have hstrings : ∀ f ∈ [greets], ∀ s ∈ f.strings, '\n' ∉ s.toList :=
    List.forall_mem_singleton.mpr (by decide)
  have h := consistent_of_generate htarget hsound hnames hstrings
  exact ⟨htarget, hsound, hnames, hstrings, h.2.1, h.2.2.2⟩

end Assembly

end LittleC
