import LittleC.Compilation
import LittleC.Proofs.Frame.Program
import LittleC.Proofs.Labels.Program
import LittleC.Proofs.Labels.Text
import LittleC.Proofs.Notes.Kept

/-! # Notes are comments and nothing else

A program is lowered function by function, each to a body between a prologue and an epilogue. With
notes and without it has the same bodies but for their notes, in frames of one size, the same
storage and the same string literals, so the two texts differ only in comment lines inside the
bodies. -/

namespace LittleC

open Lowering (State)

/-! ## Bodies of functions -/

/-- What one function adds to an assembly: its frame, the label of its end, and the code between its
prologue and its epilogue. -/
structure Body where
  function : Function
  frame : Int
  done : Label
  code : List Line

namespace Body

/-- The body of a function that is lowered from `s`. -/
def ofFunction (t : SymbolTable) (l : Layout) (f : Function) (s : State) : Body :=
  let done := Lowering.newLabel s
  let body := f.lowerBody t l done.result done.state
  ⟨f, alignFrame (-body.state.lowest), done.result, body.code⟩

def routine (t : SymbolTable) (b : Body) : Routine :=
  ⟨(t.symbol b.function.symbol).name,
    Routine.prologue t b.function b.frame ++ b.code ++ Routine.epilogue b.done⟩

/-- The body with the notes that the switch leaves. -/
def keep (notes : Bool) (b : Body) : Body := { b with code := kept notes b.code }

/-- The switch decides about the notes in the body. The frame and the label are the same. -/
theorem ofFunction_switch (t : SymbolTable) (l : Layout) (f : Function) (s : State)
    (notes : Bool) :
    ofFunction t l f (s.switch notes) = (ofFunction t l f (s.switch true)).keep notes := by
  have hbody := f.heeds_lowerBody (t := t) l ⟨s.nextLabel⟩ notes (Lowering.newLabel s).state
  have hlowest := congrArg (·.state.lowest) hbody
  have hcode := congrArg (·.code) hbody
  exact congrArg₂ (fun lowest code => Body.mk f (alignFrame (-lowest)) ⟨s.nextLabel⟩ code)
    hlowest hcode

end Body

namespace Function

/-- The bodies of functions that are lowered one after the other. -/
def bodies (t : SymbolTable) : List (Function × Layout) → State → List Body
  | [], _ => []
  | (f, l) :: rest, s => .ofFunction t l f s :: bodies t rest (f.lower t l s).2

variable {t : SymbolTable}

theorem function_bodies : ∀ (fs : List (Function × Layout)) (s : State),
    (bodies t fs s).map (·.function) = fs.map (·.1)
  | [], _ => rfl
  | (f, _) :: rest, _ => congrArg (f :: ·) (function_bodies rest _)

theorem routines_lowerAll : ∀ (fs : List (Function × Layout)) (s : State),
    (lowerAll t fs s).1 = (bodies t fs s).map (·.routine t)
  | [], _ => rfl
  | (f, l) :: rest, s => congrArg ((f.lower t l s).1 :: ·) (routines_lowerAll rest _)

/-- Behind the first function the switch is what it was before. -/
theorem bodies_switch (notes : Bool) : ∀ (fs : List (Function × Layout)) (s : State),
    bodies t fs (s.switch notes) = (bodies t fs (s.switch true)).map (·.keep notes)
  | [], _ => rfl
  | (f, l) :: rest, s => by
      have hrest := bodies_switch notes rest (f.lower t l (s.switch true)).2
      rw [← state_lower_switch f l s true] at hrest
      rw [bodies, state_lower_switch f l s notes, hrest, Body.ofFunction_switch]
      rfl

/-- The switch has nothing to do with the labels and texts behind the functions. -/
theorem state_lowerAll_switch (notes : Bool) : ∀ (fs : List (Function × Layout)) (s : State),
    (lowerAll t fs (s.switch notes)).2 = (lowerAll t fs (s.switch true)).2.switch notes
  | [], _ => rfl
  | (f, l) :: rest, s => by
      have hrest := state_lowerAll_switch notes rest (f.lower t l (s.switch true)).2
      rw [← state_lower_switch f l s true] at hrest
      rw [lowerAll, state_lower_switch f l s notes, hrest]
      rfl

end Function

/-! ## Texts that differ in comments -/

/-- The first lines are the second ones with comment lines between them. -/
inductive Commented : List String → List String → Prop
  | nil : Commented [] []
  | line (l : String) {noted plain : List String} (h : Commented noted plain) :
      Commented (l :: noted) (l :: plain)
  | note {text : String} (htext : Unbroken text) {noted plain : List String}
      (h : Commented noted plain) : Commented (("    # " ++ text) :: noted) plain

namespace Commented

theorem refl : ∀ lines : List String, Commented lines lines
  | [] => .nil
  | l :: lines => .line l (refl lines)

theorem append {noted plain noted' plain' : List String} (h : Commented noted plain)
    (h' : Commented noted' plain') : Commented (noted ++ noted') (plain ++ plain') := by
  induction h with
  | nil => exact h'
  | line l _ ih => exact .line l ih
  | note htext _ ih => exact .note htext ih

theorem within {noted plain : List String} (h : Commented noted plain)
    (before after : List String) :
    Commented (before ++ noted ++ after) (before ++ plain ++ after) :=
  ((refl before).append h).append (refl after)

theorem flatMap {α : Type} {f g : α → List String} {xs : List α}
    (h : ∀ x ∈ xs, Commented (f x) (g x)) : Commented (xs.flatMap f) (xs.flatMap g) := by
  induction xs with
  | nil => exact .nil
  | cons x xs ih =>
      rw [List.forall_mem_cons] at h
      exact h.1.append (ih h.2)

/-- Code without its notes has the same lines but for comments. -/
theorem of_code (target : Target) {code : List Line}
    (h : ∀ text, .note text ∈ code → Unbroken text) :
    Commented (code.map (·.text target)) ((kept false code).map (·.text target)) := by
  induction code with
  | nil => exact .nil
  | cons l code ih =>
      have hrest := ih fun text htext => h text (List.mem_cons_of_mem l htext)
      cases l with
      | instr i => exact .line _ hrest
      | label l => exact .line _ hrest
      | note text => exact .note (h text List.mem_cons_self) hrest

end Commented

/-! ## Functions -/

theorem Commented.of_body (target : Target) (t : SymbolTable) {b : Body}
    (h : ∀ text, .note text ∈ b.code → Unbroken text) :
    Commented ((b.routine t).lines target) (((b.keep false).routine t).lines target) := by
  simp only [Routine.lines, Body.routine, List.map_append]
  exact ((of_code target h).within _ _).within _ _

/-- Notes take one line each, whatever the names in the program are. -/
theorem Function.unbroken_notes {t : SymbolTable} (fs : List (Function × Layout))
    (s : State) {b : Body} (hb : b ∈ bodies t fs s) {text : String} (h : .note text ∈ b.code) :
    Unbroken text := by
  -- With nothing asked of names every function is linked, and a note in linked code takes one line.
  have hrefers : ∀ p ∈ fs, p.1.Refers t ⟨fun _ => True, fun _ => True⟩ := fun p _ =>
    ⟨trivial, fun e _ n _ => Expr.refers_of_forall (fun _ => ⟨trivial, trivial⟩) n⟩
  have hlinkage := linkage_lowerAll fs s hrefers
  have hroutine : b.routine t ∈ (lowerAll t fs s).1 := by
    rw [routines_lowerAll]
    exact List.mem_map_of_mem hb
  have hline : .note text ∈ (b.routine t).code :=
    List.mem_append_left _ (List.mem_append_right _ h)
  exact hlinkage.lines _ hroutine _ hline

/-! ## Assemblies -/

/-- The first assembly is the second one with notes inside the bodies of its functions. -/
structure Assembly.Annotates (t : SymbolTable) (fs : List Function)
    (noted plain : Assembly) : Prop where
  /-- Each function has one frame and one end, and its body has notes or has none. -/
  routines : ∃ bodies : List Body, bodies.map (·.function) = fs ∧
    noted.routines = bodies.map (·.routine t) ∧
    plain.routines = bodies.map fun b => (b.keep false).routine t
  commons : noted.commons = plain.commons
  texts : noted.texts = plain.texts
  /-- A note is a comment that takes one line of the text. -/
  lines : ∀ target : Target, Commented (noted.lines target) (plain.lines target)

theorem Assembly.annotates_ofFunctions (t : SymbolTable) (fs : List Function) :
    Annotates (t.allocateAll fs).2 fs (ofFunctions true t fs) (ofFunctions false t fs) := by
  let placed := (t.allocateAll fs).2
  let laid := fs.zip (t.allocateAll fs).1
  let bodies := Function.bodies placed laid (.start true)
  have hnoted : (ofFunctions true t fs).routines = bodies.map (·.routine placed) :=
    Function.routines_lowerAll laid _
  have hplain : (ofFunctions false t fs).routines =
      bodies.map fun b => (b.keep false).routine placed := by
    have hbodies : Function.bodies placed laid (.start false) = bodies.map (·.keep false) :=
      Function.bodies_switch false laid (.start true)
    exact (Function.routines_lowerAll laid _).trans (by rw [hbodies, List.map_map]; rfl)
  have htexts : (ofFunctions true t fs).texts = (ofFunctions false t fs).texts := by
    have hstate := Function.state_lowerAll_switch (t := placed) false laid (.start true)
    exact (congrArg State.texts hstate).symm
  refine ⟨⟨bodies, ?_, hnoted, hplain⟩, rfl, htexts, fun target => ?_⟩
  · have hlaid : laid.map (·.1) = fs := by
      simp only [laid, SymbolTable.allocateAll_eq, ← List.map_prod_left_eq_zip, List.map_map]
      exact List.map_id fs
    rw [Function.function_bodies, hlaid]
  · have hlines : ∀ b ∈ bodies,
        Commented ((b.routine placed).lines target)
          (((b.keep false).routine placed).lines target) := by
      intro b hb
      apply Commented.of_body
      intro text htext
      exact Function.unbroken_notes _ _ hb htext
    rw [lines, lines, hnoted, hplain, htexts, List.flatMap_map, List.flatMap_map]
    exact ((Commented.flatMap hlines).append (.refl _)).append (.refl _)

/-- Notes change comments and nothing else: with notes and without, both runs fail alike or the two
texts are those of one assembly with notes and without. -/
theorem generate_annotated (triple : Triple) (t : SymbolTable) (fs : List Function) :
    (∃ failure, ∀ notes, generate ⟨triple, notes⟩ t fs = .error failure) ∨
      ∃ target noted plain, generate ⟨triple, true⟩ t fs = .ok (Assembly.text target noted) ∧
        generate ⟨triple, false⟩ t fs = .ok (Assembly.text target plain) ∧
        noted.Annotates (t.allocateAll fs).2 fs plain ∧
        noted.text target = ofLines (noted.lines target) ∧
        plain.text target = ofLines (plain.lines target) := by
  cases htarget : Target.ofTriple? triple with
  | none =>
      refine .inl ⟨.unsupportedTarget triple.text, fun notes => ?_⟩
      simp only [generate, htarget]
  | some target =>
      cases hfind : fs.find? (·.hasError) with
      | some f =>
          refine .inl ⟨.erroneousTree (t.symbol f.symbol).name, fun notes => ?_⟩
          simp only [generate, htarget, hfind]
      | none =>
          have hgenerate (notes : Bool) : generate ⟨triple, notes⟩ t fs =
              .ok ((Assembly.ofFunctions notes t fs).text target) := by
            simp only [generate, htarget, hfind]
          refine .inr ⟨target, _, _, hgenerate true, hgenerate false, ?_, ?_⟩
          · exact Assembly.annotates_ofFunctions t fs
          · exact ⟨Assembly.text_eq target _, Assembly.text_eq target _⟩

end LittleC
