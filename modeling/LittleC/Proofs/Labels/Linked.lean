import LittleC.Lowering.Laws
import LittleC.Lowering.Stmt
import Mathlib.Data.List.Nodup

/-! # Labels of lowered code

Which labels a piece of code defines, which ones its jumps go to and which ones its operands read.
One relation says of an action that it defines each label that it takes once, in its code or with
the texts, and refers to no label that nothing defines. -/

namespace LittleC

/-! ## Labels in code -/

def Line.label? : Line → Option Label
  | .label l => some l
  | _ => none

/-- Where a jump goes. -/
def Line.target? : Line → Option Label
  | .instr (.jmp l) | .instr (.jcc _ l) => some l
  | _ => none

/-- The local label that an operand reads from. -/
def Operand.literal? : Operand → Option Label
  | .mem (.literal l) => some l
  | _ => none

/-- What an instruction reads or writes, beside registers that it names itself. -/
def Instr.operands : Instr → List Operand
  | .mov _ source target => [source, target]
  | .lea source _ | .alu _ _ source _ | .cmp _ source _ | .push source => [source]
  | _ => []

/-- The local labels that a line reads from. -/
def Line.literals : Line → List Label
  | .instr i => i.operands.filterMap Operand.literal?
  | _ => []

/-- The labels that a piece of code defines. -/
def labelsOf (code : List Line) : List Label := code.filterMap Line.label?

/-- The labels that a piece of code jumps to. -/
def targetsOf (code : List Line) : List Label := code.filterMap Line.target?

/-- The labels that a piece of code reads from. -/
def literalsOf (code : List Line) : List Label := code.flatMap Line.literals

/-- The labels of some texts. -/
def textLabels (texts : List (Label × String)) : List Label := texts.map (·.1)

theorem labelsOf_append (code code' : List Line) :
    labelsOf (code ++ code') = labelsOf code ++ labelsOf code' := List.filterMap_append ..

theorem targetsOf_append (code code' : List Line) :
    targetsOf (code ++ code') = targetsOf code ++ targetsOf code' := List.filterMap_append ..

theorem textLabels_append (texts texts' : List (Label × String)) :
    textLabels (texts ++ texts') = textLabels texts ++ textLabels texts' := List.map_append

/-- The labels from one number up to another. -/
def labelsBetween (lo hi : Nat) : List Label := (List.range' lo (hi - lo)).map Label.mk

theorem labelsBetween_append {lo mid hi : Nat} (h : lo ≤ mid) (h' : mid ≤ hi) :
    labelsBetween lo mid ++ labelsBetween mid hi = labelsBetween lo hi := by
  have hmid : lo + (mid - lo) = mid := by omega
  have hhi : hi - lo = (mid - lo) + (hi - mid) := by omega
  rw [labelsBetween, labelsBetween, labelsBetween, ← List.map_append, hhi, ← List.range'_append_1,
    hmid]

theorem labelsBetween_cons {lo hi : Nat} (h : lo + 1 ≤ hi) :
    ⟨lo⟩ :: labelsBetween (lo + 1) hi = labelsBetween lo hi := by
  have hfirst : labelsBetween lo (lo + 1) = [⟨lo⟩] := by simp [labelsBetween]
  rw [← labelsBetween_append (Nat.le_succ lo) h, hfirst, List.singleton_append]

theorem labelsBetween_self (n : Nat) : labelsBetween n n = [] := by simp [labelsBetween]

theorem nodup_labelsBetween (lo hi : Nat) : (labelsBetween lo hi).Nodup :=
  List.Nodup.map (fun _ _ heq => congrArg Label.number heq) (List.nodup_range' ..)

theorem mem_labelsBetween {lo hi : Nat} {l : Label} :
    l ∈ labelsBetween lo hi ↔ lo ≤ l.number ∧ l.number < hi := by
  obtain ⟨n⟩ := l
  simp [labelsBetween, List.mem_range'_1]
  omega

/-! ## What code refers to

`labels` are those of the texts so far, and `P` is what is known of file-level names. -/

/-- Properties of the file-level names in code. -/
structure Naming where
  /-- Of the names that operands stand for. -/
  stored : String → Prop
  /-- Of the names of functions that are written or called. -/
  called : String → Prop

section
variable (labels : List Label) (P : Naming)

def Mem.Linked : Mem → Prop
  | .literal l => l ∈ labels
  | .global name => P.stored name
  | _ => True

def Location.Linked : Location → Prop
  | .mem place => place.Linked labels P
  | _ => True

def Operand.Linked : Operand → Prop
  | .mem place => place.Linked labels P
  | _ => True

def Instr.Linked : Instr → Prop
  | .mov _ source target => source.Linked labels P ∧ target.Linked labels P
  | .lea source _ | .alu _ _ source _ | .cmp _ source _ | .push source => source.Linked labels P
  | .call name => P.called name
  | _ => True

/-- A note takes one line. -/
def Line.Linked : Line → Prop
  | .instr i => i.Linked labels P
  | .label _ => True
  | .note text => '\n' ∉ text.toList

end

section
variable {labels labels' : List Label} {P : Naming}

theorem Mem.Linked.mono (h : ∀ l ∈ labels, l ∈ labels') {m : Mem} (hm : m.Linked labels P) :
    m.Linked labels' P := by
  cases m with
  | literal l => exact h l hm
  | _ => exact hm

theorem Location.Linked.mono (h : ∀ l ∈ labels, l ∈ labels') {l : Location}
    (hl : l.Linked labels P) : l.Linked labels' P := by
  cases l with
  | mem place => exact Mem.Linked.mono h hl
  | _ => exact hl

theorem Operand.Linked.mono (h : ∀ l ∈ labels, l ∈ labels') {x : Operand}
    (hx : x.Linked labels P) : x.Linked labels' P := by
  cases x with
  | mem place => exact Mem.Linked.mono h hx
  | _ => exact hx

theorem Line.Linked.mono (h : ∀ l ∈ labels, l ∈ labels') {l : Line} (hl : l.Linked labels P) :
    l.Linked labels' P := by
  cases l with
  | instr i =>
      cases i with
      | mov => exact ⟨hl.1.mono h, hl.2.mono h⟩
      | lea | alu | cmp | push => exact Operand.Linked.mono h hl
      | _ => exact hl
  | _ => exact hl

/-- What a line reads from is among the texts. -/
theorem Line.Linked.mem_labels {l : Line} (hl : l.Linked labels P) :
    ∀ label ∈ l.literals, label ∈ labels := by
  intro label hlabel
  cases l with
  | label | note => exact absurd hlabel List.not_mem_nil
  | instr i =>
      have hmem {x : Operand} (hx : x.Linked labels P) (hread : x.literal? = some label) :
          label ∈ labels := by
        match x, hread with
        | .mem (.literal _), rfl => exact hx
      obtain ⟨x, hoperand, hread⟩ := List.mem_filterMap.mp hlabel
      cases i with
      | mov size source target =>
          rcases List.mem_pair.mp hoperand with rfl | rfl
          · exact hmem hl.1 hread
          · exact hmem hl.2 hread
      | lea | alu | cmp | push =>
          cases List.mem_singleton.mp hoperand
          exact hmem hl hread
      | _ => exact absurd hoperand List.not_mem_nil

/-- The operand of a value refers to what its location does. -/
theorem Value.linked_operand {v : Value} (h : v.location.Linked labels P) :
    v.operand.Linked labels P := by
  unfold Value.operand
  cases hv : v.location with
  | mem place =>
      rw [hv] at h
      exact h
  | _ => trivial

end

namespace Lowering

/-- Every value is at a place that is defined. -/
def State.Linked (P : Naming) (s : State) : Prop :=
  ∀ v, (s.values v).location.Linked (textLabels s.texts) P

/-- What an action that started in `s` leaves: it took the labels from `s.nextLabel` on, of which
its code defines some, beside those in `own`, and the new texts the others. Its jumps stay in its
code or go to labels in `out`. -/
structure Links (P : Naming) (own out : List Label) {α : Type} (s : State) (x : Lowered α) :
    Prop where
  values : x.state.Linked P
  lines : ∀ l ∈ x.code, l.Linked (textLabels x.state.texts) P
  targets : ∀ l ∈ targetsOf x.code, l ∈ labelsOf x.code ∨ l ∈ out
  le : s.nextLabel ≤ x.state.nextLabel
  taken : ∃ inner texts, x.state.texts = s.texts ++ texts ∧ (labelsOf x.code).Perm (own ++ inner) ∧
    (inner ++ textLabels texts).Perm (labelsBetween s.nextLabel x.state.nextLabel)

/-- The action leaves labels linked wherever the operands in `known` are. -/
def Joins (P : Naming) (own out : List Label) (known : List Operand) {α : Type}
    (a : Lowering α) : Prop :=
  ∀ s : State, s.Linked P → (∀ x ∈ known, x.Linked (textLabels s.texts) P) → Links P own out s (a s)

section
variable {P : Naming} {own out : List Label} {known : List Operand} {α β : Type}

theorem Links.texts_subset {s : State} {x : Lowered α} (h : Links P own out s x) :
    ∀ l ∈ textLabels s.texts, l ∈ textLabels x.state.texts := by
  obtain ⟨_, texts, htexts, -⟩ := h.taken
  rw [htexts, textLabels_append]
  exact fun l hl => List.mem_append_left _ hl

/-- Nothing was taken, and the code has neither labels nor jumps. -/
theorem Links.of_plain {s : State} {x : Lowered α} (hvalues : x.state.Linked P)
    (hlines : ∀ l ∈ x.code, l.Linked (textLabels x.state.texts) P) (hlabels : labelsOf x.code = [])
    (htargets : ∀ l ∈ targetsOf x.code, l ∈ out) (htexts : x.state.texts = s.texts)
    (hnext : x.state.nextLabel = s.nextLabel) : Links P [] out s x := by
  refine ⟨hvalues, hlines, fun l hl => .inr (htargets l hl), Nat.le_of_eq hnext.symm,
    [], [], ?_, ?_, ?_⟩
  · rw [htexts, List.append_nil]
  · rw [hlabels]
    exact .refl _
  · rw [hnext, labelsBetween_self]
    exact .refl _

namespace Joins

/-! ## Elementary actions -/

theorem pure (x : α) : Joins P [] out known (pure x) := fun _ hs _ =>
  .of_plain hs (fun _ hl => absurd hl List.not_mem_nil) rfl
    (fun _ hl => absurd hl List.not_mem_nil) rfl rfl

theorem bind {a : Lowering α} {f : α → Lowering β} (ha : Joins P [] out known a)
    (hf : ∀ x, Joins P own out known (f x)) : Joins P own out known (a >>= f) := by
  intro s hs hknown
  have h := ha s hs hknown
  have h' := hf (a s).result (a s).state h.values fun x hx => (hknown x hx).mono h.texts_subset
  obtain ⟨inner, texts, htexts, hlabels, htaken⟩ := h.taken
  obtain ⟨inner', texts', htexts', hlabels', htaken'⟩ := h'.taken
  refine ⟨h'.values, fun l hl => ?_, fun l hl => ?_, Nat.le_trans h.le h'.le, inner ++ inner',
    texts ++ texts', ?_, ?_, ?_⟩
  · rcases List.mem_append.mp hl with hl | hl
    · exact (h.lines l hl).mono h'.texts_subset
    · exact h'.lines l hl
  · rw [bind_apply, targetsOf_append, List.mem_append] at hl
    rw [bind_apply, labelsOf_append, List.mem_append]
    rcases hl with hl | hl
    · exact (h.targets l hl).imp_left .inl
    · exact (h'.targets l hl).imp_left .inr
  · rw [bind_apply, htexts', htexts, List.append_assoc]
  · rw [bind_apply, labelsOf_append]
    refine (hlabels.append hlabels').trans ?_
    rw [List.nil_append, ← List.append_assoc, ← List.append_assoc]
    exact List.perm_append_comm.append_right inner'
  · rw [bind_apply, textLabels_append, ← labelsBetween_append h.le h'.le]
    refine List.Perm.trans ?_ (htaken.append htaken')
    rw [List.append_assoc, List.append_assoc]
    refine List.Perm.append_left inner ?_
    rw [← List.append_assoc, ← List.append_assoc]
    exact List.perm_append_comm.append_right _

theorem inspect_bind {f : State → α} {g : α → Lowering β} (hg : ∀ x, Joins P own out known (g x)) :
    Joins P own out known (inspect f >>= g) := fun s hs hknown => hg (f s) s hs hknown

/-- A value that is read refers to labels that are defined. -/
theorem valueOf_bind {v : ValueId} {g : Value → Lowering β}
    (hg : ∀ x : Value, Joins P own out (x.operand :: known) (g x)) :
    Joins P own out known (valueOf v >>= g) := fun s hs hknown =>
  hg (s.values v) s hs (List.forall_mem_cons.mpr ⟨Value.linked_operand (hs v), hknown⟩)

theorem operand_bind {v : ValueId} {g : Operand → Lowering β}
    (hg : ∀ x, Joins P own out (x :: known) (g x)) :
    Joins P own out known (Lowering.operand v >>= g) := fun s hs hknown =>
  hg (s.values v).operand s hs (List.forall_mem_cons.mpr ⟨Value.linked_operand (hs v), hknown⟩)

/-- An update that takes no label and moves values to places that need none. -/
theorem update {f : State → State} (htexts : ∀ s, (f s).texts = s.texts)
    (hnext : ∀ s, (f s).nextLabel = s.nextLabel)
    (hvalues : ∀ (s : State) v labels, (∀ w, (s.values w).location.Linked labels P) →
      ((f s).values v).location.Linked labels P) : Joins P [] out known (update f) :=
  fun s hs _ => .of_plain (fun v => htexts s ▸ hvalues s v _ hs)
    (fun _ hl => absurd hl List.not_mem_nil) rfl (fun _ hl => absurd hl List.not_mem_nil) (htexts s)
    (hnext s)

theorem emit {i : Instr} (htarget : ∀ l ∈ (Line.instr i).target?, l ∈ out)
    (hi : ∀ labels, (∀ x ∈ known, x.Linked labels P) → i.Linked labels P) :
    Joins P [] out known (emit i) := fun s hs hknown => by
  refine .of_plain hs (fun l hl => ?_) rfl (fun l hl => ?_) rfl rfl
  · cases List.mem_singleton.mp hl
    exact hi _ hknown
  · obtain ⟨line, hline, hl⟩ := List.mem_filterMap.mp hl
    cases List.mem_singleton.mp hline
    exact htarget l hl

/-- An instruction that is no jump. -/
theorem emit_bind {i : Instr} {f : Unit → Lowering β} (htarget : (Line.instr i).target? = none)
    (hi : ∀ labels, (∀ x ∈ known, x.Linked labels P) → i.Linked labels P)
    (hf : Joins P own out known (f ())) : Joins P own out known (Lowering.emit i >>= f) :=
  (emit (fun _ hl => by rw [htarget] at hl; cases hl) hi).bind fun _ => hf

theorem jump_bind {c : Comparison} {l : Label} {f : Unit → Lowering β} (hl : l ∈ out)
    (hf : Joins P own out known (f ())) :
    Joins P own out known (Lowering.emit (.jcc c l) >>= f) := by
  refine (emit (fun l' hl' => ?_) fun _ _ => ?_).bind fun _ => hf
  · exact Option.some.inj hl' ▸ hl
  · trivial

theorem note {text : String} (h : '\n' ∉ text.toList) : Joins P [] out known (note text) := by
  refine inspect_bind fun on => ?_
  split
  · intro s hs _
    refine .of_plain hs (fun l hl => ?_) rfl (fun _ hl => absurd hl List.not_mem_nil) rfl rfl
    cases List.mem_singleton.mp hl
    exact h
  · exact pure _

theorem newValue {location : Location} {size : Nat}
    (hlocation : ∀ labels, (∀ x ∈ known, x.Linked labels P) → location.Linked labels P) :
    Joins P [] out known (newValue location size) := fun s hs hknown => by
  obtain ⟨hlabel, -, htexts, -⟩ := s.rest_addValue ⟨location, size⟩
  refine .of_plain (fun v => ?_) (fun _ hl => absurd hl List.not_mem_nil) rfl
    (fun _ hl => absurd hl List.not_mem_nil) htexts hlabel
  rw [newValue_apply, htexts, State.values_addValue_apply]
  split
  · exact hlocation _ hknown
  · exact hs v

/-! ## Labels -/

/-- A label that is taken is one that the rest has to define. -/
theorem newLabel_bind {f : Label → Lowering β}
    (hf : ∀ l, Joins P (l :: own) (l :: out) known (f l)) :
    Joins P own out known (newLabel >>= f) := by
  intro s hs hknown
  have h := hf ⟨s.nextLabel⟩ { s with nextLabel := s.nextLabel + 1 } hs hknown
  obtain ⟨inner, texts, htexts, hlabels, htaken⟩ := h.taken
  refine ⟨h.values, h.lines, fun l hl => ?_, Nat.le_of_succ_le h.le, ⟨s.nextLabel⟩ :: inner, texts,
    htexts, ?_, ?_⟩
  · rcases h.targets l hl with hl | hl
    · exact .inl hl
    · rcases List.mem_cons.mp hl with rfl | hl
      · exact .inl (hlabels.mem_iff.mpr List.mem_cons_self)
      · exact .inr hl
  · exact hlabels.trans List.perm_middle.symm
  · exact (List.Perm.cons _ htaken).trans (.of_eq (labelsBetween_cons h.le))

/-- A label that is written is one that the rest need not define. -/
theorem mark_bind {l : Label} {rest : List Label} {f : Unit → Lowering β}
    (hown : own.Perm (l :: rest)) (hf : Joins P rest out known (f ())) :
    Joins P own out known (mark l >>= f) := by
  intro s hs hknown
  have h := hf s hs hknown
  obtain ⟨inner, texts, htexts, hlabels, htaken⟩ := h.taken
  refine ⟨h.values, List.forall_mem_cons.mpr ⟨trivial, h.lines⟩, fun l' hl => ?_, h.le,
    inner, texts, htexts, ?_, htaken⟩
  · exact (h.targets l' hl).imp_left (List.mem_cons_of_mem l)
  · exact (List.Perm.cons l hlabels).trans (hown.symm.append_right inner)

theorem mark (l : Label) : Joins P [l] out known (mark l) := by
  have h : Joins P [l] out known (Lowering.mark l >>= Pure.pure) := mark_bind (.refl _) (pure ())
  rwa [bind_pure] at h

/-- A text takes a label and stands under it. -/
theorem internText_bind {text : String} {f : Label → Lowering β}
    (hf : ∀ l, Joins P own out (.mem (.literal l) :: known) (f l)) :
    Joins P own out known (internText text >>= f) := by
  intro s hs hknown
  have hsubset : ∀ l ∈ textLabels s.texts, l ∈ textLabels (s.texts ++ [(⟨s.nextLabel⟩, text)]) :=
    fun l hl => by
      rw [textLabels_append]
      exact List.mem_append_left _ hl
  have hnew : (⟨s.nextLabel⟩ : Label) ∈ textLabels (s.texts ++ [(⟨s.nextLabel⟩, text)]) := by
    rw [textLabels_append]
    exact List.mem_append_right _ List.mem_cons_self
  have h := hf ⟨s.nextLabel⟩
    { s with nextLabel := s.nextLabel + 1, texts := s.texts ++ [(⟨s.nextLabel⟩, text)] }
    (fun v => (hs v).mono hsubset)
    (List.forall_mem_cons.mpr ⟨hnew, fun x hx => (hknown x hx).mono hsubset⟩)
  obtain ⟨inner, texts, htexts, hlabels, htaken⟩ := h.taken
  refine ⟨h.values, h.lines, h.targets, Nat.le_of_succ_le h.le, inner,
    (⟨s.nextLabel⟩, text) :: texts, ?_, hlabels, ?_⟩
  · exact htexts.trans (List.append_assoc ..)
  · exact List.perm_middle.trans
      ((List.Perm.cons _ htaken).trans (.of_eq (labelsBetween_cons h.le)))

/-- What is closed in itself is so in every surrounding. -/
theorem lift {a : Lowering α} (h : Joins P [] [] [] a) : Joins P [] out known a := fun s hs _ => by
  have h := h s hs fun _ hx => absurd hx List.not_mem_nil
  exact ⟨h.values, h.lines, fun l hl => .inl ((h.targets l hl).resolve_right List.not_mem_nil),
    h.le, h.taken⟩

end Joins

end

end Lowering

end LittleC
