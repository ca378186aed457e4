import LittleC.Proofs.Machine.Step
import Mathlib.Logic.Relation

/-! # Runs

What a piece of code does wherever it stands in a routine. Labels are numbered in the order in which
they are handed out, so a piece knows that no line before it has one of its own labels. -/

namespace LittleC

/-- The labels that stand in code have numbers from `lo` up to `hi`. -/
def LabelsIn (lo hi : Nat) (code : List Line) : Prop :=
  ∀ l : Label, Line.label l ∈ code → lo ≤ l.number ∧ l.number < hi

section
variable {lo mid hi : Nat} {code rest : List Line}

theorem labelsIn_nil (lo hi : Nat) : LabelsIn lo hi [] := fun _ h => absurd h List.not_mem_nil

theorem LabelsIn.mono {lo' hi' : Nat} (h : LabelsIn lo hi code) (hlo : lo' ≤ lo) (hhi : hi ≤ hi') :
    LabelsIn lo' hi' code := by
  intro l hl
  obtain ⟨hle, hlt⟩ := h l hl
  exact ⟨Nat.le_trans hlo hle, Nat.lt_of_lt_of_le hlt hhi⟩

theorem LabelsIn.union (hcode : LabelsIn lo hi code) (hrest : LabelsIn lo hi rest) :
    LabelsIn lo hi (code ++ rest) := by
  intro l hl
  rcases List.mem_append.mp hl with hl | hl
  · exact hcode l hl
  · exact hrest l hl

theorem LabelsIn.left (h : LabelsIn lo hi (code ++ rest)) : LabelsIn lo hi code :=
  fun l hl => h l (List.mem_append_left _ hl)

theorem LabelsIn.append (hcode : LabelsIn lo mid code) (hrest : LabelsIn mid hi rest)
    (hlo : lo ≤ mid) (hhi : mid ≤ hi) : LabelsIn lo hi (code ++ rest) :=
  (hcode.mono (Nat.le_refl lo) hhi).union (hrest.mono hlo (Nat.le_refl hi))

/-- A label with a number out of range does not stand in the code. -/
theorem LabelsIn.not_mem {l : Label} (h : LabelsIn lo hi code)
    (hl : l.number < lo ∨ hi ≤ l.number) : Line.label l ∉ code := by
  intro hmem
  obtain ⟨hle, hlt⟩ := h l hmem
  omega

theorem labelsIn_instr (lo hi : Nat) (i : Instr) : LabelsIn lo hi [.instr i] := by
  intro l hl
  cases List.mem_singleton.mp hl

theorem labelsIn_note (lo hi : Nat) (text : String) : LabelsIn lo hi [.note text] := by
  intro l hl
  cases List.mem_singleton.mp hl

theorem labelsIn_label {l : Label} (hlo : lo ≤ l.number) (hhi : l.number < hi) :
    LabelsIn lo hi [.label l] := by
  intro l' hl
  cases List.mem_singleton.mp hl
  exact ⟨hlo, hhi⟩

end

/-- The piece stands at line `i`, behind lines whose labels have numbers below `bound`. -/
def Placed (code : List Line) (i bound : Nat) (piece : List Line) : Prop :=
  ∃ front back, code = front ++ piece ++ back ∧ front.length = i ∧
    ∀ l : Label, Line.label l ∈ front → l.number < bound

namespace Placed

variable {code piece rest : List Line} {i j n k : Nat}

theorem mono (h : Placed code i n piece) (hk : n ≤ k) : Placed code i k piece := by
  obtain ⟨front, back, hcode, hlen, hlabels⟩ := h
  exact ⟨front, back, hcode, hlen, fun l hl => Nat.lt_of_lt_of_le (hlabels l hl) hk⟩

theorem left (h : Placed code i n (piece ++ rest)) : Placed code i n piece := by
  obtain ⟨front, back, hcode, hlen, hlabels⟩ := h
  exact ⟨front, rest ++ back, by rw [hcode]; simp, hlen, hlabels⟩

theorem right (h : Placed code i n (piece ++ rest)) (hpiece : LabelsIn j k piece) (hk : n ≤ k) :
    Placed code (i + piece.length) k rest := by
  obtain ⟨front, back, hcode, hlen, hlabels⟩ := h
  refine ⟨front ++ piece, back, by rw [hcode]; simp, by simp [hlen], ?_⟩
  intro l hl
  rcases List.mem_append.mp hl with hl | hl
  · exact Nat.lt_of_lt_of_le (hlabels l hl) hk
  · exact (hpiece l hl).2

theorem getElem? {line : Line} (h : Placed code i n (line :: rest)) : code[i]? = some line := by
  obtain ⟨front, back, rfl, rfl, -⟩ := h
  simp

/-- A label that stands right behind a piece without it is the first of its kind. -/
theorem line? {l : Label} (h : Placed code i n (piece ++ [.label l])) (hn : n ≤ l.number)
    (hpiece : Line.label l ∉ piece) : l.line? code = some (i + piece.length) := by
  obtain ⟨front, back, hcode, rfl, hlabels⟩ := h
  have hsplit : code = (front ++ piece) ++ (.label l :: back) := by rw [hcode]; simp
  have hfront : Line.label l ∉ front := fun hl => Nat.not_lt_of_le hn (hlabels l hl)
  rw [Label.line?, List.idxOf?_eq_some_iff]
  subst hsplit
  refine ⟨by simp, by simp, ?_⟩
  intro j hj heq
  have hlt : j < (front ++ piece).length := by simpa using hj
  have hmem : Line.label l ∈ front ++ piece := by
    rw [← heq, List.getElem_append_left hlt]
    exact List.getElem_mem hlt
  rcases List.mem_append.mp hmem with hl | hl
  · exact hfront hl
  · exact hpiece hl

end Placed

/-- How a run leaves a piece of code: behind its last line or by a jump. -/
inductive Exit where
  | next
  | jump (l : Label)
  deriving DecidableEq

namespace World

/-- Runs of any number of steps. -/
def Steps (w : World) (code : List Line) : Nat × Machine → Nat × Machine → Prop :=
  Relation.ReflTransGen fun c d => w.step code c.1 c.2 = some d

/-- Wherever the piece stands behind labels below `bound`, it takes the machine from `m` to `m'` and
leaves as `e` says. -/
def Reaches (w : World) (bound : Nat) (piece : List Line) (m : Machine) (e : Exit)
    (m' : Machine) : Prop :=
  ∀ code i, Placed code i bound piece →
    match e with
    | .next => w.Steps code (i, m) (i + piece.length, m')
    | .jump l => ∀ j, l.line? code = some j → w.Steps code (i, m) (j, m')

section
variable {w : World} {j n k : Nat} {piece rest : List Line} {m m' m'' : Machine} {e : Exit}

theorem reaches_nil (w : World) (n : Nat) (m : Machine) : w.Reaches n [] m .next m :=
  fun _ _ _ => .refl

theorem Reaches.append (h : w.Reaches n piece m .next m') (hlabels : LabelsIn j k piece)
    (hk : n ≤ k) (hrest : w.Reaches k rest m' e m'') : w.Reaches n (piece ++ rest) m e m'' := by
  intro code i hplaced
  have hfirst := h code i hplaced.left
  have hthen := hrest code (i + piece.length) (hplaced.right hlabels hk)
  cases e with
  | next =>
      rw [List.length_append, ← Nat.add_assoc]
      exact hfirst.trans hthen
  | jump l => exact fun j hj => hfirst.trans (hthen j hj)

theorem Reaches.append_jump {l : Label} (h : w.Reaches n piece m (.jump l) m')
    (rest : List Line) : w.Reaches n (piece ++ rest) m (.jump l) m' :=
  fun code i hplaced => h code i hplaced.left

theorem reaches_note (w : World) (n : Nat) (text : String) (m : Machine) :
    w.Reaches n [.note text] m .next m := by
  intro code i hplaced
  exact .single (by simp [step, hplaced.getElem?])

theorem reaches_label (w : World) (n : Nat) (l : Label) (m : Machine) :
    w.Reaches n [.label l] m .next m := by
  intro code i hplaced
  exact .single (by simp [step, hplaced.getElem?])

theorem reaches_instr {i : Instr} (hi : i.encodable = true) (h : m.exec w i = some m') (n : Nat) :
    w.Reaches n [.instr i] m .next m' := by
  intro code k hplaced
  refine .single ?_
  have hline := hplaced.getElem?
  cases i with
  | jmp l => cases h
  | jcc c l => cases h
  | _ => simp [step, hline, hi, h]

theorem reaches_jmp (w : World) (n : Nat) (l : Label) (m : Machine) :
    w.Reaches n [.instr (.jmp l)] m (.jump l) m := by
  intro code i hplaced j hj
  exact .single (by simp [step, hplaced.getElem?, hj])

theorem reaches_jcc_taken {c : Comparison} {f : Flags} (hf : m.flags = some f)
    (hc : c.holds f = true) (n : Nat) (l : Label) :
    w.Reaches n [.instr (.jcc c l)] m (.jump l) m := by
  intro code i hplaced j hj
  exact .single (by simp [step, hplaced.getElem?, hf, hc, hj])

theorem reaches_jcc_skipped {c : Comparison} {f : Flags} (hf : m.flags = some f)
    (hc : c.holds f = false) (n : Nat) (l : Label) :
    w.Reaches n [.instr (.jcc c l)] m .next m := by
  intro code i hplaced
  exact .single (by simp [step, hplaced.getElem?, hf, hc])

theorem reaches_jcc {f : Flags} (hf : m.flags = some f) (c : Comparison) (n : Nat) (l : Label) :
    w.Reaches n [.instr (.jcc c l)] m (if c.holds f = true then .jump l else .next) m := by
  split
  · next hc => exact reaches_jcc_taken hf hc n l
  · next hc => exact reaches_jcc_skipped hf (Bool.eq_false_iff.mpr hc) n l

/-- The machine is determined by the code that it has run through. -/
theorem Reaches.unique (h : w.Reaches n piece m .next m') (h' : w.Reaches n piece m .next m'') :
    m' = m'' := by
  have hplaced : Placed piece 0 n piece :=
    ⟨[], [], by rw [List.nil_append, List.append_nil], rfl, fun _ h => absurd h List.not_mem_nil⟩
  have hlast : ∀ a d, w.step piece (0 + piece.length) a ≠ some d := by
    intro a d
    simp [step]
  have hstep : Relator.RightUnique fun c d : Nat × Machine => w.step piece c.1 c.2 = some d :=
    fun _ _ _ h h' => Option.some.inj (h.symm.trans h')
  rcases Relation.ReflTransGen.total_of_right_unique hstep (h piece 0 hplaced) (h' piece 0 hplaced)
    with hsteps | hsteps
  · rcases hsteps.cases_head with heq | ⟨d, hd, -⟩
    · exact congrArg Prod.snd heq
    · exact absurd hd (hlast _ d)
  · rcases hsteps.cases_head with heq | ⟨d, hd, -⟩
    · exact (congrArg Prod.snd heq).symm
    · exact absurd hd (hlast _ d)

/-- A jump to a label and the way through to it meet there. -/
theorem Reaches.mark {l : Label} (h : w.Reaches k piece m e m') (he : e = .next ∨ e = .jump l)
    (hk : n ≤ k) (hn : n ≤ l.number) (hpiece : Line.label l ∉ piece) :
    w.Reaches n (piece ++ [.label l]) m .next m' := by
  intro code i hplaced
  have hline : code[i + piece.length]? = some (.label l) := by
    obtain ⟨front, back, rfl, rfl, -⟩ := hplaced
    simp
  have hlast : w.Steps code (i + piece.length, m') (i + piece.length + 1, m') :=
    .single (by simp [step, hline])
  rw [List.length_append, ← Nat.add_assoc]
  have hrun := h code i (hplaced.left.mono hk)
  rcases he with rfl | rfl
  · exact hrun.trans hlast
  · exact (hrun _ (hplaced.line? hn hpiece)).trans hlast

/-- A jump back to the label that a piece starts with runs the piece again. -/
theorem Reaches.again {l : Label} (h : w.Reaches n (.label l :: piece) m (.jump l) m')
    (hn : n ≤ l.number) (hrest : w.Reaches n (.label l :: piece) m' e m'') :
    w.Reaches n (.label l :: piece) m e m'' := by
  intro code i hplaced
  have hhead : Placed code i n ([.label l] ++ piece) := hplaced
  have hback := h code i hplaced i (hhead.left.line? hn List.not_mem_nil)
  have hthen := hrest code i hplaced
  cases e with
  | next => exact hback.trans hthen
  | jump l' => exact fun j hj => hback.trans (hthen j hj)

end

end World

end LittleC
