import LittleC.Proofs.Text.Lines
import LittleC.Tree.Outline

/-! # Indented forests

An outline is a forest: each line stands above the lines of the nodes below it, which are one level
deeper. The depths alone tell which lines belong together, and the blanks in front of a line tell
its depth, so a forest is read off its text. -/

namespace LittleC

/-- Nodes with what each of them says: the first one, what is below it, and the nodes next to it. -/
inductive Forest where
  | nil
  | cons (text : String) (below next : Forest)
  deriving DecidableEq

namespace Forest

def lines (depth : Nat) : Forest → List OutlineLine
  | nil => []
  | cons text below next => ⟨depth, text⟩ :: (below.lines (depth + 1) ++ next.lines depth)

/-- What the first node says. -/
def first? : Forest → Option String
  | nil => none
  | cons text _ _ => some text

/-- The property holds of what every node says. -/
def All (P : String → Prop) : Forest → Prop
  | nil => True
  | cons text below next => P text ∧ below.All P ∧ next.All P

theorem all_of_mem_lines {P : String → Prop} {l : OutlineLine} : ∀ {f : Forest} {depth : Nat},
    f.All P → l ∈ f.lines depth → P l.text
  | cons text below next, depth, h, hl => by
      rw [lines, List.mem_cons, List.mem_append] at hl
      rcases hl with rfl | hl | hl
      · exact h.1
      · exact all_of_mem_lines h.2.1 hl
      · exact all_of_mem_lines h.2.2 hl

/-- No line of a level or deeper comes first. -/
def Above (depth : Nat) (rest : List OutlineLine) : Prop := ∀ l ∈ rest.head?, l.depth < depth

theorem above_nil (depth : Nat) : Above depth [] := nofun

theorem above_lines {depth : Nat} {rest : List OutlineLine} (h : Above depth rest) (f : Forest) :
    Above (depth + 1) (f.lines depth ++ rest) := by
  cases f with
  | nil =>
      intro l hl
      exact Nat.lt_succ_of_lt (h l hl)
  | cons text below next =>
      rintro l ⟨⟩
      exact Nat.lt_succ_self depth

theorem not_above_cons {depth : Nat} {text : String} {rest : List OutlineLine} :
    ¬Above depth (⟨depth, text⟩ :: rest) := by
  intro h
  exact Nat.lt_irrefl depth (h _ rfl)

/-- The lines of a forest are read up to the first one that stands above it. -/
theorem eq_of_lines : ∀ {f g : Forest} {depth : Nat} {rest rest' : List OutlineLine},
    Above depth rest → Above depth rest' → f.lines depth ++ rest = g.lines depth ++ rest' →
    f = g ∧ rest = rest'
  | nil, nil, depth, rest, rest', _, _, h => ⟨rfl, h⟩
  | nil, cons text below next, depth, rest, rest', habove, _, h => by
      change rest = _ at h
      subst h
      exact absurd habove not_above_cons
  | cons text below next, nil, depth, rest, rest', _, habove, h => by
      change _ = rest' at h
      subst h
      exact absurd habove not_above_cons
  | cons text below next, cons text' below' next', depth, rest, rest', habove, habove', h => by
      simp only [lines, List.cons_append, List.append_assoc, List.cons.injEq,
        OutlineLine.mk.injEq, true_and] at h
      obtain ⟨rfl, hlines⟩ := h
      -- Whatever is next stands above what is below, so the lines below end there in both forests.
      obtain ⟨rfl, hnext⟩ := eq_of_lines (above_lines habove next) (above_lines habove' next')
        hlines
      obtain ⟨rfl, hrest⟩ := eq_of_lines habove habove' hnext
      exact ⟨rfl, hrest⟩

end Forest

/-! ## The text of an outline -/

/-- The text stands on one line and does not begin with a blank. -/
def Flush (text : String) : Prop :=
  Unbroken text ∧ ∀ c ∈ text.toList.head?, c ≠ ' '

theorem OutlineLine.unbroken_render {l : OutlineLine} (h : Flush l.text) : Unbroken l.render := by
  refine unbroken_append.mpr ⟨?_, h.1⟩
  simp [Unbroken]

theorem OutlineLine.eq_of_render {l l' : OutlineLine} (h : Flush l.text) (h' : Flush l'.text)
    (heq : l.render = l'.render) : l = l' := by
  have hblank (n : Nat) : ∀ c ∈ List.replicate n ' ', (c == ' ') = true := by simp
  have hstop {l : OutlineLine} (h : Flush l.text) : ∀ c ∈ l.text.toList.head?, (c == ' ') = false :=
    fun c hc => beq_eq_false_iff_ne.mpr (h.2 c hc)
  have hchars := congrArg String.toList heq
  simp only [render, String.toList_append, String.toList_ofList] at hchars
  obtain ⟨hblanks, htext⟩ := append_inj_of_run (hblank _) (hblank _) (hstop h) (hstop h') hchars
  have hdepth := congrArg List.length hblanks
  simp only [List.length_replicate] at hdepth
  obtain ⟨depth, text⟩ := l
  obtain ⟨depth', text'⟩ := l'
  obtain rfl : depth = depth' := by
    change 2 * depth = 2 * depth' at hdepth
    omega
  exact congrArg (OutlineLine.mk depth) (String.toList_inj.mp htext)

theorem eq_of_map_render : ∀ {ls ls' : List OutlineLine}, (∀ l ∈ ls, Flush l.text) →
    (∀ l ∈ ls', Flush l.text) → ls.map (·.render) = ls'.map (·.render) → ls = ls'
  | [], [], _, _, _ => rfl
  | l :: ls, l' :: ls', h, h', heq => by
      rw [List.forall_mem_cons] at h h'
      obtain ⟨hfirst, hrest⟩ := List.cons.inj heq
      rw [OutlineLine.eq_of_render h.1 h'.1 hfirst, eq_of_map_render h.2 h'.2 hrest]

/-- The lines of an outline are read off its text. -/
theorem eq_of_renderOutline {ls ls' : List OutlineLine} (h : ∀ l ∈ ls, Flush l.text)
    (h' : ∀ l ∈ ls', Flush l.text) (heq : renderOutline ls = renderOutline ls') : ls = ls' := by
  have hlines (ls : List OutlineLine) : renderOutline ls = ofLines (ls.map (·.render)) := by
    rw [ofLines, List.map_map]
    rfl
  have hunbroken {ls : List OutlineLine} (h : ∀ l ∈ ls, Flush l.text) :
      ∀ line ∈ ls.map (·.render), Unbroken line := by
    rintro line hline
    obtain ⟨l, hl, rfl⟩ := List.mem_map.mp hline
    exact OutlineLine.unbroken_render (h l hl)
  have hrender := congrArg textLines heq
  rw [hlines, hlines, textLines_ofLines (hunbroken h), textLines_ofLines (hunbroken h')] at hrender
  exact eq_of_map_render h h' (List.append_cancel_right hrender)

end LittleC
