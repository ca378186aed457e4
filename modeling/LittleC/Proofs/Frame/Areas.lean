import Mathlib.Data.List.Basic

/-! # Areas of a frame

Places with their sizes. Where each area lies below the one before, no two overlap. -/

namespace LittleC

/-- Bytes of a frame, from an offset on. -/
structure Area where
  offset : Int
  size : Nat
  deriving DecidableEq, Repr

/-- No byte is in both areas. -/
def Area.Disjoint (a b : Area) : Prop := a.offset + a.size ≤ b.offset ∨ b.offset + b.size ≤ a.offset

/-- The areas lead from `hi` down to `lo`. -/
def Descends (hi lo : Int) : List Area → Prop
  | [] => lo = hi
  | a :: rest => a.offset + a.size ≤ hi ∧ Descends a.offset lo rest

namespace Descends

variable {hi mid lo : Int} {as bs : List Area}

theorem append (h : Descends hi mid as) (h' : Descends mid lo bs) : Descends hi lo (as ++ bs) := by
  induction as generalizing hi with
  | nil =>
      cases h
      exact h'
  | cons a as ih => exact ⟨h.1, ih h.2⟩

theorem le (h : Descends hi lo as) : lo ≤ hi := by
  induction as generalizing hi with
  | nil => exact Int.le_of_eq h
  | cons a as ih =>
      have hrest := ih h.2
      have hfirst := h.1
      omega

theorem bounds (h : Descends hi lo as) : ∀ a ∈ as, lo ≤ a.offset ∧ a.offset + a.size ≤ hi := by
  induction as generalizing hi with
  | nil => exact fun _ ha => absurd ha List.not_mem_nil
  | cons b as ih =>
      obtain ⟨hfirst, hrest⟩ := h
      intro a ha
      rcases List.mem_cons.mp ha with rfl | ha
      · exact ⟨hrest.le, hfirst⟩
      · obtain ⟨hlo, hhi⟩ := ih hrest a ha
        exact ⟨hlo, by omega⟩

/-- Every area lies below all areas before it. -/
theorem pairwise (h : Descends hi lo as) : as.Pairwise Area.Disjoint := by
  induction as generalizing hi with
  | nil => exact .nil
  | cons a as ih => exact .cons (fun b hb => .inr (h.2.bounds b hb).2) (ih h.2)

/-- The areas end where the last one begins. -/
theorem lowest (h : Descends hi lo as) : lo ∈ hi :: as.map (·.offset) := by
  induction as generalizing hi with
  | nil =>
      cases h
      exact List.mem_cons_self
  | cons a as ih => exact List.mem_cons_of_mem _ (ih h.2)

end Descends

end LittleC
