import LittleC.Assembly
import LittleC.Ty.Lemmas
import Mathlib.Data.List.Basic
import Mathlib.Data.List.Nodup

/-! # Frames have room for what they hold

A layout gives every symbol of a function the place that is written into the table, and every place
that the caller does not decide lies within the bytes that the layout counts. -/

namespace LittleC

/-! ## Places written into the table -/

namespace SymbolTable

section
variable {t : SymbolTable} {x y : SymbolId} {slots : List Slot}

theorem symbol_setOffset_self (h : x.index < t.entries.length) (offset : Int) :
    (t.setOffset x offset).symbol x = { t.symbol x with offset := some offset } := by
  simp [setOffset, symbol, h]

theorem symbol_setOffset_of_ne (h : y ≠ x) (offset : Int) :
    (t.setOffset x offset).symbol y = t.symbol y := by
  have hne : x.index ≠ y.index := fun heq => h (congrArg SymbolId.mk heq.symm)
  simp [setOffset, symbol, hne]

/-- A place changes the offset of its symbol only, if the table has the symbol at all. -/
theorem symbol_setOffset (t : SymbolTable) (x y : SymbolId) (offset : Int) :
    (t.setOffset x offset).symbol y = t.symbol y ∨
      (t.setOffset x offset).symbol y = { t.symbol y with offset := some offset } := by
  by_cases h : y = x
  · subst h
    by_cases hlt : y.index < t.entries.length
    · exact Or.inr (symbol_setOffset_self hlt offset)
    · refine Or.inl ?_
      simp [setOffset, symbol, List.getElem?_eq_none (Nat.le_of_not_lt hlt)]
  · exact Or.inl (symbol_setOffset_of_ne h offset)

theorem ty_setOffset (t : SymbolTable) (x y : SymbolId) (offset : Int) :
    ((t.setOffset x offset).symbol y).ty = (t.symbol y).ty := by
  rcases t.symbol_setOffset x y offset with h | h <;> rw [h]

theorem name_setOffset (t : SymbolTable) (x y : SymbolId) (offset : Int) :
    ((t.setOffset x offset).symbol y).name = (t.symbol y).name := by
  rcases t.symbol_setOffset x y offset with h | h <;> rw [h]

theorem length_setOffset (t : SymbolTable) (x : SymbolId) (offset : Int) :
    (t.setOffset x offset).entries.length = t.entries.length := List.length_modify ..

/-- The table with the places of some slots. -/
def settleAll (t : SymbolTable) (slots : List Slot) : SymbolTable :=
  slots.foldl (fun t s => t.setOffset s.symbol s.offset) t

theorem scopes_settleAll (t : SymbolTable) (slots : List Slot) :
    (t.settleAll slots).scopes = t.scopes := by
  induction slots generalizing t with
  | nil => rfl
  | cons s slots ih => exact ih _

theorem ty_settleAll (t : SymbolTable) (slots : List Slot) (x : SymbolId) :
    ((t.settleAll slots).symbol x).ty = (t.symbol x).ty := by
  induction slots generalizing t with
  | nil => rfl
  | cons s slots ih => exact (ih _).trans (ty_setOffset t s.symbol x s.offset)

theorem name_settleAll (t : SymbolTable) (slots : List Slot) (x : SymbolId) :
    ((t.settleAll slots).symbol x).name = (t.symbol x).name := by
  induction slots generalizing t with
  | nil => rfl
  | cons s slots ih => exact (ih _).trans (name_setOffset t s.symbol x s.offset)

/-- Allocation changes no type. -/
theorem ty_allocate (t : SymbolTable) (f : Function) (x : SymbolId) :
    ((t.allocate f).2.symbol x).ty = (t.symbol x).ty := t.ty_settleAll _ x

/-- Allocation changes no scope. -/
theorem scopes_allocate (t : SymbolTable) (f : Function) : (t.allocate f).2.scopes = t.scopes :=
  t.scopes_settleAll _

theorem nested_eq_of_scopes {u : SymbolTable} (h : u.scopes = t.scopes) (id : ScopeId) :
    u.nested id = t.nested id := by
  induction id using nested.induct t with
  | case1 id ih =>
      rw [nested, nested, scope, scope, h]
      refine List.flatMap_congr fun child hchild => ?_
      split
      · next hnext => rw [ih child hnext]
      · rfl

/-- Slots of other symbols leave a symbol alone. -/
theorem symbol_settleAll_of_not_mem (t : SymbolTable) (h : x ∉ slots.map (·.symbol)) :
    (t.settleAll slots).symbol x = t.symbol x := by
  induction slots generalizing t with
  | nil => rfl
  | cons s slots ih =>
      rw [List.map_cons, List.mem_cons, not_or] at h
      exact (ih _ h.2).trans (symbol_setOffset_of_ne h.1 s.offset)

/-- A symbol gets the place of its slots, if they agree on it. -/
theorem symbol_settleAll_of_agree (t : SymbolTable) {offset : Int}
    (hlt : x.index < t.entries.length) (hagree : ∀ s ∈ slots, s.symbol = x → s.offset = offset) :
    (t.settleAll slots).symbol x =
      if x ∈ slots.map (·.symbol) then { t.symbol x with offset := some offset }
      else t.symbol x := by
  induction slots generalizing t with
  | nil => rfl
  | cons s slots ih =>
      obtain ⟨hfirst, hrest⟩ := List.forall_mem_cons.mp hagree
      show ((t.setOffset s.symbol s.offset).settleAll slots).symbol x = _
      rw [ih _ (by rwa [length_setOffset]) hrest]
      by_cases heq : s.symbol = x
      · subst heq
        have hmem : s.symbol ∈ (s :: slots).map (·.symbol) := List.mem_cons_self
        rw [symbol_setOffset_self hlt, hfirst rfl, if_pos hmem]
        exact ite_self _
      · have hne : x ≠ s.symbol := fun h => heq h.symm
        have hmem : x ∈ (s :: slots).map (·.symbol) ↔ x ∈ slots.map (·.symbol) := by
          simp [hne]
        rw [symbol_setOffset_of_ne hne]
        simp only [hmem]

/-- A symbol with one slot gets the place of the slot. -/
theorem offset_settleAll (t : SymbolTable) {s : Slot} (hnodup : (slots.map (·.symbol)).Nodup)
    (hs : s ∈ slots) (hlt : s.symbol.index < t.entries.length) :
    ((t.settleAll slots).symbol s.symbol).offset = some s.offset := by
  have hagree : ∀ r ∈ slots, r.symbol = s.symbol → r.offset = s.offset := by
    intro r hr heq
    rw [List.inj_on_of_nodup_map hnodup hr hs heq]
  rw [symbol_settleAll_of_agree t hlt hagree, if_pos (List.mem_map_of_mem hs)]

end

end SymbolTable

/-! ## Places that a layout gives -/

namespace Frame

section
variable {t : SymbolTable} {x : SymbolId} {ds : List (SymbolId × Option Int)}

theorem symbols_place (t : SymbolTable) (lowest : Int) :
    ∀ ds : List (SymbolId × Option Int),
      (place t lowest ds).map (·.symbol) = ds.map (·.1)
  | [] => rfl
  | (x, some _) :: rest => congrArg (x :: ·) (symbols_place t lowest rest)
  | (x, none) :: rest => congrArg (x :: ·) (symbols_place t _ rest)

theorem bytesBelow_nonneg (h : ∀ d ∈ ds, 0 ≤ (t.symbol d.1).ty.signedSize) :
    0 ≤ bytesBelow t ds := by
  induction ds with
  | nil => exact Int.le_refl 0
  | cons d rest ih =>
      obtain ⟨hfirst, hrest⟩ := List.forall_mem_cons.mp h
      obtain ⟨x, _ | offset⟩ := d
      · exact Int.add_nonneg hfirst (ih hrest)
      · exact ih hrest

/-- A place that the caller does not decide lies below all places before it, within the bytes that
are counted. -/
theorem slot_of_mem (h : ∀ d ∈ ds, 0 ≤ (t.symbol d.1).ty.signedSize)
    (hx : (x, none) ∈ ds) (lowest : Int) :
    ∃ offset, ⟨x, offset⟩ ∈ place t lowest ds ∧ lowest - bytesBelow t ds ≤ offset ∧
      offset + (t.symbol x).ty.signedSize ≤ lowest := by
  induction ds generalizing lowest with
  | nil => exact absurd hx List.not_mem_nil
  | cons d rest ih =>
      obtain ⟨hfirst, hrest⟩ := List.forall_mem_cons.mp h
      have hnonneg := bytesBelow_nonneg hrest
      obtain ⟨y, _ | pushed⟩ := d
      · rcases List.mem_cons.mp hx with heq | hx
        · obtain rfl : x = y := congrArg Prod.fst heq
          refine ⟨_, List.mem_cons_self, ?_, Int.le_of_eq (Int.sub_add_cancel ..)⟩
          simp only [bytesBelow]
          omega
        · obtain ⟨offset, hmem, hlo, hhi⟩ := ih hrest hx (lowest - (t.symbol y).ty.signedSize)
          refine ⟨offset, List.mem_cons_of_mem _ hmem, ?_, ?_⟩
          · simp only [bytesBelow]
            omega
          · simp only at hfirst
            omega
      · rcases List.mem_cons.mp hx with heq | hx
        · cases heq
        · obtain ⟨offset, hmem, hlo, hhi⟩ := ih hrest hx lowest
          exact ⟨offset, List.mem_cons_of_mem _ hmem, hlo, hhi⟩

/-- The order of the symbols depends on scopes and types only. -/
theorem demands_congr {u : SymbolTable} (hscopes : u.scopes = t.scopes)
    (hty : ∀ x, (u.symbol x).ty = (t.symbol x).ty) (f : Function) : demands u f = demands t f := by
  have hsymbols : u.symbols = t.symbols := by
    funext id
    simp only [SymbolTable.symbols, SymbolTable.scope, hscopes]
  simp only [demands, SymbolTable.paramCount, hsymbols, hty,
    SymbolTable.nested_eq_of_scopes hscopes]

/-- The caller decides no place for the first parameters. -/
theorem mem_demands {f : Function} (t : SymbolTable)
    (hx : x ∈ (t.symbols f.scope).take registerArgs) : (x, none) ∈ demands t f := by
  obtain ⟨i, hi, rfl⟩ := List.mem_iff_getElem.mp hx
  rw [List.length_take] at hi
  have hplace : pushedPlace (t.paramCount f.symbol) i = none :=
    if_neg fun h => absurd h.1 (by omega)
  refine List.mem_append_left _ (List.mem_mapIdx.mpr ⟨i, by omega, ?_⟩)
  rw [hplace, List.getElem_take]

end

end Frame

/-! ## Layouts of functions -/

namespace Function

/-- The layout has the parameters and locals that the caller does not place, and every parameter
that arrives in a register is a single value. -/
structure Laid (f : Function) (t : SymbolTable) (l : Layout) : Prop where
  nonneg : 0 ≤ l.displacement
  places : ∀ x, (x, none) ∈ Frame.demands t f → ∃ offset,
    (t.symbol x).offset = some offset ∧ -l.displacement ≤ offset ∧
      offset + (t.symbol x).ty.size ≤ 0
  params : ∀ p ∈ Routine.registerParams t f, p.ty.isScalar = true

/-- What allocation finds: symbols of the table, each declared once and of a size that fits in an
address, and single values for the parameters that arrive in registers. -/
structure Allocable (f : Function) (t : SymbolTable) : Prop where
  nodup : ((Frame.demands t f).map (·.1)).Nodup
  mem : ∀ d ∈ Frame.demands t f, d.1.index < t.entries.length
  size : ∀ d ∈ Frame.demands t f, (t.symbol d.1).ty.size < 0x8000000000000000
  params : ∀ p ∈ Routine.registerParams t f, p.ty.isScalar = true

section
variable {f : Function} {t : SymbolTable} {x : SymbolId}

theorem Allocable.signedSize (h : f.Allocable t) {d : SymbolId × Option Int}
    (hd : d ∈ Frame.demands t f) :
    (t.symbol d.1).ty.signedSize = (t.symbol d.1).ty.size :=
  Ty.signedBytes_of_lt (h.size d hd)

/-- Allocation puts what the caller does not into the bytes that the layout counts. -/
theorem Allocable.offset (h : f.Allocable t) (hx : (x, none) ∈ Frame.demands t f) :
    ∃ offset, ((t.allocate f).2.symbol x).offset = some offset ∧
      -(t.allocate f).1.displacement ≤ offset ∧ offset + (t.symbol x).ty.size ≤ 0 := by
  have hnonneg : ∀ d ∈ Frame.demands t f, 0 ≤ (t.symbol d.1).ty.signedSize := fun d hd => by
    rw [h.signedSize hd]
    exact Int.natCast_nonneg _
  obtain ⟨offset, hslot, hlo, hhi⟩ := Frame.slot_of_mem hnonneg hx 0
  refine ⟨offset, ?_, by rwa [Int.zero_sub] at hlo, by rwa [h.signedSize hx] at hhi⟩
  refine t.offset_settleAll ?_ hslot (h.mem _ hx)
  rw [Frame.symbols_place]
  exact h.nodup

/-- Allocation leaves the order of the symbols and the parameter count. -/
theorem demands_allocate (t : SymbolTable) (f : Function) :
    Frame.demands (t.allocate f).2 f = Frame.demands t f :=
  Frame.demands_congr (t.scopes_allocate f) (t.ty_allocate f) f

theorem registerParams_allocate (t : SymbolTable) (f : Function) :
    Routine.registerParams (t.allocate f).2 f =
      ((t.symbols f.scope).take (min (t.paramCount f.symbol) registerArgs)).map
        (t.allocate f).2.symbol := by
  have hscopes := t.scopes_allocate f
  simp only [Routine.registerParams, SymbolTable.symbols, SymbolTable.scope,
    SymbolTable.paramCount, hscopes, t.ty_allocate f]

/-- Allocation lays a function out. -/
theorem Allocable.laid (h : f.Allocable t) : f.Laid (t.allocate f).2 (t.allocate f).1 := by
  refine ⟨Frame.bytesBelow_nonneg fun d hd => ?_, fun x hx => ?_, fun p hp => ?_⟩
  · rw [h.signedSize hd]
    exact Int.natCast_nonneg _
  · rw [demands_allocate] at hx
    rw [t.ty_allocate f]
    exact h.offset hx
  · rw [registerParams_allocate] at hp
    obtain ⟨x, hx, rfl⟩ := List.mem_map.mp hp
    rw [t.ty_allocate f]
    exact h.params _ (List.mem_map.mpr ⟨x, hx, rfl⟩)

/-- A parameter that arrives in a register has its place in the layout. -/
theorem Laid.offset {l : Layout} (h : f.Laid t l) {p : Symbol}
    (hp : p ∈ Routine.registerParams t f) : ∃ offset, p.offset = some offset ∧
      -l.displacement ≤ offset ∧ offset + p.ty.size ≤ 0 := by
  obtain ⟨x, hx, rfl⟩ := List.mem_map.mp hp
  exact h.places x (Frame.mem_demands t (List.take_subset_take_left _ (Nat.min_le_right ..) hx))

end

end Function

end LittleC
