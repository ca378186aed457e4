import LittleC.Proofs.Frame.Program
import LittleC.Proofs.Lowering.Stack
import LittleC.Proofs.Notes.Kept
import LittleC.Proofs.Registers.Trees
import Mathlib.Algebra.Order.BigOperators.Group.List

/-! # No byte of a frame is used twice

Locals lead down from the frame base, and the temporaries of the body lead down from the lowest
local. The frame is what lies above the lowest temporary, rounded up. -/

namespace LittleC

open Lowering (State spills)

/-- The bytes that a slot takes. -/
def Slot.area (t : SymbolTable) (s : Slot) : Area := ⟨s.offset, (t.symbol s.symbol).ty.size⟩

/-- The stack word at a slot. -/
def Slot.word (s : Slot) : Area := ⟨s.offset, wordSize⟩

/-- The slots below the frame base of a function with `params` parameters: those of parameters that
arrive in registers, and of locals. -/
def Layout.below (l : Layout) (params : Nat) : List Slot :=
  l.slots.take registerArgs ++ l.slots.drop (max registerArgs params)

/-- The slots of the parameters that the caller pushed. -/
def Layout.pushed (l : Layout) (params : Nat) : List Slot := (l.slots.take params).drop registerArgs

/-! ## Places of a part of a frame -/

namespace Frame

section
variable {t : SymbolTable} {ds : List (SymbolId × Option Int)} {lowest : Int}

theorem bytesBelow_append (t : SymbolTable) (ds es : List (SymbolId × Option Int)) :
    bytesBelow t (ds ++ es) = bytesBelow t ds + bytesBelow t es := by
  induction ds with
  | nil => exact (Int.zero_add _).symm
  | cons d ds ih => obtain ⟨x, _ | offset⟩ := d <;> simp [bytesBelow, ih, Int.add_assoc]

theorem take_place (t : SymbolTable) (lowest : Int) :
    ∀ (k : Nat) (ds : List (SymbolId × Option Int)),
      (place t lowest ds).take k = place t lowest (ds.take k)
  | 0, _ => by simp [place]
  | _ + 1, [] => rfl
  | k + 1, (x, some _) :: ds => congrArg (_ :: ·) (take_place t lowest k ds)
  | k + 1, (x, none) :: ds => congrArg (_ :: ·) (take_place t _ k ds)

theorem drop_place (t : SymbolTable) (lowest : Int) :
    ∀ (k : Nat) (ds : List (SymbolId × Option Int)),
      (place t lowest ds).drop k = place t (lowest - bytesBelow t (ds.take k)) (ds.drop k)
  | 0, ds => by simp [bytesBelow]
  | _ + 1, [] => rfl
  | k + 1, (x, some _) :: ds => drop_place t lowest k ds
  | k + 1, (x, none) :: ds => by
      rw [place, List.drop_succ_cons, drop_place t _ k ds]
      simp [bytesBelow, Int.sub_sub]

/-- Where the caller decides nothing, each slot lies right below the one before. -/
theorem descends_place (hsize : ∀ d ∈ ds, (t.symbol d.1).ty.size < 0x8000000000000000)
    (hnone : ∀ d ∈ ds, d.2 = none) (lowest : Int) :
    Descends lowest (lowest - bytesBelow t ds) ((place t lowest ds).map (·.area t)) := by
  induction ds generalizing lowest with
  | nil => exact Int.sub_zero lowest
  | cons d ds ih =>
      obtain ⟨hfirst, hrest⟩ := List.forall_mem_cons.mp hsize
      obtain ⟨x, place⟩ := d
      obtain rfl : place = none := hnone _ List.mem_cons_self
      have hbytes : (t.symbol x).ty.signedSize = (t.symbol x).ty.size := Ty.signedBytes_of_lt hfirst
      have hdescends := ih hrest (fun d hd => hnone d (List.mem_cons_of_mem _ hd))
        (lowest - (t.symbol x).ty.signedSize)
      rw [Int.sub_sub] at hdescends
      refine ⟨?_, hdescends⟩
      simp only [Slot.area, hbytes]
      omega

/-- Where the caller decides all, its places are taken and nothing is put below the frame base. -/
theorem place_of_isSome (h : ∀ d ∈ ds, d.2.isSome = true) (lowest : Int) :
    place t lowest ds = ds.map (fun d => ⟨d.1, d.2.getD 0⟩) ∧ bytesBelow t ds = 0 := by
  induction ds with
  | nil => exact ⟨rfl, rfl⟩
  | cons d ds ih =>
      obtain ⟨hplace, hbytes⟩ := ih fun d hd => h d (List.mem_cons_of_mem _ hd)
      obtain ⟨x, _ | offset⟩ := d
      · exact absurd (h _ List.mem_cons_self) nofun
      · exact ⟨congrArg (_ :: ·) hplace, hbytes⟩

/-! ## The demands of a function -/

variable {f : Function} {i : Nat} {d : SymbolId × Option Int}

/-- The place that the caller decides depends on the position only. -/
theorem place_of_getElem? (hparams : t.paramCount f.symbol ≤ (t.symbols f.scope).length)
    (hd : (demands t f)[i]? = some d) : d.2 = pushedPlace (t.paramCount f.symbol) i := by
  rw [demands, List.getElem?_append, List.length_mapIdx] at hd
  split at hd
  · rw [List.getElem?_mapIdx] at hd
    obtain ⟨x, -, rfl⟩ := Option.map_eq_some_iff.mp hd
    rfl
  · rw [List.getElem?_map] at hd
    obtain ⟨x, -, rfl⟩ := Option.map_eq_some_iff.mp hd
    exact (if_neg (by omega)).symm

theorem isNone_of_mem_take (hparams : t.paramCount f.symbol ≤ (t.symbols f.scope).length)
    (hd : d ∈ (demands t f).take registerArgs) : d.2 = none := by
  obtain ⟨i, hi⟩ := List.mem_iff_getElem?.mp hd
  rw [List.getElem?_take] at hi
  split at hi
  · rw [place_of_getElem? hparams hi, pushedPlace, if_neg (by omega)]
  · cases hi

theorem isNone_of_mem_drop (hparams : t.paramCount f.symbol ≤ (t.symbols f.scope).length)
    (hd : d ∈ (demands t f).drop (max registerArgs (t.paramCount f.symbol))) : d.2 = none := by
  obtain ⟨i, hi⟩ := List.mem_iff_getElem?.mp hd
  rw [List.getElem?_drop] at hi
  rw [place_of_getElem? hparams hi, pushedPlace, if_neg (by omega)]

/-- The parameters that the caller pushes. -/
def pushedDemands (t : SymbolTable) (f : Function) : List (SymbolId × Option Int) :=
  ((demands t f).take (t.paramCount f.symbol)).drop registerArgs

theorem getElem?_pushedDemands (hparams : t.paramCount f.symbol ≤ (t.symbols f.scope).length)
    (hd : (pushedDemands t f)[i]? = some d) :
    i < t.paramCount f.symbol - registerArgs ∧ d.2 = some (pushedOffset (registerArgs + i)) := by
  rw [pushedDemands, List.getElem?_drop, List.getElem?_take] at hd
  split at hd
  · next hlt =>
      refine ⟨by omega, ?_⟩
      rw [place_of_getElem? hparams hd, pushedPlace, if_pos ⟨by omega, hlt⟩]
  · cases hd

theorem isSome_of_mem_pushed (hparams : t.paramCount f.symbol ≤ (t.symbols f.scope).length)
    (hd : d ∈ pushedDemands t f) : d.2.isSome = true := by
  obtain ⟨i, hi⟩ := List.mem_iff_getElem?.mp hd
  rw [(getElem?_pushedDemands hparams hi).2]
  rfl

theorem take_demands (t : SymbolTable) (f : Function) :
    (demands t f).take (max registerArgs (t.paramCount f.symbol)) =
      (demands t f).take registerArgs ++ pushedDemands t f := by
  rw [pushedDemands]
  by_cases h : t.paramCount f.symbol ≤ registerArgs
  · have hnone : ((demands t f).take (t.paramCount f.symbol)).drop registerArgs = [] :=
      List.drop_eq_nil_of_le (Nat.le_trans (List.length_take_le ..) h)
    rw [hnone, List.append_nil, Nat.max_eq_left h]
  · have hmin : min registerArgs (t.paramCount f.symbol) = registerArgs :=
      Nat.min_eq_left (by omega)
    have hfirst : ((demands t f).take (t.paramCount f.symbol)).take registerArgs =
        (demands t f).take registerArgs := by rw [List.take_take, hmin]
    rw [Nat.max_eq_right (by omega), ← hfirst, List.take_append_drop]

theorem length_pushedDemands (hparams : t.paramCount f.symbol ≤ (t.symbols f.scope).length) :
    (pushedDemands t f).length = t.paramCount f.symbol - registerArgs := by
  rw [pushedDemands, List.length_drop, List.length_take, demands, List.length_append,
    List.length_mapIdx]
  omega

/-- Parameters in registers and locals lead down from the frame base to the displacement. -/
theorem descends_layout (hparams : t.paramCount f.symbol ≤ (t.symbols f.scope).length)
    (hsize : ∀ d ∈ demands t f, (t.symbol d.1).ty.size < 0x8000000000000000) :
    Descends 0 (-(layout t f).displacement)
      (((layout t f).below (t.paramCount f.symbol)).map (·.area t)) := by
  have hbytes : bytesBelow t (pushedDemands t f) = 0 :=
    (place_of_isSome (fun d hd => isSome_of_mem_pushed hparams hd) 0).2
  have hfirst := descends_place
    (fun d (hd : d ∈ (demands t f).take registerArgs) => hsize d (List.mem_of_mem_take hd))
    (fun d hd => isNone_of_mem_take hparams hd) 0
  have hlast := descends_place
    (fun d (hd : d ∈ (demands t f).drop (max registerArgs (t.paramCount f.symbol))) =>
      hsize d (List.mem_of_mem_drop hd))
    (fun d hd => isNone_of_mem_drop hparams hd) (0 - bytesBelow t ((demands t f).take registerArgs))
  have htotal : bytesBelow t (demands t f) = bytesBelow t ((demands t f).take registerArgs) +
      bytesBelow t ((demands t f).drop (max registerArgs (t.paramCount f.symbol))) := by
    conv_lhs =>
      rw [← List.take_append_drop (max registerArgs (t.paramCount f.symbol)) (demands t f)]
    rw [bytesBelow_append, take_demands, bytesBelow_append, hbytes, Int.add_zero]
  have hdescends := hfirst.append hlast
  rw [Int.sub_sub, ← htotal, Int.zero_sub] at hdescends
  rw [Layout.below, layout, List.map_append, take_place, drop_place, take_demands,
    bytesBelow_append, hbytes, Int.add_zero]
  exact hdescends

/-- Pushed parameters have the stack words above the frame base and the return address. -/
theorem words_layout (hparams : t.paramCount f.symbol ≤ (t.symbols f.scope).length) :
    ((layout t f).pushed (t.paramCount f.symbol)).map (·.word) =
      (List.range (t.paramCount f.symbol - registerArgs)).map fun (j : Nat) =>
        ⟨16 + 8 * j, wordSize⟩ := by
  rw [Layout.pushed, layout, take_place, drop_place, ← pushedDemands,
    (place_of_isSome (fun d hd => isSome_of_mem_pushed hparams hd) _).1, List.map_map]
  refine List.ext_getElem? fun i => ?_
  rw [List.getElem?_map, List.getElem?_map]
  by_cases hi : i < t.paramCount f.symbol - registerArgs
  · have hlt : i < (pushedDemands t f).length := by rwa [length_pushedDemands hparams]
    have hplace := (getElem?_pushedDemands hparams (List.getElem?_eq_getElem hlt)).2
    rw [List.getElem?_eq_getElem hlt, List.getElem?_range hi]
    simp [Slot.word, hplace, pushedOffset, wordSize]
    omega
  · rw [List.getElem?_eq_none (by rw [length_pushedDemands hparams]; omega),
      List.getElem?_eq_none (by rw [List.length_range]; omega)]
    rfl

/-- Pushed parameters are parameters. -/
theorem mem_of_mem_pushed (hparams : t.paramCount f.symbol ≤ (t.symbols f.scope).length) {p : Slot}
    (hp : p ∈ (layout t f).pushed (t.paramCount f.symbol)) :
    p.symbol ∈ (t.symbols f.scope).take (t.paramCount f.symbol) := by
  have hmem := List.mem_map_of_mem (f := Slot.symbol) (List.mem_of_mem_drop hp)
  rwa [List.map_take, layout, symbols_place, map_demands, List.flatMap_cons,
    List.take_append_of_le_length hparams] at hmem

/-- Words in a row do not overlap. -/
theorem pairwise_words (n : Nat) :
    ((List.range n).map fun (j : Nat) => Area.mk (16 + 8 * j) wordSize).Pairwise Area.Disjoint := by
  refine List.pairwise_map.mpr (List.pairwise_lt_range.imp fun {i j} hlt => .inl ?_)
  simp only [wordSize]
  omega

end

end Frame

/-! ## Main statement -/

namespace Function

variable {f : Function} {t : SymbolTable} {l : Layout} {s : State}

/-- The bytes of the frame that are in use: those of parameters from registers and locals, and the
temporaries of the code. Notes tell these from other stores, so they are read off the code with
notes, which without them is the same. -/
def areas (f : Function) (t : SymbolTable) (l : Layout) (s : State) : List Area :=
  (l.below (t.paramCount f.symbol)).map (·.area t) ++
    spills (f.lower t l (s.switch true)).1.code

/-- How a function uses the memory of its frame. -/
structure Packed (f : Function) (t : SymbolTable) (l : Layout) (s : State) : Prop where
  /-- The prologue takes the frame off the stack pointer, if there is any. -/
  code : (f.lower t l s).1.code = [.instr .saveFrame, .instr .enterFrame] ++
    (if 0 < f.reserved t l s then [.instr (.reserve (f.reserved t l s))] else []) ++
    f.inner t l s ++ [.instr .leaveFrame, .instr .restoreFrame, .instr .ret]
  disjoint : (f.areas t l s).Pairwise Area.Disjoint
  within : ∀ a ∈ f.areas t l s, -f.reserved t l s ≤ a.offset ∧ a.offset + a.size ≤ 0
  aligned : 16 ∣ f.reserved t l s
  /-- Less than sixteen bytes of the frame lie below all that is in use. -/
  tight : ∃ o ∈ 0 :: (f.areas t l s).map (·.offset), o ≤ 0 ∧ (∀ a ∈ f.areas t l s, o ≤ a.offset) ∧
    -o ≤ f.reserved t l s ∧ f.reserved t l s < -o + 16
  /-- Pushed parameters have the words from the return address upwards, each its own. -/
  words : (l.pushed (t.paramCount f.symbol)).map (·.word) =
    (List.range (t.paramCount f.symbol - registerArgs)).map fun (j : Nat) => ⟨16 + 8 * j, wordSize⟩
  apart : ((l.pushed (t.paramCount f.symbol)).map (·.word)).Pairwise Area.Disjoint
  fits : ∀ p ∈ l.pushed (t.paramCount f.symbol), (t.symbol p.symbol).ty.size ≤ wordSize
  /-- The symbols of the function's scopes have one slot each. -/
  slots : (l.slots.map (·.symbol)).Nodup ∧ ∀ x, x ∈ l.slots.map (·.symbol) ↔
    ∃ p, t.Encloses f.scope p ∧ x ∈ t.symbols p
  settled : ∀ p ∈ l.slots, (t.symbol p.symbol).offset = some p.offset

theorem reserved_of_nonneg (h : 0 ≤ -(f.lower t l s).2.lowest) :
    -(f.lower t l s).2.lowest ≤ f.reserved t l s ∧
      f.reserved t l s < -(f.lower t l s).2.lowest + 16 := by
  simp only [reserved, frame, alignFrame]
  rw [Int.tdiv_eq_ediv_of_nonneg (by omega)]
  omega

theorem spills_of_isStraight {code : List Line} (h : ∀ line ∈ code, ∀ text, line ≠ .note text) :
    spills code = [] := by
  induction code with
  | nil => rfl
  | cons line code ih =>
      obtain ⟨-, hcode⟩ := List.forall_mem_cons.mp h
      rw [Lowering.spills_cons line, ih hcode]
      intro hnote
      exact hcode _ (List.mem_of_mem_head? hnote) _ rfl

theorem spills_saveParams : ∀ (ps : List Symbol) (rs : List Reg),
    ∀ line ∈ List.zipWith Routine.saveParam ps rs, ∀ text, line ≠ .note text
  | [], _ => fun _ h => absurd h List.not_mem_nil
  | _ :: _, [] => fun _ h => absurd h List.not_mem_nil
  | _ :: ps, _ :: rs => List.forall_mem_cons.mpr ⟨nofun, spills_saveParams ps rs⟩

theorem opening_eq (f : Function) (t : SymbolTable) (l : Layout) (s : State) :
    f.opening t l s = [.instr .saveFrame, .instr .enterFrame] ++
      if 0 < f.reserved t l s then [.instr (.reserve (f.reserved t l s))] else [] := by
  by_cases hpos : 0 < f.frame t l s
  · rw [opening, reserved, Int.max_eq_right (Int.le_of_lt hpos)]
  · rw [opening, reserved, Int.max_eq_left (Int.not_lt.mp hpos), if_neg hpos,
      if_neg (Int.lt_irrefl 0)]

/-- All temporaries of a function are those of its body. -/
theorem spills_code (hhead : (Stmt.lowerAll t ⟨s.nextLabel⟩ f.body (bodyStart s l)).code.head? ≠
    some (.note "spill")) : spills (f.lower t l s).1.code =
      spills (Stmt.lowerAll t ⟨s.nextLabel⟩ f.body (bodyStart s l)).code := by
  have hprologue : spills (Routine.prologue t f (f.frame t l s)) = [] := by
    refine spills_of_isStraight fun line hline => ?_
    rcases List.mem_append.mp hline with hline | hline
    · intro text hnote
      subst hnote
      split at hline <;> simp at hline
    · exact spills_saveParams _ _ line hline
  rw [code_lower, Lowering.spills_append (by simp [Routine.epilogue]),
    Lowering.spills_append hhead, hprologue, List.nil_append]
  exact List.append_nil _

/-- Temporaries lie below all locals, each below those before it. -/
theorem descends_areas (hresult : (t.symbol f.symbol).ty.isFunction = true)
    (hbody : ∀ st ∈ f.body, st.Accepted t (t.symbol f.symbol).ty.result)
    (hparams : t.paramCount f.symbol ≤ (t.symbols f.scope).length)
    (hsize : ∀ d ∈ Frame.demands t f, (t.symbol d.1).ty.size < 0x8000000000000000) (s : State) :
    Descends 0 (f.lower t (Frame.layout t f) s).2.lowest (f.areas t (Frame.layout t f) s) := by
  have hs : (bodyStart (s.switch true) (Frame.layout t f)).Sound :=
    Lowering.State.sound_of_empty fun _ => rfl
  have horderly := Lowering.orderly_all f.body fun st hst =>
    Lowering.orderly_accepted (Ty.isScalar_result hresult) (hbody st hst) ⟨s.nextLabel⟩
  have hleaves := (horderly _ hs).through.leaves hs
  have hlowest : (f.lower t (Frame.layout t f) s).2.lowest =
      (f.lower t (Frame.layout t f) (s.switch true)).2.lowest := by
    have hstate := f.state_lower_switch (t := t) (Frame.layout t f) s s.notes
    exact (congrArg State.lowest hstate :)
  rw [areas, spills_code hleaves.head, hlowest]
  exact (Frame.descends_layout hparams hsize).append (hleaves.spills rfl)

/-- A function whose symbols have the places of its layout uses no memory of its frame twice. -/
theorem packed_of_settled (ht : t.Reachable) (hfunction : (t.symbol f.symbol).ty.isFunction = true)
    (hbody : ∀ st ∈ f.body, st.Accepted t (t.symbol f.symbol).ty.result)
    (hparams : t.paramCount f.symbol ≤ (t.symbols f.scope).length)
    (hscalar : ∀ x ∈ (t.symbols f.scope).take (t.paramCount f.symbol),
      (t.symbol x).ty.isScalar = true)
    (hsize : ∀ d ∈ Frame.demands t f, (t.symbol d.1).ty.size < 0x8000000000000000)
    (hsettled : f.Settled t) (s : State) : f.Packed t (Frame.layout t f) s := by
  have hdescends := f.descends_areas hfunction hbody hparams hsize s
  have hreserved := f.reserved_of_nonneg (t := t) (l := Frame.layout t f) (s := s)
    (by have := hdescends.le; omega)
  have hslots : (Frame.layout t f).slots.map (·.symbol) = (Frame.demands t f).map (·.1) :=
    Frame.symbols_place t 0 _
  have hwords := Frame.words_layout hparams
  constructor
  case code => rw [code_eq, opening_eq]
  case disjoint => exact hdescends.pairwise
  case within =>
      intro a ha
      have hbounds := hdescends.bounds a ha
      exact ⟨by omega, hbounds.2⟩
  case aligned => exact f.dvd_reserved t _ s
  case tight =>
      exact ⟨_, hdescends.lowest, hdescends.le, fun a ha => (hdescends.bounds a ha).1, hreserved⟩
  case words => exact hwords
  case apart =>
      rw [hwords]
      exact Frame.pairwise_words _
  case fits =>
      intro p hp
      exact (Ty.width_size (hscalar _ (Frame.mem_of_mem_pushed hparams hp))).le
  case slots =>
      rw [hslots]
      exact ⟨Frame.nodup_demands ht f, Frame.mem_demands_iff ht f⟩
  case settled => exact hsettled

/-- Places change neither scopes nor types, on which the use of the frame depends. -/
theorem packed_of_types {u : SymbolTable} (hu : u.Reachable) (hscopes : u.scopes = t.scopes)
    (hty : ∀ x, (u.symbol x).ty = (t.symbol x).ty) (hsettled : f.Settled u)
    (hfunction : (t.symbol f.symbol).ty.isFunction = true)
    (hbody : ∀ st ∈ f.body, st.Accepted t (t.symbol f.symbol).ty.result)
    (hparams : t.paramCount f.symbol ≤ (t.symbols f.scope).length)
    (hscalar : ∀ x ∈ (t.symbols f.scope).take (t.paramCount f.symbol),
      (t.symbol x).ty.isScalar = true)
    (hsize : ((Frame.demands t f).map fun d => (t.symbol d.1).ty.size).sum < 2 ^ 31) (s : State) :
    f.Packed u (Frame.layout t f) s := by
  have hcount : u.paramCount f.symbol = t.paramCount f.symbol := by
    simp only [SymbolTable.paramCount, hty]
  have hsymbols : u.symbols f.scope = t.symbols f.scope := by
    simp only [SymbolTable.symbols, SymbolTable.scope, hscopes]
  rw [← Frame.layout_congr hscopes hty f]
  refine packed_of_settled hu (by rwa [hty]) (fun st hst => ?_) (by rwa [hcount, hsymbols])
    (fun x hx => ?_) (fun d hd => ?_) hsettled s
  · rw [hty]
    exact (hbody st hst).of_types fun x => (hty x).symm
  · rw [hcount, hsymbols] at hx
    rw [hty]
    exact hscalar x hx
  · rw [Frame.demands_congr hscopes hty] at hd
    have hle := List.le_sum_of_mem (List.mem_map_of_mem
      (f := fun d : SymbolId × Option Int => (t.symbol d.1).ty.size) hd)
    rw [hty]
    omega

/-- In every function that was accepted, with its parameters declared first, no memory of the frame
is used twice, whatever other functions storage is allocated for. -/
theorem frame_packed (ht : t.Reachable) (hfunction : (t.symbol f.symbol).ty.isFunction = true)
    (hbody : ∀ st ∈ f.body, st.Accepted t (t.symbol f.symbol).ty.result)
    (hparams : t.paramCount f.symbol ≤ (t.symbols f.scope).length)
    (hscalar : ∀ x ∈ (t.symbols f.scope).take (t.paramCount f.symbol),
      (t.symbol x).ty.isScalar = true)
    (hsize : ((Frame.demands t f).map fun d => (t.symbol d.1).ty.size).sum < 2 ^ 31) (s : State) :
    f.Packed (t.allocate f).2 (t.allocate f).1 s ∧
      ∀ fs : List Function, f ∈ fs → t.Separates fs →
        f.Packed (t.allocateAll fs).2 (Frame.layout t f) s := by
  constructor
  · have hsettled : f.Settled (t.allocate f).2 :=
      settled_allocateAll ht (List.pairwise_singleton ..) List.mem_cons_self
    exact packed_of_types (ht.allocate f) (t.scopes_allocate f) (t.ty_allocate f) hsettled hfunction
      hbody hparams hscalar hsize s
  · exact fun fs hf hfs => packed_of_types (ht.allocateAll fs) (t.scopes_allocateAll fs)
      (t.ty_allocateAll fs) (settled_allocateAll ht hfs hf) hfunction hbody hparams hscalar hsize s

/-- A function with a parameter, a local and a local of an inner scope adds two results of calls,
and the first one is saved below them. -/
theorem frame_packed_calls :
    let file := SymbolTable.empty.insert (.fresh "f" (.func .int 0 [.int]))
    let others := file.2.insert (.fresh "g" (.func .int 0 [.int]))
    let outer := (others.2.openScope.2.insert (.fresh "p" .int)).2.insert (.fresh "x" .long)
    let t := (outer.2.openScope.2.insert (.fresh "y" .char)).2
    let call := (Typing.call (t.symbol ⟨1⟩).ty ⟨1⟩ [Expr.ofSymbol t ⟨2⟩]).node
    let f : Function := ⟨⟨0⟩, ⟨1⟩, [(Typing.ret .int (Typing.binary .add call call).node).node]⟩
    t.Reachable ∧ (∀ st ∈ f.body, st.Accepted t .int) ∧
      (∀ x ∈ (t.symbols ⟨1⟩).take 1, (t.symbol x).ty.isScalar = true) ∧
      f.areas (t.allocate f).2 (t.allocate f).1 (.start true) =
        [⟨-4, 4⟩, ⟨-12, 8⟩, ⟨-13, 1⟩, ⟨-20, 4⟩] ∧
      f.Packed (t.allocate f).2 (t.allocate f).1 (.start true) := by
  intro file others outer t call f
  have hothers : others.2.Reachable := (SymbolTable.Reachable.empty.insert _).insert _
  have ht : t.Reachable := (((hothers.openScope.insert _).insert _).openScope).insert _
  have hcall : call.Built t := .call ⟨1⟩ fun a ha => by
    cases List.mem_singleton.mp ha
    exact .ident ⟨2⟩
  have hbody : ∀ st ∈ f.body, st.Accepted t .int := by
    intro st hst
    cases List.mem_singleton.mp hst
    exact .ret (.binary .add hcall hcall) (by decide) (by decide)
  have hscalar : ∀ x ∈ (t.symbols ⟨1⟩).take 1, (t.symbol x).ty.isScalar = true := by decide
  have hdemands : Frame.demands t f = [(⟨2⟩, none), (⟨3⟩, none), (⟨4⟩, none)] := by
    have hinner : t.nested ⟨2⟩ = [] := SymbolTable.nested_eq ht.tree ⟨2⟩
    have houter : t.nested ⟨1⟩ = [⟨2⟩] :=
      (SymbolTable.nested_eq ht.tree ⟨1⟩).trans (congrArg (⟨2⟩ :: · ++ []) hinner)
    show _ ++ ((t.nested ⟨1⟩).flatMap t.symbols).map _ = _
    rw [houter]
    rfl
  have hareas : f.areas (t.allocate f).2 (t.allocate f).1 (.start true) =
      [⟨-4, 4⟩, ⟨-12, 8⟩, ⟨-13, 1⟩, ⟨-20, 4⟩] := by
    rw [SymbolTable.allocate, Frame.layout, hdemands]
    decide +kernel
  exact ⟨ht, hbody, hscalar, hareas,
    (frame_packed ht rfl hbody (by decide) hscalar (by rw [hdemands]; decide) (.start true)).1⟩

end Function

end LittleC
