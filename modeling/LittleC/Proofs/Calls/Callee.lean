import LittleC.Proofs.Calls.Passing
import LittleC.Proofs.Frame.Packed

/-! # Parameters read arguments

The prologue of a called function fills the slots of its first parameters from their registers. The
others are the words that the caller pushed, above the frame base and the return address. -/

namespace LittleC

open Lowering (State)

/-! ## Places of parameters -/

namespace Frame

/-- Small symbols take little. -/
theorem bytesBelow_le {t : SymbolTable} : ∀ {ds : List (SymbolId × Option Int)},
    (∀ d ∈ ds, (t.symbol d.1).ty.size ≤ wordSize) → bytesBelow t ds ≤ (wordSize * ds.length : Nat)
  | [], _ => Int.le_refl 0
  | (x, place) :: ds, h => by
      have hfirst : (t.symbol x).ty.size ≤ wordSize := h _ List.mem_cons_self
      have hbytes : (t.symbol x).ty.signedSize = (t.symbol x).ty.size :=
        Ty.signedBytes_of_lt (Nat.lt_of_le_of_lt hfirst (by decide))
      have ih := bytesBelow_le fun d hd => h d (List.mem_cons_of_mem _ hd)
      rw [List.length_cons, Nat.mul_succ]
      cases place <;> simp only [bytesBelow] <;> omega

/-- A place that the caller decides is taken. -/
theorem mem_place_of_some {t : SymbolTable} {x : SymbolId} {offset : Int} :
    ∀ {ds : List (SymbolId × Option Int)} (lowest : Int), (x, some offset) ∈ ds →
      ⟨x, offset⟩ ∈ place t lowest ds
  | (y, some o) :: ds, lowest, h => by
      rcases List.mem_cons.mp h with heq | h
      · cases heq
        exact List.mem_cons_self
      · exact List.mem_cons_of_mem _ (mem_place_of_some lowest h)
  | (y, none) :: ds, lowest, h => by
      rcases List.mem_cons.mp h with heq | h
      · cases heq
      · exact List.mem_cons_of_mem _ (mem_place_of_some _ h)

end Frame

namespace Routine

/-- The bytes that the place of a parameter takes. -/
def area (p : Symbol) : Area := ⟨p.offset.getD 0, p.ty.size⟩

/-- Behind the prologue every register is in the place of its parameter, if no two places
overlap. -/
theorem load_arrive {base : Word} {regs : Reg → Word} {lo : Int} :
    ∀ {ps : List Symbol} {rs : List Reg} {hi : Int} (M : Memory),
      Descends hi lo (ps.map area) → hi - lo ≤ 2 ^ 64 →
      ∀ {i : Nat} {p : Symbol} {r : Reg}, ps[i]? = some p → rs[i]? = some r → p.ty.size ≤ 8 →
        signed p.ty.size
            ((arrive base regs ps rs M).load (base + .ofInt 64 (p.offset.getD 0)) p.ty.size) =
          signed p.ty.size (regs r)
  | p :: ps, r :: rs, hi, M, hdescends, hroom, 0, q, r', hq, hr, hsize => by
      cases hq
      cases hr
      obtain ⟨hfirst, hrest⟩ := hdescends
      have hlo := hrest.le
      simp only [area] at hfirst
      -- All later places lie below this one.
      have hkeep : ∀ N : Memory, ∀ b, Covers (base + .ofInt 64 (p.offset.getD 0)) p.ty.size b →
          arrive base regs ps rs N b = N b := by
        refine fun N b hb => arrive_of_not_covers ps rs N fun q hq hcovers => ?_
        obtain ⟨hqlo, hqhi⟩ := hrest.bounds (area q) (List.mem_map_of_mem hq)
        simp only [area] at hqlo hqhi
        exact (zone_of_covers hcovers).not_above hqhi (by omega) (zone_of_covers hb)
      rw [arrive, Memory.load_congr hsize (hkeep _), Memory.signed_load_store _ _ hsize]
  | p :: ps, r :: rs, hi, M, hdescends, hroom, i + 1, q, r', hq, hr, hsize => by
      obtain ⟨hfirst, hrest⟩ := hdescends
      simp only [area] at hfirst
      exact load_arrive _ hrest (by simp only [area]; omega) hq hr hsize

end Routine

namespace Function

/-- The function is defined with parameters of the types `ps`, declared before all else. -/
structure Takes (g : Function) (u : SymbolTable) (ps : List Ty) : Prop where
  listed : (u.symbol g.symbol).ty.params? = some ps
  declared : ((u.symbols g.scope).take ps.length).map (fun x => (u.symbol x).ty) = ps
  scalar : ∀ p ∈ ps, p.isScalar = true

section
variable {g : Function} {u : SymbolTable} {ps : List Ty} {i : Nat} {x : SymbolId} {base : Word}

theorem Takes.count (h : g.Takes u ps) : u.paramCount g.symbol = ps.length := by
  rw [SymbolTable.paramCount, h.listed, Option.getD_some]

theorem Takes.length_le (h : g.Takes u ps) : ps.length ≤ (u.symbols g.scope).length := by
  have hlength := congrArg List.length h.declared
  rw [List.length_map, List.length_take] at hlength
  omega

/-- Places change no parameter. -/
theorem Takes.of_types {v : SymbolTable} (h : g.Takes v ps) (hscopes : u.scopes = v.scopes)
    (hty : ∀ x, (u.symbol x).ty = (v.symbol x).ty) : g.Takes u ps := by
  refine ⟨by rw [hty, h.listed], ?_, h.scalar⟩
  simp only [hty, SymbolTable.symbols, SymbolTable.scope, hscopes]
  exact h.declared

theorem Takes.getElem? (h : g.Takes u ps) (hi : i < ps.length)
    (hx : (u.symbols g.scope)[i]? = some x) : ps[i]? = some (u.symbol x).ty := by
  rw [← h.declared, List.getElem?_map, List.getElem?_take_of_lt hi, hx, Option.map_some]

theorem Takes.isScalar (h : g.Takes u ps) (hi : i < ps.length)
    (hx : (u.symbols g.scope)[i]? = some x) : (u.symbol x).ty.isScalar = true :=
  h.scalar _ (List.mem_of_getElem? (h.getElem? hi hx))

/-- Registers arrive for parameters of single values. -/
theorem Takes.registerParams (h : g.Takes u ps) :
    ∀ p ∈ Routine.registerParams u g, p.ty.isScalar = true := by
  intro p hp
  obtain ⟨x, hx, rfl⟩ := List.mem_map.mp hp
  obtain ⟨i, hi⟩ := List.mem_iff_getElem?.mp hx
  rw [List.getElem?_take, h.count] at hi
  split at hi
  · exact h.isScalar (by omega) hi
  · cases hi

theorem Takes.demand (h : g.Takes u ps)
    (hx : (u.symbols g.scope)[i]? = some x) :
    (Frame.demands u g)[i]? = some (x, Frame.pushedPlace ps.length i) := by
  have hlt := (List.getElem?_eq_some_iff.mp hx).1
  rw [Frame.demands, List.getElem?_append_left (by rwa [List.length_mapIdx]),
    List.getElem?_mapIdx, hx, h.count, Option.map_some]

/-- A parameter has its slot: one that was pushed is above the frame base and the return address. -/
theorem Settled.slot (hu : g.Settled u) (h : g.Takes u ps) (hi : i < ps.length)
    (hx : (u.symbols g.scope)[i]? = some x) :
    ∃ offset, ⟨x, offset⟩ ∈ (Frame.layout u g).slots ∧ (u.symbol x).offset = some offset ∧
      (registerArgs ≤ i → offset = wordSize * (i - registerArgs : Nat) + 16) := by
  have hdemand := List.mem_of_getElem? (h.demand hx)
  by_cases hpushed : registerArgs ≤ i
  · rw [Frame.pushedPlace, if_pos ⟨hpushed, hi⟩] at hdemand
    have hslot := Frame.mem_place_of_some (t := u) 0 hdemand
    refine ⟨_, hslot, hu _ hslot, fun _ => ?_⟩
    simp only [Frame.pushedOffset, wordSize]
    omega
  · have hmem : x ∈ (Frame.layout u g).slots.map (·.symbol) := by
      rw [Frame.layout, Frame.symbols_place]
      exact List.mem_map_of_mem (f := Prod.fst) hdemand
    obtain ⟨p, hp, rfl⟩ := List.mem_map.mp hmem
    exact ⟨p.offset, hp, hu p hp, fun h => absurd h hpushed⟩

/-- The slots of the parameters that arrive in registers. -/
theorem Takes.registerSlots (h : g.Takes u ps) (hu : g.Settled u) :
    (Routine.registerParams u g).map Routine.area =
      ((Frame.layout u g).slots.take (min ps.length registerArgs)).map (·.area u) := by
  have hown : ((Frame.layout u g).slots.take (min ps.length registerArgs)).map (·.symbol) =
      (u.symbols g.scope).take (min ps.length registerArgs) := by
    have hle := h.length_le
    rw [List.map_take, Frame.layout, Frame.symbols_place, Frame.map_demands, List.flatMap_cons,
      List.take_append_of_le_length (by omega)]
  rw [Routine.registerParams, h.count, ← hown, List.map_map, List.map_map]
  refine List.map_congr_left fun p hp => ?_
  simp [Routine.area, Slot.area, hu p (List.mem_of_mem_take hp)]

/-- Nothing that the caller pushed is among the first parameters. -/
theorem Takes.of_mem_take (h : g.Takes u ps) {d : SymbolId × Option Int}
    (hd : d ∈ (Frame.demands u g).take (min ps.length registerArgs)) :
    d.2 = none ∧ (u.symbol d.1).ty.size ≤ wordSize := by
  obtain ⟨i, hi⟩ := List.mem_iff_getElem?.mp hd
  rw [List.getElem?_take] at hi
  split at hi
  · next hlt =>
      have hle := h.length_le
      obtain ⟨x, hx⟩ : ∃ x, (u.symbols g.scope)[i]? = some x :=
        ⟨_, List.getElem?_eq_getElem (show i < (u.symbols g.scope).length by omega)⟩
      cases hi.symm.trans (h.demand hx)
      exact ⟨if_neg (by omega), (Ty.width_size (h.isScalar (by omega) hx)).le⟩
  · cases hi

/-- The places that the prologue fills lead down from the frame base. -/
theorem Settled.descends (hu : g.Settled u) (h : g.Takes u ps) :
    ∃ lo : Int, -((wordSize * registerArgs : Nat) : Int) ≤ lo ∧
      Descends 0 lo ((Routine.registerParams u g).map Routine.area) := by
  obtain ⟨ds, hds⟩ : ∃ ds, (Frame.demands u g).take (min ps.length registerArgs) = ds := ⟨_, rfl⟩
  have hfirst : ∀ d ∈ ds, d.2 = none ∧ (u.symbol d.1).ty.size ≤ wordSize := fun d hd =>
    h.of_mem_take (hds ▸ hd)
  have hlength : ds.length ≤ registerArgs := by
    rw [← hds, List.length_take]
    omega
  have hbytes := Frame.bytesBelow_le fun d hd => (hfirst d hd).2
  refine ⟨0 - Frame.bytesBelow u ds, ?_, ?_⟩
  · simp only [wordSize, registerArgs] at hbytes hlength ⊢
    omega
  · rw [h.registerSlots hu, Frame.layout, Frame.take_place, hds]
    exact Frame.descends_place (fun d hd => Nat.lt_of_le_of_lt (hfirst d hd).2 (by decide))
      (fun d hd => (hfirst d hd).1) 0

/-- Behind the prologue, on machine `m'`, parameter `i` is the argument `i` that was there when the
function was called on machine `m`. -/
structure Reads (g : Function) (u : SymbolTable) (w : World) (m m' : Machine) (i : Nat)
    (x : SymbolId) : Prop where
  /-- A name of the parameter stands for its slot. -/
  named : ∀ s, (((Expr.ofSymbol u x).lower u s).state.values
    ((Expr.ofSymbol u x).lower u s).result).location = .mem (u.symbol x).home
  slot : ∃ offset, ⟨x, offset⟩ ∈ (Frame.layout u g).slots ∧ (u.symbol x).home = .frame offset ∧
    (registerArgs ≤ i → offset = wordSize * (i - registerArgs : Nat) + 16)
  /-- A pushed argument is read where the caller pushed it. -/
  address : registerArgs ≤ i → m'.address w (u.symbol x).home =
    m.stack + .ofInt 64 (wordSize * (i - registerArgs : Nat))
  value : signed (u.symbol x).ty.size (m'.read w (u.symbol x).ty.size (.mem (u.symbol x).home)) =
    signed (u.symbol x).ty.size (m.argument i)

/-- What the prologue makes of the machine `m` on which the function was called. -/
structure Begun (g : Function) (u : SymbolTable) (m m' : Machine) (ret : Word) : Prop where
  base : m'.base = m.stack - 8 - 8
  memory : m'.memory = Routine.arrive (m.stack - 8 - 8) m.regs (Routine.registerParams u g) Reg.args
    ((m.push ret).memory.store (m.stack - 8 - 8) 8 m.base)

section
variable {m m' : Machine} {ret : Word}

/-- The return address and the saved frame base lie between the frame base and what was pushed. -/
theorem Begun.stack (h : g.Begun u m m' ret) : m.stack = m'.base + .ofInt 64 16 := by
  rw [h.base]
  show m.stack = m.stack - 8 - 8 + BitVec.ofInt 64 (8 + 8)
  rw [BitVec.ofInt_add, ← BitVec.add_assoc]
  exact ((BitVec.sub_add_cancel _ 8).symm.trans
    (congrArg (· + 8) (BitVec.sub_add_cancel _ 8).symm))

theorem Begun.address (h : g.Begun u m m' ret) (w : World) (i : Nat) :
    m'.address w (.frame (wordSize * (i - registerArgs : Nat) + 16)) =
      m.stack + .ofInt 64 (wordSize * (i - registerArgs : Nat)) := by
  rw [h.stack, BitVec.add_assoc, ← BitVec.ofInt_add, Int.add_comm]
  rfl

/-- The words that the caller pushed are as they were. -/
theorem Begun.memory_above (h : g.Begun u m m' ret) {lo : Int} {n : Nat}
    (hdescends : Descends 0 lo ((Routine.registerParams u g).map Routine.area)) {b : Word}
    (hb : Zone m'.base 16 (16 + n) b) (hroom : 16 + n - lo ≤ 2 ^ 64) :
    m'.memory b = m.memory b := by
  have hlo := hdescends.le
  have hreturn : m.stack - 8 = m'.base + .ofInt 64 8 := by
    rw [h.stack, BitVec.sub_eq_add_neg, BitVec.add_assoc]
    rfl
  rw [h.memory, ← h.base, Routine.arrive_of_not_covers _ _ _ fun q hq hcovers => ?_,
    Memory.store_of_not_covers _ fun hcovers => ?_]
  · refine Memory.store_of_not_covers _ fun hcovers => ?_
    rw [hreturn] at hcovers
    exact (zone_of_covers hcovers).not_above (Int.le_refl 16) (by omega) hb
  · exact (zone_of_covers_base hcovers).not_above (by decide) (by omega) hb
  · obtain ⟨hqlo, hqhi⟩ := hdescends.bounds (Routine.area q) (List.mem_map_of_mem hq)
    simp only [Routine.area] at hqlo hqhi
    exact (zone_of_covers hcovers).not_above (by omega) (by omega) hb

/-- A pushed argument is at its word. -/
theorem Begun.load_pushed (h : g.Begun u m m' ret) (hu : g.Settled u) (htakes : g.Takes u ps)
    (hroom : wordSize * ps.length + 64 ≤ 2 ^ 64) (w : World) (hi : i < ps.length)
    (hge : registerArgs ≤ i) {n : Nat} (hn : n ≤ 8) :
    signed n (m'.memory.load (m'.address w (.frame (wordSize * (i - registerArgs : Nat) + 16))) n) =
      signed n (m.argument i) := by
  obtain ⟨lo, hlo, hdescends⟩ := hu.descends htakes
  have hnone : Reg.args[i]? = none := List.getElem?_eq_none hge
  have hword : m.argument i =
      m.memory.load (m'.address w (.frame (wordSize * (i - registerArgs : Nat) + 16))) 8 := by
    rw [h.address, Machine.argument, hnone]
  rw [hword, Memory.signed_load_of_le hn (Nat.le_refl 8)]
  refine congrArg (signed _) (Memory.load_congr hn fun b hb => ?_)
  have hzone := zone_of_covers hb
  have hlast : i - registerArgs < ps.length - registerArgs := by omega
  refine h.memory_above (n := wordSize * (ps.length - registerArgs)) hdescends (hzone.mono ?_ ?_) ?_
  · simp only [wordSize]
    omega
  · simp only [wordSize]
    omega
  · simp only [wordSize, registerArgs] at hroom hlo ⊢
    omega

/-- An argument that came in a register is in the place of its parameter. -/
theorem Begun.load_register (h : g.Begun u m m' ret) (hu : g.Settled u) (htakes : g.Takes u ps)
    (hi : i < ps.length) (hx : (u.symbols g.scope)[i]? = some x) {r : Reg}
    (hr : Reg.args[i]? = some r) :
    signed (u.symbol x).ty.size (m'.memory.load (m'.base + .ofInt 64 ((u.symbol x).offset.getD 0))
      (u.symbol x).ty.size) = signed (u.symbol x).ty.size (m.argument i) := by
  obtain ⟨lo, hlo, hdescends⟩ := hu.descends htakes
  have hlt : i < registerArgs := (List.getElem?_eq_some_iff.mp hr).1
  have hparam : (Routine.registerParams u g)[i]? = some (u.symbol x) := by
    rw [Routine.registerParams, htakes.count, List.getElem?_map,
      List.getElem?_take_of_lt (by omega), hx, Option.map_some]
  have hspace : 0 - lo ≤ 2 ^ 64 := by
    simp only [wordSize, registerArgs] at hlo
    omega
  rw [Machine.argument, hr, h.memory, h.base]
  exact Routine.load_arrive _ hdescends hspace hparam hr (Ty.width_size (htakes.isScalar hi hx)).le

/-- Behind the prologue all arguments can be read. -/
theorem Begun.reads (h : g.Begun u m m' ret) (hu : g.Settled u) (htakes : g.Takes u ps)
    (hroom : wordSize * ps.length + 64 ≤ 2 ^ 64) (w : World) (hi : i < ps.length)
    (hx : (u.symbols g.scope)[i]? = some x) : g.Reads u w m m' i x := by
  obtain ⟨offset, hslot, hoffset, hpushed⟩ := hu.slot htakes hi hx
  have hhome : (u.symbol x).home = .frame offset := by rw [Symbol.home, hoffset]
  refine ⟨fun s => ?_, ⟨offset, hslot, hhome, hpushed⟩, fun hge => ?_, ?_⟩
  · exact congrArg Value.location
      (State.values_addValue s ⟨.mem (u.symbol x).home, (u.symbol x).ty.size⟩)
  · rw [hhome, hpushed hge]
    exact h.address w i
  · cases hr : Reg.args[i]? with
    | none =>
        have hge : registerArgs ≤ i := List.getElem?_eq_none_iff.mp hr
        rw [hhome, hpushed hge]
        exact h.load_pushed hu htakes hroom w hi hge (Ty.width_size (htakes.isScalar hi hx)).le
    | some r =>
        have hload := h.load_register hu htakes hi hx hr
        rw [hoffset, Option.getD_some] at hload
        rw [hhome]
        exact hload

end

/-- Called on any machine, whatever the return address, a function reads its arguments. -/
theorem reads_arguments (hu : g.Settled u) (h : g.Takes u ps)
    (hroom : wordSize * ps.length + 64 ≤ 2 ^ 64)
    (w : World) (m : Machine) (ret : Word) (size : Int) (bound : Nat) :
    ∃ m', w.Reaches bound (Routine.prologue u g size) (m.push ret) .next m' ∧
      ∀ i x, i < ps.length → (u.symbols g.scope)[i]? = some x → g.Reads u w m m' i x := by
  obtain ⟨m', hrun, hbase, hmemory⟩ :=
    Routine.reaches_prologue (w := w) h.registerParams size (m.push ret) bound
  have hbegun : g.Begun u m m' ret := ⟨hbase, hmemory⟩
  exact ⟨m', hrun, fun i x => hbegun.reads hu h hroom w⟩

/-- Called on machine `m`, the code of the function reads its arguments from behind the prologue on:
parameter `i` has the size and the value of `args[i]`. -/
def Receives (g : Function) (u : SymbolTable) (w : World) (args : List Argument) (m : Machine)
    (ret : Word) (s : State) : Prop :=
  ∃ m', w.Steps (g.lower u (Frame.layout u g) s).1.code (0, m.push ret)
      ((Routine.prologue u g (g.frame u (Frame.layout u g) s)).length, m') ∧
    ∀ i x a, (u.symbols g.scope)[i]? = some x → args[i]? = some a → g.Reads u w m m' i x ∧
      (u.symbol x).ty.size = a.size ∧
      signed a.size (m'.read w a.size (.mem (u.symbol x).home)) = a.value

/-- A function receives the arguments that are passed, if they have the sizes of its parameters. -/
theorem receives_arguments {args : List Argument} {m : Machine}
    (hu : g.Settled u) (h : g.Takes u ps)
    (hargs : args.map (·.size) = ps.map (·.size)) (hpasses : m.Passes args)
    (hroom : wordSize * ps.length + 64 ≤ 2 ^ 64) (w : World) (ret : Word) (s : State) :
    g.Receives u w args m ret s := by
  obtain ⟨m', hrun, hreads⟩ :=
    reads_arguments hu h hroom w m ret (g.frame u (Frame.layout u g) s) s.nextLabel
  refine ⟨m', ?_, fun i x a hx ha => ?_⟩
  · have hsteps := hrun (g.lower u (Frame.layout u g) s).1.code 0
      ⟨[], _, (code_lower g u _ s).trans (List.append_assoc ..), rfl,
        fun _ h => absurd h List.not_mem_nil⟩
    rwa [Nat.zero_add] at hsteps
  · have hlength := congrArg List.length hargs
    rw [List.length_map, List.length_map] at hlength
    have hi : i < ps.length := hlength ▸ (List.getElem?_eq_some_iff.mp ha).1
    have hsize : (u.symbol x).ty.size = a.size := by
      have hsizes := congrArg (·[i]?) hargs
      simp only [List.getElem?_map, ha, h.getElem? hi hx, Option.map_some, Option.some.injEq]
        at hsizes
      exact hsizes.symm
    have hread := hreads i x hi hx
    exact ⟨hread, hsize, hsize ▸ hread.value.trans (hsize.symm ▸ hpasses i a ha)⟩

end

end Function

end LittleC
