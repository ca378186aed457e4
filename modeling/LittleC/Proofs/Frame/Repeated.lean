import LittleC.Proofs.Frame.Storage
import Mathlib.Data.List.Pairwise

/-! # Allocation in any order and any number of times

A layout depends on scopes and types, which allocation leaves alone. So every function has the
layout that it would have alone, and as functions share no symbol, the order in which places are
written does not matter. -/

namespace LittleC

namespace SymbolTable

/-- Table `u` differs from `t` in the offsets of the given symbols at most. -/
structure SameBut (t : SymbolTable) (changed : SymbolId → Prop) (u : SymbolTable) : Prop where
  scopes : u.scopes = t.scopes
  chain : u.chain = t.chain
  length : u.entries.length = t.entries.length
  name : ∀ x, (u.symbol x).name = (t.symbol x).name
  ty : ∀ x, (u.symbol x).ty = (t.symbol x).ty
  others : ∀ x, ¬changed x → u.symbol x = t.symbol x

section
variable {t u v : SymbolTable} {fs gs hs : List Function} {f g : Function} {x : SymbolId}

/-- Tables with the same scopes and the same symbols are equal. -/
theorem eq_of_symbols (hscopes : u.scopes = v.scopes) (hchain : u.chain = v.chain)
    (hlength : u.entries.length = v.entries.length)
    (hsymbol : ∀ x : SymbolId, x.index < v.entries.length → u.symbol x = v.symbol x) : u = v := by
  have hentries : u.entries = v.entries := by
    apply List.ext_getElem hlength
    intro i hu hv
    have hsame := hsymbol ⟨i⟩ hv
    simpa [symbol, hu, hv] using hsame
  cases u
  cases v
  simp only at hscopes hchain hentries
  rw [hscopes, hchain, hentries]

theorem allocateAll_singleton (t : SymbolTable) (f : Function) :
    (t.allocateAll [f]).2 = (t.allocate f).2 := rfl

theorem chain_allocateAll (t : SymbolTable) (fs : List Function) :
    (t.allocateAll fs).2.chain = t.chain := by
  rw [allocateAll_eq]
  exact t.chain_settleAll _

theorem length_allocateAll (t : SymbolTable) (fs : List Function) :
    (t.allocateAll fs).2.entries.length = t.entries.length := by
  rw [allocateAll_eq]
  exact t.length_settleAll _

theorem allocateAll_append (t : SymbolTable) (fs gs : List Function) :
    (t.allocateAll (fs ++ gs)).2 = ((t.allocateAll fs).2.allocateAll gs).2 := by
  induction fs generalizing t with
  | nil => rfl
  | cons f fs ih => exact ih _

/-- Allocation changes the offsets of symbols of the functions only. -/
theorem sameBut_allocateAll (ht : t.Reachable) (fs : List Function) :
    t.SameBut (fun x => ∃ f ∈ fs, t.DeclaredIn f.scope x) (t.allocateAll fs).2 where
  scopes := t.scopes_allocateAll fs
  chain := t.chain_allocateAll fs
  length := t.length_allocateAll fs
  name := t.name_allocateAll fs
  ty := t.ty_allocateAll fs
  others x hx := by
    apply symbol_allocateAll ht
    intro f hf hdeclared
    exact hx ⟨f, hf, hdeclared⟩

/-! ## Functions that share nothing -/

theorem Apart.eq_of_encloses (h : t.Apart fs) (hf : f ∈ fs) (hg : g ∈ fs) {p : ScopeId}
    (hfp : t.Encloses f.scope p) (hgp : t.Encloses g.scope p) : f = g := by
  have hsymm : Std.Symm fun f g : Function => ∀ p, t.Encloses f.scope p → ¬t.Encloses g.scope p :=
    ⟨fun _ _ hfg p hgp hfp => hfg p hfp hgp⟩
  by_contra hne
  exact List.Pairwise.forall h hf hg hne p hfp hgp

theorem Apart.eq_of_declaredIn (h : t.Apart fs) (ht : t.Reachable) (hf : f ∈ fs) (hg : g ∈ fs)
    (hfx : t.DeclaredIn f.scope x) (hgx : t.DeclaredIn g.scope x) : f = g := by
  obtain ⟨p, hp, hxp⟩ := hfx
  obtain ⟨q, hq, hxq⟩ := hgx
  obtain rfl := symbols_unique ht.bound hxp hxq
  exact h.eq_of_encloses hf hg hp hq

/-- Whatever is allocated besides, and however often, a symbol gets the place that the layout of its
function has for it. -/
theorem Apart.symbol_allocateAll (h : t.Apart fs) (ht : t.Reachable) (hgs : ∀ g ∈ gs, g ∈ fs)
    (hg : g ∈ gs) {s : Slot} (hs : s ∈ (Frame.layout t g).slots) :
    (t.allocateAll gs).2.symbol s.symbol = { t.symbol s.symbol with offset := some s.offset } := by
  have hdeclared : t.DeclaredIn g.scope s.symbol :=
    (mem_slots_iff ht g s.symbol).mp (List.mem_map_of_mem hs)
  have hlt : s.symbol.index < t.entries.length := by
    obtain ⟨p, -, hp⟩ := hdeclared
    exact lt_of_mem_symbols ht.bound hp
  have hnodup : ((Frame.layout t g).slots.map (·.symbol)).Nodup := by
    rw [Frame.layout, Frame.symbols_place]
    exact Frame.nodup_demands ht g
  have hslots : s ∈ gs.flatMap fun g => (Frame.layout t g).slots := List.mem_flatMap.mpr ⟨g, hg, hs⟩
  rw [allocateAll_eq, symbol_settleAll_of_agree t hlt ?_, if_pos (List.mem_map_of_mem hslots)]
  -- Slots for one symbol come from one function, and a layout has one slot for it.
  intro r hr heq
  obtain ⟨k, hk, hr⟩ := List.mem_flatMap.mp hr
  have hother : t.DeclaredIn k.scope s.symbol := by
    rw [← heq]
    exact (mem_slots_iff ht k r.symbol).mp (List.mem_map_of_mem hr)
  obtain rfl := h.eq_of_declaredIn ht (hgs k hk) (hgs g hg) hother hdeclared
  rw [List.inj_on_of_nodup_map hnodup hr hs heq]

/-- Functions of the same list leave the same symbol, in whichever lists they are allocated. -/
theorem Apart.symbol_eq (h : t.Apart fs) (ht : t.Reachable) (hgs : ∀ g ∈ gs, g ∈ fs)
    (hhs : ∀ g ∈ hs, g ∈ fs) (hggs : g ∈ gs) (hghs : g ∈ hs) (hx : t.DeclaredIn g.scope x) :
    (t.allocateAll gs).2.symbol x = (t.allocateAll hs).2.symbol x := by
  obtain ⟨s, hs, rfl⟩ := List.mem_map.mp ((mem_slots_iff ht g x).mpr hx)
  rw [h.symbol_allocateAll ht hgs hggs hs, h.symbol_allocateAll ht hhs hghs hs]

/-- Only which functions are allocated counts. -/
theorem Apart.allocateAll_eq (h : t.Apart fs) (ht : t.Reachable) (hgs : ∀ g ∈ gs, g ∈ fs)
    (hsame : ∀ g, g ∈ hs ↔ g ∈ gs) : (t.allocateAll hs).2 = (t.allocateAll gs).2 := by
  have hhs : ∀ g ∈ hs, g ∈ fs := fun g hg => hgs g ((hsame g).mp hg)
  have hleft := sameBut_allocateAll ht hs
  have hright := sameBut_allocateAll ht gs
  refine eq_of_symbols (hleft.scopes.trans hright.scopes.symm) (hleft.chain.trans hright.chain.symm)
    (hleft.length.trans hright.length.symm) ?_
  intro x _
  by_cases hx : ∃ g ∈ gs, t.DeclaredIn g.scope x
  · obtain ⟨g, hg, hx⟩ := hx
    exact h.symbol_eq ht hhs hgs ((hsame g).mpr hg) hg hx
  · have hx' : ¬∃ g ∈ hs, t.DeclaredIn g.scope x := by
      rintro ⟨g, hg, hdeclared⟩
      exact hx ⟨g, (hsame g).mp hg, hdeclared⟩
    rw [hleft.others x hx', hright.others x hx]

/-- To allocate a function once more changes nothing. -/
theorem Apart.allocate_again (h : t.Apart fs) (ht : t.Reachable) (hgs : ∀ g ∈ gs, g ∈ fs)
    (hg : g ∈ gs) : (t.allocateAll gs).2.allocate g = ((t.allocate g).1, (t.allocateAll gs).2) := by
  have hlayout : Frame.layout (t.allocateAll gs).2 g = Frame.layout t g :=
    Frame.layout_congr (t.scopes_allocateAll gs) (t.ty_allocateAll gs) g
  have htable : ((t.allocateAll gs).2.allocate g).2 = (t.allocateAll gs).2 := by
    rw [← allocateAll_singleton, ← allocateAll_append]
    apply h.allocateAll_eq ht hgs
    intro k
    rw [List.mem_append, List.mem_singleton]
    constructor
    · rintro (hk | rfl)
      · exact hk
      · exact hg
    · exact Or.inl
  exact Prod.ext hlayout htable

/-! ## Main statement -/

/-- Functions whose scopes lie apart and outside the file scope, allocated in any order and any
number of times: each has the layout that it has alone, the table depends only on which functions
they are, and no symbol changes but in its offset, and that only if a function declares it. -/
theorem allocateAll_repeated (ht : t.Reachable) (hfs : t.Apart fs)
    (hfile : ∀ f ∈ fs, ¬t.Encloses f.scope .file) (hgs : ∀ g ∈ gs, g ∈ fs) :
    (t.allocateAll gs).1 = gs.map (fun g => (t.allocate g).1) ∧
    (∀ hs : List Function, (∀ g, g ∈ hs ↔ g ∈ gs) → (t.allocateAll hs).2 = (t.allocateAll gs).2) ∧
    (∀ g ∈ gs, (t.allocateAll gs).2.allocate g = ((t.allocate g).1, (t.allocateAll gs).2)) ∧
    (∀ g ∈ gs, ∀ x, t.DeclaredIn g.scope x →
      (t.allocateAll gs).2.symbol x = (t.allocate g).2.symbol x) ∧
    t.SameBut (fun x => ∃ g ∈ gs, t.DeclaredIn g.scope x) (t.allocateAll gs).2 ∧
    (∀ f ∈ fs, t.SameBut (t.DeclaredIn f.scope) (t.allocate f).2) ∧
    (∀ x ∈ t.symbols .file, (t.allocateAll gs).2.symbol x = t.symbol x ∧
      ∀ f ∈ fs, (t.allocate f).2.symbol x = t.symbol x) := by
  have hone : ∀ f ∈ fs, t.SameBut (t.DeclaredIn f.scope) (t.allocate f).2 := by
    intro f _
    have hsame := sameBut_allocateAll ht [f]
    simpa only [List.mem_singleton, exists_eq_left, allocateAll_singleton] using hsame
  have houtside : ∀ x ∈ t.symbols .file, ∀ f ∈ fs, ¬t.DeclaredIn f.scope x := by
    rintro x hx f hf ⟨p, hp, hxp⟩
    obtain rfl := symbols_unique ht.bound hx hxp
    exact hfile f hf hp
  refine ⟨?_, ?_, ?_, ?_, sameBut_allocateAll ht gs, hone, ?_⟩
  · rw [SymbolTable.allocateAll_eq]
    rfl
  · intro hs hsame
    exact hfs.allocateAll_eq ht hgs hsame
  · intro g hg
    exact hfs.allocate_again ht hgs hg
  · intro g hg x hx
    have halone : ∀ k ∈ [g], k ∈ fs := List.forall_mem_singleton.mpr (hgs g hg)
    exact hfs.symbol_eq ht hgs halone hg List.mem_cons_self hx
  · intro x hx
    constructor
    · exact symbol_allocateAll ht fun g hg => houtside x hx g (hgs g hg)
    · intro f hf
      exact (hone f hf).others x (houtside x hx f hf)

end

/-- Of two functions beside a variable, the second is allocated first and once more at the end. -/
theorem allocateAll_repeated_twice :
    let file := ((empty.insert (.fresh "n" .int)).2.insert (.fresh "f" (.func .int 0 []))).2.insert
      (.fresh "g" (.func .int 0 []))
    let outer := file.2.openScope.2.insert (.fresh "a" .int)
    let inner := (outer.2.openScope.2.insert (.fresh "b" .char)).2.closeScope.2.closeScope
    let t := (inner.2.openScope.2.insert (.fresh "c" .long)).2.closeScope.2
    let f : Function := ⟨⟨1⟩, ⟨1⟩, []⟩
    let g : Function := ⟨⟨2⟩, ⟨3⟩, []⟩
    t.Reachable ∧ t.Apart [f, g] ∧ (∀ k ∈ [f, g], ¬t.Encloses k.scope .file) ∧
      (t.allocateAll [g, f, g]).1 =
        [⟨[⟨⟨5⟩, -8⟩], 8⟩, ⟨[⟨⟨3⟩, -4⟩, ⟨⟨4⟩, -5⟩], 5⟩, ⟨[⟨⟨5⟩, -8⟩], 8⟩] ∧
      (t.allocateAll [f, g]).2 = (t.allocateAll [g, f, g]).2 ∧
      ((t.allocateAll [g, f, g]).2.symbol ⟨0⟩).offset = none := by
  intro file outer inner t f g
  have hfile : file.2.Reachable := ((Reachable.empty.insert _).insert _).insert _
  have hinner : inner.2.Reachable :=
    ((hfile.openScope.insert _).openScope.insert _).closeScope.closeScope
  have ht : t.Reachable := (hinner.openScope.insert _).closeScope
  have hnested2 : t.nested ⟨2⟩ = [] := by
    have hchildren : (t.scope ⟨2⟩).children = [] := by decide
    rw [nested_eq ht.tree, hchildren, List.flatMap_nil]
  have hnested1 : t.nested ⟨1⟩ = [⟨2⟩] := by
    have hchildren : (t.scope ⟨1⟩).children = [⟨2⟩] := by decide
    rw [nested_eq ht.tree, hchildren, List.flatMap_singleton, hnested2]
  have hnested3 : t.nested ⟨3⟩ = [] := by
    have hchildren : (t.scope ⟨3⟩).children = [] := by decide
    rw [nested_eq ht.tree, hchildren, List.flatMap_nil]
  have hf : ∀ p, t.Encloses f.scope p ↔ p ∈ [⟨1⟩, ⟨2⟩] := fun p =>
    hnested1 ▸ (mem_nested_iff ht.tree ⟨1⟩ p).symm
  have hg : ∀ p, t.Encloses g.scope p ↔ p ∈ [⟨3⟩] := fun p =>
    hnested3 ▸ (mem_nested_iff ht.tree ⟨3⟩ p).symm
  have hapart : t.Apart [f, g] := by
    refine Separates.apart (List.pairwise_pair.mpr ⟨?_, ?_⟩)
    · rw [hf]
      decide
    · rw [hg]
      decide
  have houtside : ∀ k ∈ [f, g], ¬t.Encloses k.scope .file := by
    refine List.forall_mem_cons.mpr ⟨?_, List.forall_mem_singleton.mpr ?_⟩
    · rw [hf]
      decide
    · rw [hg]
      decide
  have hsubset : ∀ k ∈ [g, f, g], k ∈ [f, g] := by
    intro k hk
    simp only [List.mem_cons] at hk ⊢
    tauto
  have hsame : ∀ k, k ∈ [f, g] ↔ k ∈ [g, f, g] := by
    intro k
    simp only [List.mem_cons]
    tauto
  obtain ⟨hlayouts, htable, -, -, -, -, hnames⟩ :=
    allocateAll_repeated ht hapart houtside hsubset
  have hlayoutf : (t.allocate f).1 = ⟨[⟨⟨3⟩, -4⟩, ⟨⟨4⟩, -5⟩], 5⟩ := by
    rw [allocate, Frame.layout, Frame.demands, hnested1]
    decide +kernel
  have hlayoutg : (t.allocate g).1 = ⟨[⟨⟨5⟩, -8⟩], 8⟩ := by
    rw [allocate, Frame.layout, Frame.demands, hnested3]
    decide +kernel
  refine ⟨ht, hapart, houtside, ?_, htable [f, g] hsame, ?_⟩
  · rw [hlayouts, List.map_cons, List.map_cons, List.map_cons, List.map_nil, hlayoutf, hlayoutg]
  · rw [(hnames ⟨0⟩ List.mem_cons_self).1]
    rfl

end SymbolTable

end LittleC
