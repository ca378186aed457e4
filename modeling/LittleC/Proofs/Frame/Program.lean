import LittleC.Proofs.Symbols.Nested

/-! # Frames of all functions of a program

Storage is allocated for one function after the other. As no two of them share a symbol, each keeps
the places that its own layout gives. -/

namespace LittleC

/-! ## Layouts of other tables -/

namespace Frame

variable {t u : SymbolTable}

theorem place_congr (h : ∀ x, (u.symbol x).ty = (t.symbol x).ty) (lowest : Int) :
    ∀ ds : List (SymbolId × Option Int),
      place u lowest ds = place t lowest ds ∧ bytesBelow u ds = bytesBelow t ds
  | [] => ⟨rfl, rfl⟩
  | (x, some offset) :: ds => by
      obtain ⟨hplace, hbytes⟩ := place_congr h lowest ds
      exact ⟨congrArg (_ :: ·) hplace, hbytes⟩
  | (x, none) :: ds => by
      obtain ⟨hplace, hbytes⟩ := place_congr h (lowest - (t.symbol x).ty.signedSize) ds
      simp only [place, bytesBelow, h x, hplace, hbytes, and_self]

/-- A layout depends on scopes and types only. -/
theorem layout_congr (hscopes : u.scopes = t.scopes) (hty : ∀ x, (u.symbol x).ty = (t.symbol x).ty)
    (f : Function) : layout u f = layout t f := by
  obtain ⟨hplace, hbytes⟩ := place_congr hty 0 (demands t f)
  rw [layout, demands_congr hscopes hty, hplace, hbytes, layout]

end Frame

/-! ## Places of all functions -/

namespace SymbolTable

variable {t : SymbolTable}

theorem settleAll_append (t : SymbolTable) (slots others : List Slot) :
    t.settleAll (slots ++ others) = (t.settleAll slots).settleAll others := List.foldl_append

/-- Functions are laid out as if each were alone. -/
theorem allocateAll_eq : ∀ (fs : List Function) (t : SymbolTable),
    t.allocateAll fs =
      (fs.map (Frame.layout t), t.settleAll (fs.flatMap fun f => (Frame.layout t f).slots))
  | [], _ => rfl
  | f :: fs, t => by
      have hlayout : Frame.layout (t.allocate f).2 = Frame.layout t :=
        funext (Frame.layout_congr (t.scopes_allocate f) (t.ty_allocate f))
      rw [allocateAll, allocateAll_eq fs, hlayout, List.flatMap_cons, settleAll_append]
      rfl

theorem scopes_allocateAll (t : SymbolTable) (fs : List Function) :
    (t.allocateAll fs).2.scopes = t.scopes := by
  rw [allocateAll_eq]
  exact t.scopes_settleAll _

theorem ty_allocateAll (t : SymbolTable) (fs : List Function) (x : SymbolId) :
    ((t.allocateAll fs).2.symbol x).ty = (t.symbol x).ty := by
  rw [allocateAll_eq]
  exact t.ty_settleAll _ x

theorem name_allocateAll (t : SymbolTable) (fs : List Function) (x : SymbolId) :
    ((t.allocateAll fs).2.symbol x).name = (t.symbol x).name := by
  rw [allocateAll_eq]
  exact t.name_settleAll _ x

/-- No function lies inside another one. -/
def Separates (t : SymbolTable) (fs : List Function) : Prop :=
  fs.Pairwise fun f g => ¬t.Encloses f.scope g.scope ∧ ¬t.Encloses g.scope f.scope

/-- No scope belongs to two of the functions. -/
def Apart (t : SymbolTable) (fs : List Function) : Prop :=
  fs.Pairwise fun f g => ∀ p, t.Encloses f.scope p → ¬t.Encloses g.scope p

/-- Around a scope of both functions, one would lie inside the other. -/
theorem Separates.apart {fs : List Function} (h : t.Separates fs) : t.Apart fs := by
  refine h.imp ?_
  rintro f g ⟨hfg, hgf⟩ p hp hq
  exact (hp.total hq).elim hfg hgf

end SymbolTable

namespace Function

/-- Every symbol of the function has the place that the layout gives it. -/
def Settled (g : Function) (u : SymbolTable) : Prop :=
  ∀ p ∈ (Frame.layout u g).slots, (u.symbol p.symbol).offset = some p.offset

/-- Functions of which none lies inside another share no symbol. -/
theorem nodup_demandsAll {t : SymbolTable} (ht : t.Reachable) {fs : List Function}
    (hfs : t.Separates fs) : (fs.flatMap fun f => (Frame.demands t f).map (·.1)).Nodup := by
  refine List.nodup_flatMap.mpr ⟨fun f _ => Frame.nodup_demands ht f, hfs.apart.imp ?_⟩
  intro f g hfg x hx hx'
  obtain ⟨p, hp, hxp⟩ := (Frame.mem_demands_iff ht f x).mp hx
  obtain ⟨q, hq, hxq⟩ := (Frame.mem_demands_iff ht g x).mp hx'
  obtain rfl := SymbolTable.symbols_unique ht.bound hxp hxq
  exact hfg p hp hq

/-- When storage is allocated for all functions of a program, each has its places. -/
theorem settled_allocateAll {t : SymbolTable} (ht : t.Reachable) {fs : List Function}
    (hfs : t.Separates fs) {g : Function} (hg : g ∈ fs) : g.Settled (t.allocateAll fs).2 := by
  have hsymbols : (fs.flatMap fun f => (Frame.layout t f).slots).map (·.symbol) =
      fs.flatMap fun f => (Frame.demands t f).map (·.1) := by
    rw [List.map_flatMap]
    exact List.flatMap_congr fun f _ => Frame.symbols_place t 0 _
  intro p hp
  rw [Frame.layout_congr (t.scopes_allocateAll fs) (t.ty_allocateAll fs)] at hp
  rw [SymbolTable.allocateAll_eq]
  refine t.offset_settleAll ?_ (List.mem_flatMap.mpr ⟨g, hg, hp⟩) ?_
  · rw [hsymbols]
    exact nodup_demandsAll ht hfs
  · have hmem := List.mem_map_of_mem (f := Slot.symbol) hp
    rw [Frame.layout, Frame.symbols_place] at hmem
    obtain ⟨d, hd, heq⟩ := List.mem_map.mp hmem
    rw [← heq]
    exact Frame.lt_of_mem_demands ht hd

end Function

end LittleC
