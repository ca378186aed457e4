import LittleC.Proofs.Symbols.Table
import Mathlib.Logic.Relation

/-! # The scopes of a function

The walk through the scopes inside a scope meets each of them once, and so it meets each of their
symbols once. -/

namespace LittleC

namespace SymbolTable

/-- `c` is `p` or lies inside it, however deep. -/
def Encloses (t : SymbolTable) : ScopeId → ScopeId → Prop := Relation.ReflTransGen t.Child

section
variable {t : SymbolTable} {id p q c : ScopeId} {x : SymbolId}

theorem Encloses.le (h : t.Tree) (hc : t.Encloses p c) : p.index ≤ c.index := by
  induction hc with
  | refl => exact Nat.le_refl _
  | tail _ hlast ih => exact Nat.le_trans ih (Nat.le_of_lt (h.parent_lt _ _ hlast))

/-- Of two scopes around a third one lies inside the other. -/
theorem Encloses.total (hp : t.Encloses p c) (hq : t.Encloses q c) :
    t.Encloses p q ∨ t.Encloses q p := by
  have hparent : Relator.RightUnique (Function.swap t.Child) := fun _ _ _ h h' =>
    Option.some.inj (h.2.symm.trans h'.2)
  have hswap := Relation.ReflTransGen.total_of_right_unique hparent hp.swap hq.swap
  exact hswap.symm.imp Relation.reflTransGen_swap.mp Relation.reflTransGen_swap.mp

/-- Scopes side by side lie apart. -/
theorem Encloses.of_siblings (h : t.Tree) (hp : t.Child id p) (hq : t.Child id q)
    (hpq : t.Encloses p q) : p = q := by
  rcases Relation.ReflTransGen.cases_tail hpq with heq | ⟨d, hpd, hdq⟩
  · exact heq.symm
  · obtain rfl : id = d := Option.some.inj (hq.2.symm.trans hdq.2)
    exact absurd (h.parent_lt _ _ hp) (Nat.not_lt_of_le (Encloses.le h hpd))

theorem nested_eq (h : t.Tree) (id : ScopeId) :
    t.nested id = (t.scope id).children.flatMap fun c => c :: t.nested c := by
  rw [nested]
  refine List.flatMap_congr fun c hc => if_pos ?_
  have hchild := (h.mem_children id c).mp hc
  exact ⟨h.parent_lt id c hchild, hchild.1⟩

theorem mem_nested_iff (h : t.Tree) (id c : ScopeId) :
    c ∈ id :: t.nested id ↔ t.Encloses id c := by
  induction id using nested.induct t generalizing c with
  | case1 id ih =>
      have hstep : c ∈ t.nested id ↔ ∃ d, t.Child id d ∧ t.Encloses d c := by
        rw [nested_eq h, List.mem_flatMap]
        refine exists_congr fun d => ?_
        rw [h.mem_children]
        refine and_congr_right fun hd => ?_
        exact ih d ⟨h.parent_lt id d hd, hd.1⟩ c
      rw [List.mem_cons, hstep, Encloses, Relation.ReflTransGen.cases_head_iff, eq_comm]

theorem nodup_nested (h : t.Tree) (id : ScopeId) : (id :: t.nested id).Nodup := by
  induction id using nested.induct t with
  | case1 id ih =>
      rw [nested_eq h, List.nodup_cons]
      constructor
      · intro hid
        obtain ⟨c, hc, hid⟩ := List.mem_flatMap.mp hid
        have hlt := h.parent_lt id c ((h.mem_children id c).mp hc)
        exact absurd (Encloses.le h ((mem_nested_iff h c id).mp hid)) (Nat.not_le_of_lt hlt)
      · refine List.nodup_flatMap.mpr ⟨fun c hc => ?_, ?_⟩
        · have hchild := (h.mem_children id c).mp hc
          exact ih c ⟨h.parent_lt id c hchild, hchild.1⟩
        · refine (h.nodup id).imp_of_mem fun {p q} hp hq hne d hd hd' => hne ?_
          have hp := (h.mem_children id p).mp hp
          have hq := (h.mem_children id q).mp hq
          rcases ((mem_nested_iff h p d).mp hd).total ((mem_nested_iff h q d).mp hd') with hpq | hqp
          · exact Encloses.of_siblings h hp hq hpq
          · exact (Encloses.of_siblings h hq hp hqp).symm

/-! ## Their symbols -/

theorem nodup_symbols (h : t.Bound) (p : ScopeId) : (t.symbols p).Nodup :=
  List.pairwise_map.mpr ((h.distinct p).imp And.right)

theorem symbols_unique (h : t.Bound) (hp : x ∈ t.symbols p) (hq : x ∈ t.symbols q) : p = q := by
  obtain ⟨b, hb, rfl⟩ := List.mem_map.mp hp
  obtain ⟨b', hb', heq⟩ := List.mem_map.mp hq
  exact h.unique p q b hb b' hb' heq.symm

theorem lt_of_mem_symbols (h : t.Bound) (hx : x ∈ t.symbols p) : x.index < t.entries.length := by
  obtain ⟨b, hb, rfl⟩ := List.mem_map.mp hx
  exact h.lt p b hb

/-- No symbol is in two of the scopes, and in none twice. -/
theorem nodup_flatMap_symbols (h : t.Bound) {ids : List ScopeId} (hids : ids.Nodup) :
    (ids.flatMap t.symbols).Nodup := by
  refine List.nodup_flatMap.mpr ⟨fun p _ => nodup_symbols h p, hids.imp fun {p q} hne x hp hq => ?_⟩
  exact hne (symbols_unique h hp hq)

end

end SymbolTable

/-! ## The symbols that get a place -/

namespace Frame

variable {t : SymbolTable} {x : SymbolId}

theorem map_demands (t : SymbolTable) (f : Function) :
    (demands t f).map (·.1) = (f.scope :: t.nested f.scope).flatMap t.symbols := by
  have hown : ((t.symbols f.scope).mapIdx fun i id =>
      (id, pushedPlace (t.paramCount f.symbol) i)).map (·.1) = t.symbols f.scope := by
    refine List.ext_getElem? fun i => ?_
    simp [Function.comp_def]
  have hrest : (((t.nested f.scope).flatMap t.symbols).map fun id =>
      (id, (none : Option Int))).map (·.1) = (t.nested f.scope).flatMap t.symbols := by
    rw [List.map_map]
    exact List.map_id _
  rw [demands, List.map_append, hown, hrest, List.flatMap_cons]

theorem nodup_demands (h : t.Reachable) (f : Function) : ((demands t f).map (·.1)).Nodup := by
  rw [map_demands]
  exact SymbolTable.nodup_flatMap_symbols h.bound (SymbolTable.nodup_nested h.tree f.scope)

theorem mem_demands_iff (h : t.Reachable) (f : Function) (x : SymbolId) :
    x ∈ (demands t f).map (·.1) ↔ ∃ p, t.Encloses f.scope p ∧ x ∈ t.symbols p := by
  rw [map_demands, List.mem_flatMap]
  refine exists_congr fun p => and_congr_left fun _ => ?_
  exact SymbolTable.mem_nested_iff h.tree f.scope p

theorem lt_of_mem_demands (h : t.Reachable) {f : Function} {d : SymbolId × Option Int}
    (hd : d ∈ demands t f) : d.1.index < t.entries.length := by
  obtain ⟨p, -, hp⟩ := (mem_demands_iff h f d.1).mp (List.mem_map_of_mem hd)
  exact SymbolTable.lt_of_mem_symbols h.bound hp

end Frame

end LittleC
