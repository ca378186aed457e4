import LittleC.Proofs.Symbols.Nested

/-! # How a table grows while a unit is checked

New names go to the file scope or, each name once, to an open scope. So what a scope other than the
file scope declares stays declared there, and a symbol that comes into a scope later is a new
one. -/

namespace LittleC

/-- The scope of file-level names. -/
def ScopeId.file : ScopeId := ⟨0⟩

namespace SymbolTable

/-- The elementary changes. -/
inductive Change (t : SymbolTable) : SymbolTable → Prop where
  | openScope : Change t t.openScope.2
  | closeScope : Change t t.closeScope.2
  /-- Within a scope, file-level names apart, a name is new. -/
  | insertIn {id : ScopeId} {name : String} (ty : Ty)
      (hnew : id = .file ∨ t.findIn? id name = none) : Change t (t.insertIn id (.fresh name ty)).2
  | replaceIn (name : String) (ty : Ty) : Change t (t.replaceIn .file (.fresh name ty)).2

/-- What stays of a table: its symbols, the tree of its scopes, and the names of all scopes but the
file scope. -/
structure Grows (t u : SymbolTable) : Prop where
  entries : t.entries <+: u.entries
  scopes : t.scopes.length ≤ u.scopes.length
  parent : ∀ p, p.index < t.scopes.length → (u.scope p).parent = (t.scope p).parent
  symbols : ∀ p, p ≠ .file → t.symbols p <+: u.symbols p
  fresh : ∀ p, ∀ x ∈ u.symbols p, x ∈ t.symbols p ∨ t.entries.length ≤ x.index

section
variable {t u v : SymbolTable} {id p c : ScopeId} {x : SymbolId} {s : Symbol}

theorem Grows.refl (t : SymbolTable) : t.Grows t where
  entries := List.prefix_rfl
  scopes := Nat.le_refl _
  parent _ _ := rfl
  symbols _ _ := List.prefix_rfl
  fresh _ _ hx := .inl hx

theorem Grows.trans (h : t.Grows u) (h' : u.Grows v) : t.Grows v where
  entries := h.entries.trans h'.entries
  scopes := Nat.le_trans h.scopes h'.scopes
  parent p hp := (h'.parent p (Nat.lt_of_lt_of_le hp h.scopes)).trans (h.parent p hp)
  symbols p hp := (h.symbols p hp).trans (h'.symbols p hp)
  fresh p x hx := by
    rcases h'.fresh p x hx with hx | hx
    · exact h.fresh p x hx
    · exact .inr (Nat.le_trans h.entries.length_le hx)

/-! ## What stays -/

theorem symbol_of_prefix (h : t.entries <+: u.entries) (hx : x.index < t.entries.length) :
    u.symbol x = t.symbol x := by
  obtain ⟨rest, hrest⟩ := h
  simp [SymbolTable.symbol, ← hrest, List.getElem?_append_left hx]

theorem Grows.child (h : t.Grows u) (hc : t.Child p c) : u.Child p c :=
  ⟨Nat.lt_of_lt_of_le hc.1 h.scopes, (h.parent c hc.1).trans hc.2⟩

theorem Grows.encloses (h : t.Grows u) (hc : t.Encloses p c) : u.Encloses p c :=
  Relation.ReflTransGen.mono (fun _ _ hchild => h.child hchild) _ _ hc

theorem Grows.symbol (h : t.Grows u) (hx : x.index < t.entries.length) : u.symbol x = t.symbol x :=
  symbol_of_prefix h.entries hx

theorem Grows.mem_symbols (h : t.Grows u) (hp : p ≠ .file) (hx : x ∈ t.symbols p) :
    x ∈ u.symbols p := (h.symbols p hp).mem hx

/-- A symbol of the table comes into no other scope. -/
theorem Grows.mem_of_mem (h : t.Grows u) (hx : x.index < t.entries.length)
    (hmem : x ∈ u.symbols p) : x ∈ t.symbols p :=
  (h.fresh p x hmem).resolve_right (Nat.not_le_of_lt hx)

/-- Below a scope other than the file scope there is no file scope. -/
theorem Encloses.ne_file (h : t.Tree) (hp : t.Child id p) (hc : t.Encloses p c) : c ≠ .file := by
  rintro rfl
  exact absurd (h.parent_lt _ _ hp) (Nat.not_lt_of_le (Nat.le_trans (hc.le h) (Nat.zero_le _)))

/-! ## Every change is growth -/

theorem any_eq_false_of_findIn? {name : String} (h : t.findIn? id name = none) :
    (t.scope id).bindings.any (·.1 == name) = false := by
  rw [findIn?, Scope.find?, Option.map_eq_none_iff, List.find?_eq_none] at h
  exact List.any_eq_false.mpr h

theorem mem_symbols_insertIn (h : x ∈ (t.insertIn id s).2.symbols p) :
    x ∈ t.symbols p ∨ x = ⟨t.entries.length⟩ := by
  obtain ⟨b, hb, rfl⟩ := List.mem_map.mp h
  rw [bindings_insertIn] at hb
  split at hb
  · exact (mem_bind hb).imp (List.mem_map_of_mem ·) (congrArg Prod.snd)
  · exact .inl (List.mem_map_of_mem hb)

/-- A new name stands at the end of its scope. -/
theorem symbols_insertIn (h : t.findIn? id s.name = none) (hid : id.index < t.scopes.length) :
    (t.insertIn id s).2.symbols id = t.symbols id ++ [⟨t.entries.length⟩] := by
  have hnew := any_eq_false_of_findIn? h
  rw [symbols, bindings_insertIn, if_pos ⟨rfl, hid⟩, Scope.bind, hnew]
  simp [symbols]

theorem symbols_insertIn_of_ne (h : p ≠ id) : (t.insertIn id s).2.symbols p = t.symbols p := by
  rw [symbols, bindings_insertIn, if_neg fun hand => h hand.1, symbols]

theorem parent_insertIn (t : SymbolTable) (id : ScopeId) (s : Symbol) (p : ScopeId) :
    ((t.insertIn id s).2.scope p).parent = (t.scope p).parent := by
  simp only [insertIn, scope_modifyScope]
  split
  · unfold Scope.bind
    split <;> rfl
  · rfl

theorem length_insertIn (t : SymbolTable) (id : ScopeId) (s : Symbol) :
    (t.insertIn id s).2.scopes.length = t.scopes.length := List.length_modify ..

theorem grows_insertIn (hnew : id = .file ∨ t.findIn? id s.name = none) :
    t.Grows (t.insertIn id s).2 where
  entries := List.prefix_append ..
  scopes := Nat.le_of_eq (t.length_insertIn id s).symm
  parent p _ := t.parent_insertIn id s p
  symbols p hp := by
    by_cases heq : p = id
    · subst heq
      by_cases hlt : p.index < t.scopes.length
      · rw [symbols_insertIn (hnew.resolve_left hp) hlt]
        exact List.prefix_append ..
      · have hsame : (t.insertIn p s).2.symbols p = t.symbols p := by
          rw [symbols, symbols, bindings_insertIn, if_neg fun hand => hlt hand.2]
        exact hsame ▸ List.prefix_rfl
    · have hsame : (t.insertIn id s).2.symbols p = t.symbols p := symbols_insertIn_of_ne heq
      exact hsame ▸ List.prefix_rfl
  fresh p x hx := (mem_symbols_insertIn hx).imp_right fun heq =>
    Nat.le_of_eq (congrArg SymbolId.index heq).symm

theorem grows_unbind (t : SymbolTable) (name : String) :
    t.Grows (t.modifyScope .file (·.unbind name)) where
  entries := List.prefix_rfl
  scopes := Nat.le_of_eq (List.length_modify ..).symm
  parent p _ := by
    rw [scope_modifyScope]
    split <;> rfl
  symbols p hp := by
    have hsame : (t.modifyScope .file (·.unbind name)).symbols p = t.symbols p := by
      rw [symbols, symbols, scope_modifyScope, if_neg fun hand => hp hand.1]
    exact hsame ▸ List.prefix_rfl
  fresh p x hx := by
    obtain ⟨b, hb, rfl⟩ := List.mem_map.mp hx
    rw [scope_modifyScope] at hb
    split at hb
    · exact .inl (List.mem_map_of_mem (List.mem_of_mem_filter hb))
    · exact .inl (List.mem_map_of_mem hb)

theorem grows_openScope (h : t.Tree) : t.Grows t.openScope.2 where
  entries := t.entries_openScope.symm ▸ List.prefix_rfl
  scopes := by
    rw [length_openScope]
    exact Nat.le_succ _
  parent p hp := by rw [(t.scope_openScope h p).2.1, if_neg (Nat.ne_of_lt hp)]
  symbols p _ := by
    have hsame : t.openScope.2.symbols p = t.symbols p := by
      rw [symbols, symbols, (t.scope_openScope h p).1]
    exact hsame ▸ List.prefix_rfl
  fresh p x hx := by
    rw [symbols, (t.scope_openScope h p).1] at hx
    exact .inl hx

theorem grows_closeScope (t : SymbolTable) : t.Grows t.closeScope.2 where
  entries := List.prefix_rfl
  scopes := Nat.le_refl _
  parent _ _ := rfl
  symbols _ _ := List.prefix_rfl
  fresh _ _ hx := .inl hx

theorem Change.grows (h : t.Change u) (ht : t.Tree) : t.Grows u := by
  cases h with
  | openScope => exact grows_openScope ht
  | closeScope => exact grows_closeScope t
  | insertIn ty hnew => exact grows_insertIn hnew
  | replaceIn name ty => exact (grows_unbind t name).trans (grows_insertIn (.inl rfl))

theorem Change.reachable (h : t.Change u) (ht : t.Reachable) : u.Reachable := by
  cases h with
  | openScope => exact ht.openScope
  | closeScope => exact ht.closeScope
  | insertIn ty hnew => exact ht.insertIn _ _
  | replaceIn name ty => exact ht.replaceIn _ _

/-- No symbol has a place in a frame. -/
def Unplaced (t : SymbolTable) : Prop := ∀ s ∈ t.entries, s.offset = none

theorem Change.unplaced (h : t.Change u) (ht : t.Unplaced) : u.Unplaced := by
  have hfresh {name : String} {ty : Ty} : ∀ s ∈ t.entries ++ [.fresh name ty], s.offset = none := by
    refine List.forall_mem_append.mpr ⟨ht, fun s hs => ?_⟩
    rw [List.mem_singleton.mp hs]
    rfl
  cases h with
  | openScope =>
      rw [Unplaced, entries_openScope]
      exact ht
  | closeScope => exact ht
  | insertIn | replaceIn => exact hfresh

/-! ## Changes in a row -/

def Changes : SymbolTable → SymbolTable → Prop := Relation.ReflTransGen Change

theorem Changes.reachable (h : t.Changes u) (ht : t.Reachable) : u.Reachable := by
  induction h with
  | refl => exact ht
  | tail _ hlast ih => exact hlast.reachable ih

theorem Changes.grows (h : t.Changes u) (ht : t.Reachable) : t.Grows u := by
  induction h with
  | refl => exact .refl t
  | tail hinit hlast ih => exact ih.trans (hlast.grows (Changes.reachable hinit ht).tree)

theorem Changes.unplaced (h : t.Changes u) (ht : t.Unplaced) : u.Unplaced := by
  induction h with
  | refl => exact ht
  | tail _ hlast ih => exact hlast.unplaced ih

/-- Changes that leave the open scopes open. -/
def Extends (t u : SymbolTable) : Prop := t.Changes u ∧ u.chain = t.chain

theorem Extends.refl (t : SymbolTable) : t.Extends t := ⟨.refl, rfl⟩

/-! ## Names of open scopes -/

theorem mem_symbols_of_findIn? {name : String} (h : t.findIn? id name = some x) :
    x ∈ t.symbols id := by
  obtain ⟨b, hb, rfl⟩ := Option.map_eq_some_iff.mp h
  exact List.mem_map_of_mem (List.mem_of_find?_eq_some hb)

/-- A name stands for a symbol of an open scope. -/
theorem mem_symbols_of_lookup? {name : String} (h : t.lookup? name = some x) :
    ∃ p ∈ t.chain, x ∈ t.symbols p := by
  obtain ⟨p, hp, hfind⟩ := List.exists_of_findSome?_eq_some h
  exact ⟨p, hp, mem_symbols_of_findIn? hfind⟩

end

end SymbolTable

end LittleC
