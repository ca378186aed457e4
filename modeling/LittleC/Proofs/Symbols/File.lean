import LittleC.Assembly
import LittleC.Proofs.Symbols.Growth

/-! # Names of the file scope

In a scope a name is bound to one symbol at most, and that symbol has the name. So storage is laid
out for each name of the file scope once, if it is the name of a value. -/

namespace LittleC

/-! ## One scope -/

namespace Scope

section
variable {s : Scope} {name other : String} {x : SymbolId}

theorem mem_of_find? (h : s.find? name = some x) : (name, x) ∈ s.bindings := by
  obtain ⟨b, hb, rfl⟩ := Option.map_eq_some_iff.mp h
  have hname : b.1 = name := by simpa using List.find?_some hb
  subst hname
  exact List.mem_of_find?_eq_some hb

theorem find?_eq_none_iff : s.find? name = none ↔ ∀ b ∈ s.bindings, b.1 ≠ name := by
  simp [find?]

/-- A name is bound once, so what is bound is found. -/
theorem find?_eq_some_iff (hs : (s.bindings.map (·.1)).Nodup) :
    s.find? name = some x ↔ (name, x) ∈ s.bindings := by
  refine ⟨mem_of_find?, fun hmem => ?_⟩
  cases hfind : s.find? name with
  | none => exact absurd rfl (find?_eq_none_iff.mp hfind _ hmem)
  | some y =>
      have hsame := List.inj_on_of_nodup_map hs (mem_of_find? hfind) hmem rfl
      rw [(Prod.mk.inj hsame).2]

theorem find?_bind_self (s : Scope) (name : String) (x : SymbolId) :
    (s.bind name x).find? name = some x := by
  unfold Scope.bind
  split
  · next hany =>
      have hkey : ((·.1 == name) ∘ fun b : String × SymbolId =>
          if b.1 == name then (name, x) else b) = (·.1 == name) := by
        funext b
        by_cases hb : b.1 = name <;> simp [hb]
      rw [find?, List.find?_map, hkey]
      -- The first binding of the name is the one that is rewritten.
      cases hfind : s.bindings.find? (·.1 == name) with
      | none =>
          obtain ⟨b, hb, hname⟩ := List.any_eq_true.mp hany
          exact absurd hname (List.find?_eq_none.mp hfind b hb)
      | some b =>
          have hb : (b.1 == name) = true := by simpa using List.find?_some hfind
          rw [Option.map_some, Option.map_some, if_pos hb]
  · next hany =>
      have hnone : s.bindings.find? (·.1 == name) = none :=
        List.find?_eq_none.mpr (List.any_eq_false.mp (eq_false_of_ne_true hany))
      rw [find?, List.find?_append, hnone]
      simp

theorem find?_bind_of_ne (s : Scope) (x : SymbolId) (h : other ≠ name) :
    (s.bind name x).find? other = s.find? other := by
  unfold Scope.bind
  split
  · have hkey : ((·.1 == other) ∘ fun b : String × SymbolId =>
        if b.1 == name then (name, x) else b) = (·.1 == other) := by
      funext b
      by_cases hb : b.1 = name <;> simp [hb]
    rw [find?, List.find?_map, hkey, find?]
    cases hfind : s.bindings.find? (·.1 == other) with
    | none => rfl
    | some b =>
        have hb : b.1 = other := by simpa using List.find?_some hfind
        have hne : ¬(b.1 == name) = true := by simp [hb, h]
        rw [Option.map_some, Option.map_some, if_neg hne]
        rfl
  · have hne : (name == other) = false := beq_eq_false_iff_ne.mpr h.symm
    simp [find?, hne]

theorem find?_unbind_of_ne (s : Scope) (h : other ≠ name) :
    (s.unbind name).find? other = s.find? other := by
  have hkey : (fun b : String × SymbolId => decide ((b.1 != name) = true ∧ (b.1 == other) = true)) =
      (·.1 == other) := by
    funext b
    by_cases hb : b.1 = other
    · simp [hb, h]
    · simp [hb]
  rw [find?, unbind, List.find?_filter, hkey, find?]

end

end Scope

namespace SymbolTable

section
variable {t u : SymbolTable} {p id : ScopeId} {s : Symbol} {x : SymbolId} {name other : String}

/-! ## Finding what was added -/

theorem scope_insertIn (t : SymbolTable) (id : ScopeId) (s : Symbol) (q : ScopeId) :
    (t.insertIn id s).2.scope q =
      if q = id ∧ q.index < t.scopes.length then (t.scope q).bind s.name ⟨t.entries.length⟩
      else t.scope q := by
  simp only [insertIn, scope_modifyScope]
  rfl

theorem findIn?_insertIn_self (hid : id.index < t.scopes.length) (s : Symbol) :
    (t.insertIn id s).2.findIn? id s.name = some ⟨t.entries.length⟩ := by
  rw [findIn?, scope_insertIn, if_pos ⟨rfl, hid⟩, Scope.find?_bind_self]

theorem findIn?_insertIn_of_ne (id p : ScopeId) (h : other ≠ s.name) :
    (t.insertIn id s).2.findIn? p other = t.findIn? p other := by
  rw [findIn?, scope_insertIn, findIn?]
  split
  · exact Scope.find?_bind_of_ne _ _ h
  · rfl

theorem findIn?_insertIn_of_scope_ne (h : p ≠ id) (s : Symbol) :
    (t.insertIn id s).2.findIn? p = t.findIn? p := by
  funext name
  rw [findIn?, scope_insertIn, if_neg fun hand => h hand.1, findIn?]

theorem findIn?_replaceIn_self (hid : id.index < t.scopes.length) (s : Symbol) :
    (t.replaceIn id s).2.findIn? id s.name = some ⟨t.entries.length⟩ :=
  findIn?_insertIn_self (t := t.modifyScope id (·.unbind s.name))
    (Nat.lt_of_lt_of_eq hid (List.length_modify ..).symm) s

theorem findIn?_replaceIn_of_ne (id p : ScopeId) (h : other ≠ s.name) :
    (t.replaceIn id s).2.findIn? p other = t.findIn? p other := by
  refine (findIn?_insertIn_of_ne (t := t.modifyScope id (·.unbind s.name)) id p h).trans ?_
  rw [findIn?, scope_modifyScope, findIn?]
  split
  · exact Scope.find?_unbind_of_ne _ h
  · rfl

theorem symbol_openScope (t : SymbolTable) : t.openScope.2.symbol = t.symbol := by
  funext x
  rw [symbol, entries_openScope, symbol]

theorem findIn?_openScope (h : t.Tree) (p : ScopeId) : t.openScope.2.findIn? p = t.findIn? p := by
  funext name
  rw [findIn?, findIn?, Scope.find?, Scope.find?, (t.scope_openScope h p).1]

/-! ## Names and symbols -/

/-- A name is bound to a symbol of that name. -/
def Named (t : SymbolTable) : Prop := ∀ p, ∀ b ∈ (t.scope p).bindings, (t.symbol b.2).name = b.1

theorem Named.insertIn (h : t.Named) (ht : t.Bound) (id : ScopeId) (s : Symbol) :
    (t.insertIn id s).2.Named := by
  have hold : ∀ p, ∀ b ∈ (t.scope p).bindings, ((t.insertIn id s).2.symbol b.2).name = b.1 := by
    intro p b hb
    rw [symbol_insertIn_of_lt t id s (ht.lt p b hb)]
    exact h p b hb
  intro p b hb
  rw [bindings_insertIn] at hb
  split at hb
  · rcases mem_bind hb with hb | rfl
    · exact hold p b hb
    · exact congrArg Symbol.name (symbol_insertIn t id s)
  · exact hold p b hb

/-- Bindings may be dropped. -/
theorem Named.sublist (h : t.Named) (hname : ∀ x, (u.symbol x).name = (t.symbol x).name)
    (hscope : ∀ q, (u.scope q).bindings.Sublist (t.scope q).bindings) : u.Named := by
  intro p b hb
  rw [hname]
  exact h p b ((hscope p).mem hb)

theorem Reachable.named (h : t.Reachable) : t.Named := by
  induction h with
  | empty =>
      intro p b hb
      have hnone : SymbolTable.empty.scope p = default := scope_of_le (Nat.zero_le _)
      rw [hnone] at hb
      exact absurd hb List.not_mem_nil
  | @openScope t h ih =>
      refine ih.sublist (fun x => by rw [symbol_openScope]) fun q => ?_
      rw [(scope_openScope h.tree q).1]
  | closeScope _ ih => exact ih.sublist (fun _ => rfl) fun _ => .refl _
  | insertIn h id s ih => exact ih.insertIn h.bound id s
  | @replaceIn t h id s ih =>
      have hunbound : (t.modifyScope id (·.unbind s.name)).Named := by
        refine ih.sublist (fun _ => rfl) fun q => ?_
        rw [scope_modifyScope]
        split
        · exact List.filter_sublist
        · exact .refl _
      exact hunbound.insertIn (h.bound.unbind id s.name) id s
  | allocate _ f ih =>
      refine ih.sublist (fun x => name_settleAll _ _ x) fun q => ?_
      rw [scope, show (SymbolTable.allocate _ f).2.scopes = _ from scopes_settleAll _ _]
      exact .refl _

/-- No name is bound twice in a scope. -/
theorem Bound.nodup_names (h : t.Bound) (p : ScopeId) : ((t.scope p).bindings.map (·.1)).Nodup :=
  List.pairwise_map.mpr ((h.distinct p).imp And.left)

/-- A name stands for the symbol of that name. -/
theorem Reachable.findIn?_eq_some_iff (h : t.Reachable) :
    t.findIn? p name = some x ↔ x ∈ t.symbols p ∧ (t.symbol x).name = name := by
  rw [findIn?, Scope.find?_eq_some_iff (h.bound.nodup_names p)]
  constructor
  · intro hmem
    exact ⟨List.mem_map_of_mem hmem, h.named p _ hmem⟩
  · rintro ⟨hx, rfl⟩
    obtain ⟨b, hb, rfl⟩ := List.mem_map.mp hx
    rw [h.named p b hb]
    exact hb

end

end SymbolTable

/-! ## Storage -/

theorem Ty.isLogical_eq (ty : Ty) : ty.isLogical = !(ty.isFunction || ty.isError) := by
  cases ty <;> rfl

namespace Assembly

variable {t : SymbolTable} {s : Symbol}

theorem globals_eq (h : 0 < t.scopes.length) :
    globals t = ((t.symbols .file).map t.symbol).filter (·.ty.isLogical) := by
  have hfile : t.outermost? = some .file := by
    rw [SymbolTable.outermost?, if_neg (by simpa [List.length_pos_iff] using h)]
    rfl
  rw [globals, hfile]
  refine List.filter_congr fun s _ => ?_
  rw [Ty.isLogical_eq]

/-- The symbols that are stored are the values among those that file-level names stand for. -/
theorem mem_globals (ht : t.Reachable) (h : 0 < t.scopes.length) :
    s ∈ globals t ↔
      ∃ x, t.findIn? .file s.name = some x ∧ t.symbol x = s ∧ s.ty.isLogical = true := by
  rw [globals_eq h, List.mem_filter, List.mem_map]
  constructor
  · rintro ⟨⟨x, hx, rfl⟩, hty⟩
    exact ⟨x, ht.findIn?_eq_some_iff.mpr ⟨hx, rfl⟩, rfl, hty⟩
  · rintro ⟨x, hfind, rfl, hty⟩
    exact ⟨⟨x, (ht.findIn?_eq_some_iff.mp hfind).1, rfl⟩, hty⟩

/-- No name is stored twice. -/
theorem nodup_globals (ht : t.Reachable) (h : 0 < t.scopes.length) :
    ((globals t).map (·.name)).Nodup := by
  have hnames : ((t.symbols .file).map t.symbol).map (·.name) =
      (t.scope .file).bindings.map (·.1) := by
    rw [SymbolTable.symbols, List.map_map, List.map_map]
    exact List.map_congr_left fun b hb => ht.named .file b hb
  rw [globals_eq h]
  refine List.Nodup.sublist (List.filter_sublist.map _) ?_
  rw [hnames]
  exact ht.bound.nodup_names .file

end Assembly

end LittleC
