import LittleC.Checker
import LittleC.Proofs.Frame.Layout
import Mathlib.Data.List.Nodup

/-! # Tables that checking makes

Checking only opens and closes scopes, adds new symbols and drops bindings. So the scopes form a
tree in which children and parents agree, and no symbol is bound twice. -/

namespace LittleC

namespace SymbolTable

/-! ## Reachable tables -/

/-- The tables that opening, closing, adding, replacing and laying out lead to. -/
inductive Reachable : SymbolTable → Prop where
  | empty : Reachable .empty
  | openScope {t : SymbolTable} (h : Reachable t) : Reachable t.openScope.2
  | closeScope {t : SymbolTable} (h : Reachable t) : Reachable t.closeScope.2
  | insertIn {t : SymbolTable} (h : Reachable t) (id : ScopeId) (s : Symbol) :
      Reachable (t.insertIn id s).2
  | replaceIn {t : SymbolTable} (h : Reachable t) (id : ScopeId) (s : Symbol) :
      Reachable (t.replaceIn id s).2
  | allocate {t : SymbolTable} (h : Reachable t) (f : Function) : Reachable (t.allocate f).2

theorem Reachable.insert {t : SymbolTable} (h : t.Reachable) (s : Symbol) :
    (t.insert s).2.Reachable := by
  unfold SymbolTable.insert
  split
  · exact h.insertIn _ s
  · exact h.openScope.insertIn _ s

theorem Reachable.allocateAll : ∀ (fs : List Function) {t : SymbolTable}, t.Reachable →
    (t.allocateAll fs).2.Reachable
  | [], _, h => h
  | f :: fs, _, h => Reachable.allocateAll fs (h.allocate f)

/-! ## The tree of scopes -/

/-- `c` is a scope of the table inside scope `p`. -/
def Child (t : SymbolTable) (p c : ScopeId) : Prop :=
  c.index < t.scopes.length ∧ (t.scope c).parent = some p

/-- Parents and children agree, and a child is younger than its parent. -/
structure Tree (t : SymbolTable) : Prop where
  chain_lt : ∀ id ∈ t.chain, id.index < t.scopes.length
  mem_children : ∀ p c, c ∈ (t.scope p).children ↔ t.Child p c
  nodup : ∀ p, (t.scope p).children.Nodup
  parent_lt : ∀ p c, t.Child p c → p.index < c.index

section
variable {t : SymbolTable} {id q : ScopeId}

theorem scope_of_le (h : t.scopes.length ≤ q.index) : t.scope q = default := by
  simp [scope, List.getElem?_eq_none h]

theorem scope_modifyScope (t : SymbolTable) (id q : ScopeId) (f : Scope → Scope) :
    (t.modifyScope id f).scope q =
      if q = id ∧ q.index < t.scopes.length then f (t.scope q) else t.scope q := by
  obtain ⟨i⟩ := id
  obtain ⟨j⟩ := q
  by_cases hj : j < t.scopes.length
  · by_cases hij : j = i
    · subst hij
      simp [modifyScope, scope, hj]
    · have hne : i ≠ j := fun h => hij h.symm
      simp [modifyScope, scope, hij, hne]
  · simp [modifyScope, scope, hj]

/-- A change that keeps parents and children keeps the tree. -/
theorem Tree.modifyScope (h : t.Tree) (id : ScopeId) {f : Scope → Scope}
    (hparent : ∀ s, (f s).parent = s.parent) (hchildren : ∀ s, (f s).children = s.children) :
    (t.modifyScope id f).Tree := by
  have hlength : (t.modifyScope id f).scopes.length = t.scopes.length := List.length_modify ..
  have hscope : ∀ q, ((t.modifyScope id f).scope q).parent = (t.scope q).parent ∧
      ((t.modifyScope id f).scope q).children = (t.scope q).children := by
    intro q
    rw [scope_modifyScope]
    split
    · exact ⟨hparent _, hchildren _⟩
    · exact ⟨rfl, rfl⟩
  have hchild : ∀ p c, (t.modifyScope id f).Child p c ↔ t.Child p c := by
    intro p c
    rw [Child, Child, hlength, (hscope c).1]
  refine ⟨fun id hid => hlength ▸ h.chain_lt id hid, fun p c => ?_, fun p => ?_, fun p c hc => ?_⟩
  · rw [(hscope p).2, hchild, h.mem_children]
  · rw [(hscope p).2]
    exact h.nodup p
  · exact h.parent_lt p c ((hchild p c).mp hc)

theorem Tree.bind (h : t.Tree) (id : ScopeId) (name : String) (x : SymbolId) :
    (t.modifyScope id (·.bind name x)).Tree := by
  refine h.modifyScope id (fun s => ?_) fun s => ?_ <;> unfold Scope.bind <;> split <;> rfl

/-- Of the table only its scopes count. -/
theorem Tree.of_scopes {u : SymbolTable} (h : t.Tree) (hscopes : u.scopes = t.scopes)
    (hchain : ∀ id ∈ u.chain, id ∈ t.chain) : u.Tree := by
  have hscope : u.scope = t.scope := by
    funext q
    simp only [scope, hscopes]
  have hchild : u.Child = t.Child := by
    funext p c
    simp only [Child, hscope, hscopes]
  refine ⟨fun id hid => ?_, fun p c => ?_, fun p => ?_, fun p c hc => ?_⟩
  · rw [hscopes]
    exact h.chain_lt id (hchain id hid)
  · rw [hscope, hchild]
    exact h.mem_children p c
  · rw [hscope]
    exact h.nodup p
  · rw [hchild] at hc
    exact h.parent_lt p c hc

theorem tree_empty : empty.Tree := by
  have hdefault : ∀ q, empty.scope q = default := fun q => scope_of_le (Nat.zero_le _)
  refine ⟨fun _ h => absurd h List.not_mem_nil, fun p c => ?_, fun p => ?_, fun p c hc => ?_⟩
  · rw [hdefault]
    exact ⟨fun h => absurd h List.not_mem_nil, fun h => absurd h.1 (Nat.not_lt_zero _)⟩
  · rw [hdefault]
    exact .nil
  · exact absurd hc.1 (Nat.not_lt_zero _)

theorem scope_append (t : SymbolTable) (s : Scope) (chain : List ScopeId) (q : ScopeId) :
    ({ t with scopes := t.scopes ++ [s], chain := chain } : SymbolTable).scope q =
      if q.index = t.scopes.length then s else t.scope q := by
  by_cases hq : q.index = t.scopes.length
  · simp [scope, hq]
  · by_cases hlt : q.index < t.scopes.length
    · simp [scope, hq, List.getElem?_append_left hlt]
    · have hle : (t.scopes ++ [s]).length ≤ q.index := by
        rw [List.length_append, List.length_singleton]
        omega
      simp [scope, hq, List.getElem?_eq_none hle, List.getElem?_eq_none (Nat.le_of_not_lt hlt)]

theorem length_openScope (t : SymbolTable) :
    t.openScope.2.scopes.length = t.scopes.length + 1 := by
  unfold openScope adopt
  cases t.current? with
  | none => simp
  | some p => simp [modifyScope]

theorem chain_openScope (t : SymbolTable) :
    t.openScope.2.chain = ⟨t.scopes.length⟩ :: t.chain := by
  unfold openScope adopt
  cases t.current? <;> rfl

theorem entries_openScope (t : SymbolTable) : t.openScope.2.entries = t.entries := by
  unfold openScope adopt
  cases t.current? <;> rfl

theorem chain_settleAll (t : SymbolTable) (slots : List Slot) :
    (t.settleAll slots).chain = t.chain := by
  induction slots generalizing t with
  | nil => rfl
  | cons s slots ih => exact ih _

theorem length_settleAll (t : SymbolTable) (slots : List Slot) :
    (t.settleAll slots).entries.length = t.entries.length := by
  induction slots generalizing t with
  | nil => rfl
  | cons s slots ih => exact (ih _).trans (length_setOffset t s.symbol s.offset)

/-- What a new scope makes of the scopes. -/
theorem scope_openScope (h : t.Tree) (q : ScopeId) :
    (t.openScope.2.scope q).bindings = (t.scope q).bindings ∧
      (t.openScope.2.scope q).parent =
        (if q.index = t.scopes.length then t.current? else (t.scope q).parent) ∧
      (t.openScope.2.scope q).children =
        (t.scope q).children ++ if t.current? = some q then [⟨t.scopes.length⟩] else [] := by
  have hnew : q.index = t.scopes.length → t.scope q = default := fun hq => scope_of_le (by omega)
  unfold openScope
  cases hcurrent : t.current? with
  | none =>
      simp only [adopt, scope_append]
      split
      · next hq =>
          rw [hnew hq]
          exact ⟨rfl, rfl, rfl⟩
      · simp
  | some p =>
      have hp : p.index < t.scopes.length := h.chain_lt p (List.mem_of_mem_head? hcurrent)
      simp only [adopt, scope_modifyScope, scope_append]
      by_cases hq : q.index = t.scopes.length
      · have hne : q ≠ p := by
          rintro rfl
          omega
        rw [if_neg fun hand => hne hand.1, if_pos hq, if_pos hq,
          if_neg fun heq => hne (Option.some.inj heq).symm, hnew hq]
        exact ⟨rfl, rfl, rfl⟩
      · by_cases heq : q = p
        · subst heq
          simp [hq, Nat.lt_succ_of_lt hp]
        · have heq' : ¬p = q := fun h => heq h.symm
          simp [hq, heq, heq']

theorem Tree.openScope (h : t.Tree) : t.openScope.2.Tree := by
  have hscope := t.scope_openScope h
  have hlength := t.length_openScope
  have hcurrent : ∀ p, t.current? = some p → p.index < t.scopes.length :=
    fun p hp => h.chain_lt p (List.mem_of_mem_head? hp)
  have hchild : ∀ p c, t.openScope.2.Child p c ↔
      t.Child p c ∨ t.current? = some p ∧ c = ⟨t.scopes.length⟩ := by
    intro p c
    rw [Child, Child, hlength, (hscope c).2.1]
    by_cases hnew : c.index = t.scopes.length
    · obtain rfl : c = ⟨t.scopes.length⟩ := congrArg ScopeId.mk hnew
      simp
    · have hne : c ≠ ⟨t.scopes.length⟩ := by
        rintro rfl
        exact hnew rfl
      have hlt : c.index < t.scopes.length + 1 ↔ c.index < t.scopes.length := by omega
      rw [if_neg hnew, hlt]
      simp [hne]
  refine ⟨fun id hid => ?_, fun p c => ?_, fun p => ?_, fun p c hc => ?_⟩
  · rw [hlength]
    rcases List.mem_cons.mp (show id ∈ ⟨t.scopes.length⟩ :: t.chain by
      rwa [chain_openScope] at hid) with rfl | hid
    · exact Nat.lt_succ_self _
    · exact Nat.lt_succ_of_lt (h.chain_lt id hid)
  · rw [(hscope p).2.2, List.mem_append, h.mem_children, hchild]
    split <;> simp_all
  · rw [(hscope p).2.2]
    refine (h.nodup p).append (by split <;> simp) fun c hc hnew => ?_
    split at hnew
    · cases List.mem_singleton.mp hnew
      exact Nat.lt_irrefl _ ((h.mem_children p _).mp hc).1
    · exact absurd hnew List.not_mem_nil
  · rcases (hchild p c).mp hc with hc | ⟨hp, rfl⟩
    · exact h.parent_lt p c hc
    · exact hcurrent p hp

/-! ## Bindings -/

/-- Bindings of different names to different symbols. -/
def Distinct (bs : List (String × SymbolId)) : Prop := bs.Pairwise fun a b => a.1 ≠ b.1 ∧ a.2 ≠ b.2

/-- Symbols are known to the table, and each is bound once. -/
structure Bound (t : SymbolTable) : Prop where
  distinct : ∀ p, Distinct (t.scope p).bindings
  lt : ∀ p, ∀ b ∈ (t.scope p).bindings, b.2.index < t.entries.length
  unique : ∀ p q, ∀ b ∈ (t.scope p).bindings, ∀ b' ∈ (t.scope q).bindings, b.2 = b'.2 → p = q

theorem mem_bind {s : Scope} {name : String} {x : SymbolId} {b : String × SymbolId}
    (h : b ∈ (s.bind name x).bindings) : b ∈ s.bindings ∨ b = (name, x) := by
  unfold Scope.bind at h
  split at h
  · obtain ⟨b', hb', rfl⟩ := List.mem_map.mp h
    split
    · exact .inr rfl
    · exact .inl hb'
  · rcases List.mem_append.mp h with h | h
    · exact .inl h
    · exact .inr (List.mem_singleton.mp h)

theorem Distinct.bind {s : Scope} {x : SymbolId} (h : Distinct s.bindings)
    (hx : ∀ b ∈ s.bindings, b.2 ≠ x) (name : String) : Distinct (s.bind name x).bindings := by
  unfold Scope.bind
  split
  · refine List.pairwise_map.mpr (h.imp_of_mem fun {a b} ha hb hne => ?_)
    -- Of two bindings at most one is of this name.
    by_cases hna : a.1 = name
    · have hnb : b.1 ≠ name := fun hnb => hne.1 (hna.trans hnb.symm)
      simpa [hna, hnb] using ⟨fun heq => hnb heq.symm, fun heq => hx b hb heq.symm⟩
    · by_cases hnb : b.1 = name
      · simpa [hna, hnb] using hx a ha
      · simpa [hna, hnb] using hne
  · next hany =>
      refine List.pairwise_append.mpr ⟨h, List.pairwise_singleton .., fun a ha b hb => ?_⟩
      cases List.mem_singleton.mp hb
      exact ⟨fun heq => hany (List.any_eq_true.mpr ⟨a, ha, beq_iff_eq.mpr heq⟩), hx a ha⟩

/-- Bindings may be dropped and symbols added. -/
theorem Bound.sublist {u : SymbolTable} (h : t.Bound)
    (hentries : t.entries.length ≤ u.entries.length)
    (hscope : ∀ q, (u.scope q).bindings.Sublist (t.scope q).bindings) : u.Bound where
  distinct p := (h.distinct p).sublist (hscope p)
  lt p b hb := Nat.lt_of_lt_of_le (h.lt p b ((hscope p).mem hb)) hentries
  unique p q b hb b' hb' := h.unique p q b ((hscope p).mem hb) b' ((hscope q).mem hb')

/-- A symbol that is added is bound in its scope only. -/
theorem bindings_insertIn (t : SymbolTable) (id : ScopeId) (s : Symbol) (q : ScopeId) :
    ((t.insertIn id s).2.scope q).bindings =
      if q = id ∧ q.index < t.scopes.length then
        ((t.scope q).bind s.name ⟨t.entries.length⟩).bindings
      else (t.scope q).bindings := by
  simp only [SymbolTable.insertIn, scope_modifyScope]
  split <;> rfl

theorem Bound.insertIn (h : t.Bound) (id : ScopeId) (s : Symbol) : (t.insertIn id s).2.Bound := by
  have hlength : (t.insertIn id s).2.entries.length = t.entries.length + 1 := by
    simp [SymbolTable.insertIn, SymbolTable.modifyScope]
  have hscope := t.bindings_insertIn id s
  have hnew : ∀ q, ∀ b ∈ (t.scope q).bindings, b.2 ≠ ⟨t.entries.length⟩ := by
    intro q b hb heq
    exact Nat.ne_of_lt (h.lt q b hb) (congrArg SymbolId.index heq)
  -- A binding is an old one of the scope, or the scope is `id` and the symbol is the new one.
  have hmem : ∀ q, ∀ b ∈ ((t.insertIn id s).2.scope q).bindings,
      b ∈ (t.scope q).bindings ∨ q = id ∧ b.2 = ⟨t.entries.length⟩ := by
    intro q b hb
    rw [hscope] at hb
    split at hb
    · next hq => exact (mem_bind hb).imp_right fun heq => ⟨hq.1, congrArg Prod.snd heq⟩
    · exact .inl hb
  refine ⟨fun p => ?_, fun p b hb => ?_, fun p q b hb b' hb' heq => ?_⟩
  · rw [hscope]
    split
    · exact (h.distinct p).bind (hnew p) s.name
    · exact h.distinct p
  · rw [hlength]
    rcases hmem p b hb with hb | ⟨-, hb⟩
    · exact Nat.lt_succ_of_lt (h.lt p b hb)
    · rw [hb]
      exact Nat.lt_succ_self _
  · rcases hmem p b hb with hold | ⟨rfl, hb⟩ <;> rcases hmem q b' hb' with hold' | ⟨rfl, hb'⟩
    · exact h.unique p q b hold b' hold' heq
    · next hsymbol => exact absurd (heq.trans hsymbol) (hnew p b hold)
    · next hsymbol => exact absurd (heq.symm.trans hsymbol) (hnew q b' hold')
    · rfl

theorem Bound.unbind (h : t.Bound) (id : ScopeId) (name : String) :
    (t.modifyScope id (·.unbind name)).Bound := by
  refine h.sublist (Nat.le_refl _) fun q => ?_
  rw [scope_modifyScope]
  split
  · exact List.filter_sublist
  · exact .refl _

theorem bound_empty : empty.Bound := by
  have hnone : ∀ q, (empty.scope q).bindings = [] := fun q => by
    rw [scope_of_le (Nat.zero_le _)]
    rfl
  refine ⟨fun p => ?_, fun p b hb => ?_, fun p q b hb => ?_⟩
  · rw [hnone]
    exact .nil
  all_goals
    rw [hnone] at hb
    exact absurd hb List.not_mem_nil

/-! ## What every reachable table is like -/

theorem Reachable.tree (h : t.Reachable) : t.Tree := by
  induction h with
  | empty => exact tree_empty
  | openScope _ ih => exact ih.openScope
  | closeScope _ ih => exact ih.of_scopes rfl fun _ hid => List.mem_of_mem_tail hid
  | @insertIn t _ id s ih =>
      have hgrown : ({ t with entries := t.entries ++ [s] } : SymbolTable).Tree :=
        ih.of_scopes rfl fun _ hid => hid
      exact hgrown.bind id s.name _
  | @replaceIn t _ id s ih =>
      have hgrown : ({ t.modifyScope id (·.unbind s.name) with
          entries := t.entries ++ [s] } : SymbolTable).Tree :=
        (ih.modifyScope id (f := (·.unbind s.name)) (fun _ => rfl) fun _ => rfl).of_scopes rfl
          fun _ hid => hid
      exact hgrown.bind id s.name _
  | allocate _ f ih =>
      refine ih.of_scopes (scopes_settleAll _ _) fun id hid => ?_
      rwa [show (SymbolTable.allocate _ f).2.chain = _ from chain_settleAll _ _] at hid

theorem Reachable.bound (h : t.Reachable) : t.Bound := by
  induction h with
  | empty => exact bound_empty
  | openScope h ih =>
      refine ih.sublist (Nat.le_of_eq (congrArg List.length (entries_openScope _).symm)) fun q => ?_
      rw [(scope_openScope h.tree q).1]
  | closeScope _ ih => exact ih.sublist (Nat.le_refl _) fun _ => .refl _
  | insertIn _ id s ih => exact ih.insertIn id s
  | replaceIn _ id s ih => exact (ih.unbind id s.name).insertIn id s
  | allocate _ f ih =>
      refine ih.sublist (Nat.le_of_eq (length_settleAll _ _).symm) fun q => ?_
      rw [scope, show (SymbolTable.allocate _ f).2.scopes = _ from scopes_settleAll _ _]
      exact .refl _

end

end SymbolTable

end LittleC
