import LittleC.Proofs.Symbols.File

/-! # Walks through the scopes

A name is looked up from the innermost open scope outwards, along the parents; a function is laid
out from its own scope inwards, along the children. Both walks end, as a scope is younger than the
one around it. -/

namespace LittleC

namespace SymbolTable

/-- The scopes from one scope on outwards, each the parent of the one before. -/
inductive Outward (t : SymbolTable) : Option ScopeId → List ScopeId → Prop where
  | nil : Outward t none []
  | cons {id : ScopeId} {rest : List ScopeId} (h : Outward t (t.scope id).parent rest) :
      Outward t (some id) (id :: rest)

section
variable {t u : SymbolTable} {p : Option ScopeId} {id : ScopeId} {ids : List ScopeId}

/-! ## Outwards -/

theorem Outward.head?_eq (h : t.Outward p ids) : ids.head? = p := by
  cases h <;> rfl

theorem Outward.tail (h : t.Outward p ids) : t.Outward ids.tail.head? ids.tail := by
  cases h with
  | nil => exact .nil
  | cons h =>
      rw [List.tail_cons, h.head?_eq]
      exact h

/-- Only the parents on the way count. -/
theorem Outward.congr (h : t.Outward p ids)
    (hparent : ∀ id ∈ ids, (u.scope id).parent = (t.scope id).parent) : u.Outward p ids := by
  induction h with
  | nil => exact .nil
  | @cons id rest _ ih =>
      apply Outward.cons
      rw [hparent id List.mem_cons_self]
      exact ih fun id hid => hparent id (List.mem_cons_of_mem _ hid)

theorem Outward.openScope (h : t.Outward t.current? t.chain) (ht : t.Tree) :
    t.openScope.2.Outward t.openScope.2.current? t.openScope.2.chain := by
  have hold : t.openScope.2.Outward t.current? t.chain := by
    apply h.congr
    intro id hid
    rw [(t.scope_openScope ht id).2.1, if_neg (Nat.ne_of_lt (ht.chain_lt id hid))]
  rw [current?, chain_openScope]
  apply Outward.cons
  rw [(t.scope_openScope ht _).2.1, if_pos rfl]
  exact hold

/-- The open scopes are those around the innermost one. -/
theorem Reachable.outward (h : t.Reachable) : t.Outward t.current? t.chain := by
  induction h with
  | empty => exact .nil
  | openScope h ih => exact ih.openScope h.tree
  | @closeScope t _ ih =>
      have hinner : t.Outward t.chain.tail.head? t.chain.tail := ih.tail
      exact hinner.congr fun _ _ => rfl
  | @insertIn t _ id s ih => exact ih.congr fun q _ => t.parent_insertIn id s q
  | @replaceIn t _ id s ih =>
      apply ih.congr
      intro q _
      refine (parent_insertIn (t.modifyScope id (·.unbind s.name)) id s q).trans ?_
      rw [scope_modifyScope]
      split <;> rfl
  | @allocate t _ f ih =>
      have hchain : (t.allocate f).2.chain = t.chain := t.chain_settleAll _
      have hsame : ∀ q, (t.allocate f).2.scope q = t.scope q := by
        intro q
        rw [scope, scope, t.scopes_allocate f]
      rw [current?, hchain]
      apply ih.congr
      intro q _
      rw [hsame q]

/-- From every scope the walk outwards ends. -/
theorem Tree.exists_outward (h : t.Tree) (p : Option ScopeId) : ∃ ids, t.Outward p ids := by
  cases p with
  | none => exact ⟨[], .nil⟩
  | some id =>
      by_cases hid : id.index < t.scopes.length
      · induction hn : id.index using Nat.strongRecOn generalizing id with
        | _ n ih =>
            cases hparent : (t.scope id).parent with
            | none =>
                refine ⟨[id], .cons ?_⟩
                rw [hparent]
                exact .nil
            | some q =>
                -- The parent is older, so the walk from it ends.
                have hlt := h.parent_lt q id ⟨hid, hparent⟩
                obtain ⟨ids, hids⟩ := ih q.index (hn ▸ hlt) q (Nat.lt_trans hlt hid) rfl
                refine ⟨id :: ids, .cons ?_⟩
                rw [hparent]
                exact hids
      · refine ⟨[id], .cons ?_⟩
        rw [scope_of_le (Nat.le_of_not_lt hid)]
        exact .nil

/-! ## Inwards -/

theorem Tree.wellFounded_child (h : t.Tree) : WellFounded fun c p => t.Child p c := by
  refine Subrelation.wf ?_ (measure fun p : ScopeId => t.scopes.length - p.index).wf
  intro c p hchild
  have hlt := h.parent_lt p c hchild
  have hbound := hchild.1
  show t.scopes.length - c.index < t.scopes.length - p.index
  omega

/-! ## Sound tables -/

/-- What all tables have in common. -/
structure Sound (t : SymbolTable) : Prop where
  /-- A scope is younger than its parent. -/
  parent_lt : ∀ p c, t.Child p c → p.index < c.index
  /-- A scope is a child of its parent once, and of no other scope. -/
  listed : ∀ p c, t.Child p c → (t.scope p).children.count c = 1
  unlisted : ∀ p c, ¬t.Child p c → c ∉ (t.scope p).children
  current : ∀ id ∈ t.current?, id.index < t.scopes.length
  /-- A name is bound to a symbol of the table that has the name. -/
  named : ∀ p, ∀ b ∈ (t.scope p).bindings,
    b.2.index < t.entries.length ∧ (t.symbol b.2).name = b.1
  /-- A symbol is bound in one scope at most. -/
  unique : ∀ p q, ∀ b ∈ (t.scope p).bindings, ∀ b' ∈ (t.scope q).bindings, b.2 = b'.2 → p = q
  /-- A name is looked up along the parents of the innermost open scope. -/
  outward : t.Outward t.current? t.chain
  /-- The walk outwards ends, from whichever scope. -/
  outermost : ∀ p, ∃ ids, t.Outward p ids
  /-- The walk inwards ends, and it goes through all children of every scope that it meets. -/
  inward : WellFounded fun c p => t.Child p c
  nested : ∀ id, t.nested id = (t.scope id).children.flatMap fun c => c :: t.nested c

theorem Reachable.sound (h : t.Reachable) : t.Sound where
  parent_lt := h.tree.parent_lt
  listed p c hchild := by
    exact List.count_eq_one_of_mem (h.tree.nodup p) ((h.tree.mem_children p c).mpr hchild)
  unlisted p c hother := by
    intro hmem
    exact hother ((h.tree.mem_children p c).mp hmem)
  current id hid := h.tree.chain_lt id (List.mem_of_mem_head? hid)
  named p b hb := ⟨h.bound.lt p b hb, h.named p b hb⟩
  unique := h.bound.unique
  outward := h.outward
  outermost := h.tree.exists_outward
  inward := h.tree.wellFounded_child
  nested := nested_eq h.tree

end

end SymbolTable

end LittleC
