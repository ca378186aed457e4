import LittleC.Lowering.Expr
import LittleC.Proofs.Lowering.Condition
import LittleC.Proofs.Typing.Canonical

/-! # Expressions compute what they denote

Every operator finds its operands at the sizes that its code is written for, because every node of a
checked tree is canonical; so the lemmas for single operators chain along the tree. -/

namespace LittleC

/-! ## Plain trees -/

namespace Expr

/-- Not a call, and if it is a number then one of its type. -/
def Plain : Expr → Prop
  | call .. => False
  | number v i => wrap i.ty.size v = v
  | _ => True

/-- A node that lowering gets right. -/
def Regular (t : SymbolTable) (n : Expr) : Prop := n.WellFormed t ∧ n.Plain

end Expr

/-- Every name is where the environment has it. -/
def Scene.Places (S : Scene) (t : SymbolTable) : Prop :=
  ∀ x, S.world.fixed? S.base (t.symbol x).home = some (S.env.place x)

namespace Ty

theorem width_size {t : Ty} (h : t.isScalar = true) : Width t.size := by
  obtain ⟨b, d, rfl⟩ := isScalar_iff.mp h
  exact size_scalar b d

theorem IsWide.size {t : Ty} (h : t.IsWide) : t.size = 4 ∨ t.size = 8 := by
  rcases h with rfl | rfl
  · exact Or.inl rfl
  · exact Or.inr rfl

theorem IsWide.isScalar {t : Ty} (h : t.IsWide) : t.isScalar = true :=
  isScalar_of_isNumeric h.isNumeric

/-- Two operands and a result of one size, which is that of an `int` or a `long`. -/
structure Uniform (n l r : Ty) : Prop where
  wide : n.size = 4 ∨ n.size = 8
  left : l.isScalar = true
  right : r.isScalar = true
  leftSize : l.size = n.size
  rightSize : r.size = n.size

theorem uniform_of_isWide {n l r : Ty} (h : n.IsWide ∧ l = n ∧ r = n) : Uniform n l r := by
  obtain ⟨hn, rfl, rfl⟩ := h
  exact ⟨hn.size, hn.isScalar, hn.isScalar, rfl, rfl⟩

end Ty

/-- The operands of arithmetic have the size of the result. -/
theorem BinaryOp.uniform_of_operands {op : BinaryOp} {n l r : Ty} (h : op.Operands n l r)
    (hop : op = .add ∨ op = .sub ∨ op = .mul ∨ op = .div ∨ op = .rem) : Ty.Uniform n l r := by
  rcases hop with rfl | rfl | rfl | rfl | rfl
  · rcases h with h | ⟨hn, ⟨rfl, rfl⟩ | ⟨rfl, rfl⟩⟩
    · exact Ty.uniform_of_isWide h
    · exact ⟨Or.inr (Ty.size_of_isDataPointer hn), Ty.isScalar_of_isDataPointer hn, rfl, rfl,
        (Ty.size_of_isDataPointer hn).symm⟩
    · exact ⟨Or.inr (Ty.size_of_isDataPointer hn), rfl, Ty.isScalar_of_isDataPointer hn,
        (Ty.size_of_isDataPointer hn).symm, rfl⟩
  · rcases h with h | ⟨hn, rfl, rfl⟩ | ⟨rfl, hl, rfl⟩
    · exact Ty.uniform_of_isWide h
    · exact ⟨Or.inr (Ty.size_of_isDataPointer hn), Ty.isScalar_of_isDataPointer hn, rfl, rfl,
        (Ty.size_of_isDataPointer hn).symm⟩
    · exact ⟨Or.inr rfl, Ty.isScalar_of_isDataPointer hl, Ty.isScalar_of_isDataPointer hl,
        Ty.size_of_isDataPointer hl, Ty.size_of_isDataPointer hl⟩
  · exact Ty.uniform_of_isWide h
  · exact Ty.uniform_of_isWide h
  · exact Ty.uniform_of_isWide h

theorem BinaryOp.isScalar_of_operands {op : BinaryOp} {n l r : Ty} (h : op.Operands n l r) :
    n.isScalar = true := by
  cases op with
  | add =>
      rcases h with ⟨hn, -⟩ | ⟨hn, -⟩
      · exact hn.isScalar
      · exact Ty.isScalar_of_isDataPointer hn
  | sub =>
      rcases h with ⟨hn, -⟩ | ⟨hn, -⟩ | ⟨rfl, -⟩
      · exact hn.isScalar
      · exact Ty.isScalar_of_isDataPointer hn
      · rfl
  | mul => exact h.1.isScalar
  | div => exact h.1.isScalar
  | rem => exact h.1.isScalar
  | compare c => rw [h.1]; rfl
  | land => rw [h.1]; rfl
  | lor => rw [h.1]; rfl

/-- Promoted arrays and addresses are pointers. -/
theorem Expr.Canonical.isDataPointer_address {t : SymbolTable} {e : Expr} {i : Expr.Info}
    (h : (Expr.unary .address e i).Canonical t) : i.ty.isDataPointer = true := by
  rcases h with ⟨harray, hty⟩ | ⟨-, hty⟩
  · rw [hty]
    cases hty : e.ty with
    | array b d n => exact Ty.isDataPointer_iff.mpr ⟨b, d, rfl⟩
    | _ => rw [hty] at harray; cases harray
  · rw [hty]
    exact Ty.isDataPointer_iff.mpr ⟨_, _, rfl⟩

/-- Only names and string literals can be other than single values. -/
theorem Expr.Canonical.isScalar {t : SymbolTable} {n : Expr} (h : n.Canonical t) :
    (∃ x i, n = .ident x i) ∨ (∃ string i, n = .text string i) ∨ n.ty.isScalar = true := by
  cases n with
  | ident x i => exact Or.inl ⟨x, i, rfl⟩
  | text string i => exact Or.inr (Or.inl ⟨string, i, rfl⟩)
  | number v i => exact Or.inr (Or.inr (Ty.IsWide.isScalar h))
  | call f args i =>
      refine Or.inr (Or.inr ?_)
      show i.ty.isScalar = true
      change (t.symbol f).ty.CallTypes (args.map (·.ty)) i.ty at h
      unfold Ty.CallTypes at h
      split at h
      · rw [h.1]; rfl
      · rw [h.1]; rfl
      · cases h
  | unary op e i =>
      refine Or.inr (Or.inr ?_)
      show i.ty.isScalar = true
      cases op with
      | negate => exact h.1.isScalar
      | logicalNot => rw [h.1]; rfl
      | deref => rw [h.2]; rfl
      | address => exact Ty.isScalar_of_isDataPointer h.isDataPointer_address
  | cast e i =>
      exact Or.inr (Or.inr h.isScalar_cast.2)
  | binary op l r i => exact Or.inr (Or.inr (BinaryOp.isScalar_of_operands h))

namespace Lowering

open State

section
variable {S : Scene} {M : Memory} {s : State} {b c k n : Nat} {x : Option Int}

/-! ## Places -/

/-- What an owned place holds is the value of the name for it. -/
theorem evaluates_place {p : Mem} {a : Word} (hp : S.world.fixed? S.base p = some a)
    (hn : n ≤ 8) : Evaluates S M (newValue (.mem p) n) k n 0 (S.env.load M n a) := by
  intro s hs _
  refine does_place (.refl hs) (fun _ h => nomatch h) ?_
  intro m hm hsome
  obtain ⟨y, hy⟩ := Option.isSome_iff_exists.mp hsome
  obtain ⟨howns, hload⟩ := Env.load_eq_some hy
  refine ⟨y, hy, a, hp, fun b hb => hm.apart b (Env.owned_of_covers howns hb), ?_⟩
  rw [Env.load_congr hn hm.memory howns]
  exact hload

/-- The action gives a place whose address is `a`. -/
def Locates (S : Scene) (M : Memory) (place : Lowering ValueId) (k c : Nat) (a : Word) : Prop :=
  ∀ s : State, s.Sound → s.texts.length = k →
    Does S M s.nextValue place s
      (fun v s' => Reached s s' c ∧ ∃ p, (s'.values v).location = .mem p) (fun _ => True)
      (fun v s' _ => ∃ p, (s'.values v).location = .mem p ∧ S.world.fixed? S.base p = some a)

theorem locates_place {p : Mem} {a : Word} (hp : S.world.fixed? S.base p = some a) (n : Nat) :
    Locates S M (newValue (.mem p) n) k 0 a := by
  intro s hs _
  have hfree : ∀ q, Location.mem p = .reg q → s.pool q = none ∧ Width n :=
    fun _ h => nomatch h
  refine Does.newValue hs (Nat.le_refl _) hfree
    ⟨((Reached.refl hs).addValue hfree).toReached, p, ?_⟩ fun _ _ _ => ⟨p, ?_, hp⟩
  · rw [values_addValue]
  · rw [values_addValue]

/-- A state that has met one more string literal. -/
def State.interned (s : State) (literal : String) : State :=
  { s with nextLabel := s.nextLabel + 1, texts := s.texts ++ [(⟨s.nextLabel⟩, literal)] }

theorem State.evolves_interned (hs : s.Sound) (literal : String) (K : ValueId → Prop) :
    Evolves K s (s.interned literal) :=
  ⟨⟨hs.location, hs.width, hs.known⟩, Nat.le_refl _, Nat.le_succ _, Int.le_refl _,
    List.prefix_append _ _, fun v _ => Or.inl (Unmoved.refl s v)⟩

/-- A string literal gets the address that the environment has for it. -/
theorem does_internText (hs : s.Sound) (literal : String) :
    Does S M s.nextValue (internText literal) s (fun _ s' => Reached s s' 1) (fun _ => True)
      (fun l _ _ => S.world.literals l = S.env.text s.texts.length) := by
  have hintern : internText literal s = ⟨⟨s.nextLabel⟩, [], s.interned literal⟩ := rfl
  have hunmoved : ∀ v, Unmoved s (s.interned literal) v := Unmoved.refl s
  have hevolves := evolves_interned hs literal (Before s.nextValue)
  refine ⟨?_, ?_, ?_, ?_⟩
  all_goals rw [hintern]
  · exact hevolves
  · exact labelsIn_nil _ _
  · exact ⟨hevolves, List.length_append⟩
  · intro m _ hfits _
    refine ⟨m, fun _ _ _ => .refl, ?_, hfits.texts _ _ literal List.getElem?_concat_length⟩
    refine Scene.stays_of_state ?_ (fun v _ => hunmoved v) m
    rfl

theorem locates_text (literal : String) (n : Nat) :
    Locates S M (internText literal >>= fun label => newValue (.mem (.literal label)) n) k 1
      (S.env.text k) := by
  intro s hs hk
  refine (does_internText hs literal).bind fun l s1 h1 => ?_
  have hfree : ∀ q, Location.mem (.literal l) = .reg q → s1.pool q = none ∧ Width n :=
    fun _ h => nomatch h
  refine Does.newValue h1.sound h1.value hfree
    ⟨(h1.addValue hfree).toReached, .literal l, by rw [values_addValue]⟩ fun m _ hl => ?_
  refine ⟨.literal l, by rw [values_addValue], ?_⟩
  rw [← hk, ← hl]
  rfl

theorem evaluates_addressOfPlace {place : Lowering ValueId} {a : Word}
    (h : Locates S M place k c a) :
    Evaluates S M (addressOfPlace place) k 8 c (some (signed 8 a)) := by
  intro s hs hk
  have height : Width 8 := Or.inr (Or.inr rfl)
  unfold addressOfPlace
  refine Does.note_bind _ (((h s hs hk).weaken (Nat.le_refl _) (fun _ _ h => h)
    (fun _ _ => trivial) fun _ _ _ _ h => h).bind fun v s1 h1 => Does.inspect_bind ?_)
  obtain ⟨hreached, p, hp⟩ := h1
  have hoperand : (s1.values v).operand = .mem p := by
    unfold Value.operand
    rw [hp]
  rw [hoperand]
  refine (does_takeReg hreached.sound ⟨.rax, List.not_mem_nil⟩ _ _).bind fun r s2 h2 => ?_
  obtain ⟨hshifts, hr, -, -⟩ := h2
  refine Does.emit_bind (Q := fun m => m.regs r = a) hshifts.sound ?_
    (does_result (hreached.shifts hshifts fun _ _ => trivial) hr height
      fun m hm => ⟨_, rfl, by rw [hm]; rfl⟩)
  rintro m hm ⟨_, ⟨q, hq, hfixed⟩, -⟩
  rw [hp] at hq
  cases hq
  rw [← hm.base] at hfixed
  refine ⟨rfl, _, rfl, Scene.stays_set fun u _ hu => ?_, ?_⟩
  · rw [hr] at hu
    cases hu
  · rw [Machine.regs_set_self, merge_full, World.address_of_fixed hfixed]

end

/-! ## Trees -/

section
variable {S : Scene} {t : SymbolTable}

/-- A binary operator computes its result from those of its operands. -/
theorem evaluates_binary {M : Memory} {op : BinaryOp} {n l r : Ty} {a b : Lowering ValueId}
    {k c d : Nat} {x y : Option Int} (h : op.Operands n l r)
    (ha : l.isScalar = true → Evaluates S M a k l.size c x)
    (hb : r.isScalar = true → Evaluates S M b (k + c) r.size d y) :
    Evaluates S M (op.lower n.size a b) k n.size (c + d) (shortCircuit op n.size x y) := by
  have hlogical : n = .int ∧ (l.isScalar = true ∧ l ≠ .char) ∧ r.isScalar = true ∧ r ≠ .char →
      ∀ {title skip}, ((op = .land ∧ skip = .eq) ∨ (op = .lor ∧ skip = .ne)) →
        Evaluates S M (logical title skip n.size a b) k n.size (c + d)
          (shortCircuit op n.size x y) := by
    rintro ⟨rfl, ⟨hl, -⟩, hr, -⟩ title skip hop
    exact evaluates_logical hop (Or.inr (Or.inl rfl)) (Ty.width_size hl) (Ty.width_size hr) (ha hl)
      (hb hr)
  cases op with
  | add =>
      have hu := BinaryOp.uniform_of_operands h (by simp)
      exact evaluates_arithmetic hu.wide (hu.leftSize ▸ ha hu.left) (hu.rightSize ▸ hb hu.right)
  | sub =>
      have hu := BinaryOp.uniform_of_operands h (by simp)
      exact evaluates_arithmetic hu.wide (hu.leftSize ▸ ha hu.left) (hu.rightSize ▸ hb hu.right)
  | mul =>
      have hu := BinaryOp.uniform_of_operands h (by simp)
      exact evaluates_arithmetic hu.wide (hu.leftSize ▸ ha hu.left) (hu.rightSize ▸ hb hu.right)
  | div =>
      have hu := BinaryOp.uniform_of_operands h (by simp)
      exact evaluates_divide (Or.inl ⟨rfl, rfl⟩) hu.wide (hu.leftSize ▸ ha hu.left)
        (hu.rightSize ▸ hb hu.right)
  | rem =>
      have hu := BinaryOp.uniform_of_operands h (by simp)
      exact evaluates_divide (Or.inr ⟨rfl, rfl⟩) hu.wide (hu.leftSize ▸ ha hu.left)
        (hu.rightSize ▸ hb hu.right)
  | compare q =>
      obtain ⟨rfl, hl, hr, -, hsize⟩ := h
      exact evaluates_compare (Or.inr (Or.inl rfl)) (Ty.width_size hl) (ha hl) (hsize ▸ hb hr)
  | land => exact hlogical h (Or.inl ⟨rfl, rfl⟩)
  | lor => exact hlogical h (Or.inr ⟨rfl, rfl⟩)

/-- Addresses are taken of names, string literals and what pointers point to. -/
theorem operand_of_address {e : Expr} {i : Expr.Info}
    (he : (Expr.unary .address e i).Every (Expr.WellFormed t)) :
    (∃ x j, e = .ident x j) ∨ (∃ string j, e = .text string j) ∨
      ∃ p j, e = .unary .deref p j := by
  obtain ⟨⟨haddress, -⟩, hnode⟩ := Expr.every_unary.mp he
  obtain ⟨hcanonical, hplace⟩ := hnode.root
  rcases hcanonical.isScalar with hident | htext | hscalar
  · exact Or.inl hident
  · exact Or.inr (Or.inl htext)
  · rcases haddress with ⟨harray, -⟩ | ⟨hlvalue, -⟩
    · obtain ⟨_, _, hty⟩ := Ty.isScalar_iff.mp hscalar
      rw [hty] at harray
      cases harray
    · rw [hplace] at hlvalue
      cases e with
      | ident x j => exact Or.inl ⟨x, j, rfl⟩
      | unary op p j =>
          cases op with
          | deref => exact Or.inr (Or.inr ⟨p, j, rfl⟩)
          | _ => cases hlvalue
      | _ => cases hlvalue

/-- A regular tree of a single value computes its value at the size of its type. -/
theorem evaluates_expr (M : Memory) (hplaces : S.Places t) :
    ∀ (e : Expr) (k : Nat), e.Every (Expr.Regular t) → e.ty.isScalar = true →
      Evaluates S M (e.lower t) k e.ty.size e.textCount (e.eval S.env M k)
  | .number v i, k, he, _ => by
      obtain ⟨⟨hcanonical, -⟩, hplain⟩ := Expr.every_number.mp he
      exact evaluates_number (Ty.IsWide.size hcanonical) hplain
  | .text string i, k, he, hscalar => by
      obtain ⟨⟨hcanonical, -⟩, -⟩ := Expr.every_text.mp he
      have hty : (Expr.text string i).ty = i.ty := rfl
      rw [hty, hcanonical] at hscalar
      cases hscalar
  | .ident x i, k, _, hscalar => by
      have hvalue : (Expr.ident x i).eval S.env M k = S.env.load M i.ty.size (S.env.place x) :=
        if_pos hscalar
      rw [hvalue]
      exact evaluates_place (hplaces x) (Ty.width_size hscalar).le
  | .call f args i, k, he, _ => by cases (Expr.every_call.mp he).1.2
  | .unary .negate e i, k, he, hscalar => by
      obtain ⟨⟨⟨⟨hwide, hty⟩, -⟩, -⟩, hsub⟩ := Expr.every_unary.mp he
      have h := evaluates_expr M hplaces e k hsub (hty ▸ hscalar)
      rw [hty] at h
      exact evaluates_negate (Ty.width_size hscalar) h
  | .unary .logicalNot e i, k, he, hscalar => by
      obtain ⟨⟨⟨⟨-, hoperand, -⟩, -⟩, -⟩, hsub⟩ := Expr.every_unary.mp he
      exact evaluates_logicalNot (Ty.width_size hscalar) (Ty.width_size hoperand)
        (evaluates_expr M hplaces e k hsub hoperand)
  | .unary .deref e i, k, he, hscalar => by
      obtain ⟨⟨⟨⟨hpointer, -⟩, -⟩, -⟩, hsub⟩ := Expr.every_unary.mp he
      have h := evaluates_expr M hplaces e k hsub (Ty.isScalar_of_isDataPointer hpointer)
      rw [Ty.size_of_isDataPointer hpointer] at h
      exact evaluates_deref (Ty.width_size hscalar) h
  | .unary .address e i, k, he, _ => by
      obtain ⟨⟨⟨haddress, -⟩, -⟩, hnode⟩ := Expr.every_unary.mp he
      have hsize : i.ty.size = 8 := Ty.size_of_isDataPointer haddress.isDataPointer_address
      show Evaluates S M _ k i.ty.size _ _
      rw [hsize]
      rcases operand_of_address (he.imp fun _ h => h.1) with
        ⟨x, j, rfl⟩ | ⟨string, j, rfl⟩ | ⟨p, j, rfl⟩
      · exact evaluates_addressOfPlace (locates_place (hplaces x) j.ty.size)
      · exact evaluates_addressOfPlace (locates_text string j.ty.size)
      · obtain ⟨⟨⟨⟨hpointer, -⟩, -⟩, -⟩, hsub⟩ := Expr.every_unary.mp hnode
        have h := evaluates_expr M hplaces p k hsub (Ty.isScalar_of_isDataPointer hpointer)
        rw [Ty.size_of_isDataPointer hpointer] at h
        exact evaluates_addressOfTarget h
  | .cast e i, k, he, hscalar => by
      obtain ⟨⟨⟨hcanonical, -⟩, -⟩, hsub⟩ := Expr.every_cast.mp he
      obtain ⟨hoperand, -⟩ := hcanonical.isScalar_cast
      exact evaluates_cast (Ty.width_size hscalar) (Ty.width_size hoperand)
        (evaluates_expr M hplaces e k hsub hoperand)
  | .binary op l r i, k, he, _ => by
      obtain ⟨⟨⟨hcanonical, -⟩, -⟩, hl, hr⟩ := Expr.every_binary.mp he
      exact evaluates_binary hcanonical (evaluates_expr M hplaces l k hl)
        (evaluates_expr M hplaces r (k + l.textCount) hr)
termination_by e => SizeOf.sizeOf e

/-- Lowering of expressions is correct. From any state that is sound, with whatever registers taken,
and any machine that agrees with it, the code runs through to its end wherever it stands, the result
is where the state behind it says, and all older values are held still. -/
theorem lower_expr_correct {e : Expr} (hbuilt : e.Built t) (herror : e.hasError = false)
    (hplain : e.Every Expr.Plain) (hscalar : e.ty.isScalar = true) (hplaces : S.Places t)
    {M : Memory} {s : State} {m : Machine} {x : Int} (hs : s.Sound) (hm : S.Agrees M s m)
    (hfits : S.Fits (e.lower t s).state) (hx : e.eval S.env M s.texts.length = some x) :
    (e.lower t s).state.Sound ∧ ∃ m',
      (∀ code i, Placed code i s.nextLabel (e.lower t s).code →
        S.world.Steps code (i, m) (i + (e.lower t s).code.length, m')) ∧
      S.Holds (e.lower t s).state m' (e.lower t s).result e.ty.size x ∧
      (∀ v n y, v.index < s.nextValue → n ≤ 8 → S.Holds s m v n y →
        S.Holds (e.lower t s).state m' v n y) ∧
      m'.base = m.base ∧ m'.stack = m.stack ∧
      ∀ b, ¬Zone S.base (e.lower t s).state.lowest s.lowest b → m'.memory b = m.memory b := by
  have hregular : e.Every (Expr.Regular t) := (hbuilt.every_wellFormed herror).and hplain
  have hdoes := evaluates_expr M hplaces e s.texts.length hregular hscalar s hs rfl
  obtain ⟨m', hrun, hstays, y, hy, hholds⟩ := hdoes.runs m hm hfits (by rw [hx]; rfl)
  cases hx.symm.trans hy
  exact ⟨hdoes.evolves.sound, m', hrun, hholds, hstays.holds, hstays.base, hstays.stack,
    hstays.memory⟩

/-- The tree of `x - 1` over a global number, in an empty frame. -/
theorem lower_expr_correct_sub :
    let t : SymbolTable := ⟨[.fresh "x" .int], [], []⟩
    let e := (Typing.binary .sub (Expr.ofSymbol t ⟨0⟩) (Expr.ofInteger ⟨1, false⟩)).node
    let S : Scene := ⟨⟨fun _ => 4096, fun _ => 0, fun _ _ => none⟩,
      ⟨fun _ => 4096, fun _ => 0, fun b => Covers 4096 4 b⟩, 65536, 0⟩
    let m : Machine := ⟨fun _ => 0, 65536, 65536, fun _ => 0, none⟩
    e.Every Expr.Plain ∧ S.Places t ∧ S.Agrees (fun _ => 0) (.start true) m ∧
      ∃ m', S.world.Steps (e.lower t (.start true)).code (0, m)
          ((e.lower t (.start true)).code.length, m') ∧
        S.Holds (e.lower t (.start true)).state m' (e.lower t (.start true)).result 4 (-1) := by
  intro t e S m
  have hbuilt : e.Built t := .binary .sub (.ident ⟨0⟩) (.number ⟨1, false⟩)
  have herror : e.hasError = false := rfl
  have hplain : e.Every Expr.Plain :=
    Expr.every_binary.mpr ⟨trivial, Expr.every_ident.mpr trivial, Expr.every_number.mpr rfl⟩
  have hplaces : S.Places t := by
    rintro ⟨_ | x⟩
    · rfl
    · rfl
  have hs : (State.start true).Sound := sound_of_empty fun _ => rfl
  have hm : S.Agrees (fun _ => 0) (.start true) m := by
    refine ⟨rfl, fun _ _ => rfl, ?_, by decide⟩
    rintro b - ⟨o, hlo, hhi, -⟩
    exact absurd hhi (Int.not_lt.mpr hlo)
  have hfits : S.Fits (e.lower t (.start true)).state :=
    ⟨by decide, fun k l string h => by cases h⟩
  have hx : e.eval S.env (fun _ => 0) 0 = some (-1) := by decide
  have hplaced : Placed (e.lower t (.start true)).code 0 0 (e.lower t (.start true)).code :=
    ⟨[], [], by rw [List.nil_append, List.append_nil], rfl, fun _ h => absurd h List.not_mem_nil⟩
  obtain ⟨-, m', hrun, hholds, -⟩ :=
    lower_expr_correct hbuilt herror hplain rfl hplaces hs hm hfits hx
  have hsteps := hrun _ _ hplaced
  rw [Nat.zero_add] at hsteps
  exact ⟨hplain, hplaces, hm, m', hsteps, hholds⟩

end

end Lowering

end LittleC
