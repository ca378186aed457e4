import LittleC.Proofs.Lowering.Function
import LittleC.Proofs.Registers.Operators

/-! # Registers while trees are lowered

Trees without errors are lowered by careful actions only. So at any time a register holds what the
state says it holds, and an expression leaves no value in a register but older ones and its
result. -/

namespace LittleC

open Lowering (State)

/-! ## Expressions -/

namespace Lowering

open State

section
variable {t : SymbolTable} {s : State}

theorem placing_ident (p : Mem) (n : Nat) : Placing (newValue (.mem p) n) := fun _ hs =>
  (manages_place (.refl hs) (l := .mem p) (fun _ h => nomatch h) n).weaken (Nat.le_refl _)
    fun _ _ h => h.2

theorem yielding_mem (p : Mem) (n : Nat) : Yielding n (newValue (.mem p) n) := fun _ hs =>
  (manages_place (.refl hs) (l := .mem p) (fun _ h => nomatch h) n).weaken (Nat.le_refl _)
    fun _ _ h => h.1

theorem manages_text (literal : String) (n : Nat) (hs : s.Sound) :
    Manages s.nextValue (internText literal >>= fun label => newValue (.mem (.literal label)) n) s
      fun v s' => Result s s' v n ∧ Since s s' [] := by
  refine .act_bind (.internText literal) ?_
  have hsince : Since s (s.interned literal) [] :=
    ⟨evolves_interned hs literal _, (Since.refl hs).occupants⟩
  exact manages_place hsince (l := .mem (.literal ⟨s.nextLabel⟩)) (fun _ h => nomatch h) n

theorem yielding_binary {op : BinaryOp} {n l r : Ty} {a b : Lowering ValueId}
    (h : op.Operands n l r) (ha : Yielding l.size a) (hb : Yielding r.size b) :
    Yielding n.size (op.lower n.size a b) := by
  have hlogical : n = .int ∧ (l.isScalar = true ∧ l ≠ .char) ∧ r.isScalar = true ∧ r ≠ .char →
      ∀ {title skip}, title ≠ "spill" → Yielding n.size (logical title skip n.size a b) := by
    rintro ⟨rfl, ⟨hl, -⟩, hr, -⟩ title skip htitle
    exact yielding_logical htitle (Or.inr (Or.inl rfl)) (Ty.width_size hl) (Ty.width_size hr) ha hb
  cases op with
  | add =>
      have hu := BinaryOp.uniform_of_operands h (by simp)
      exact yielding_arithmetic (by decide) (.inr hu.wide) (hu.leftSize ▸ ha) (hu.rightSize ▸ hb)
  | sub =>
      have hu := BinaryOp.uniform_of_operands h (by simp)
      exact yielding_arithmetic (by decide) (.inr hu.wide) (hu.leftSize ▸ ha) (hu.rightSize ▸ hb)
  | mul =>
      have hu := BinaryOp.uniform_of_operands h (by simp)
      exact yielding_arithmetic (by decide) (.inr hu.wide) (hu.leftSize ▸ ha) (hu.rightSize ▸ hb)
  | div =>
      have hu := BinaryOp.uniform_of_operands h (by simp)
      exact yielding_divide (by decide) (.inl rfl) (.inr hu.wide) (hu.leftSize ▸ ha)
        (hu.rightSize ▸ hb)
  | rem =>
      have hu := BinaryOp.uniform_of_operands h (by simp)
      exact yielding_divide (by decide) (.inr rfl) (.inr hu.wide) (hu.leftSize ▸ ha)
        (hu.rightSize ▸ hb)
  | compare q =>
      obtain ⟨rfl, hl, hr, -, hsize⟩ := h
      exact yielding_compare (Or.inr (Or.inl rfl)) (Ty.width_size hl) ha (hsize ▸ hb)
  | land => exact hlogical h (by decide)
  | lor => exact hlogical h (by decide)

theorem arguments_lowerAll : ∀ (es : List Expr), (∀ e ∈ es, Yielding e.ty.size (e.lower t)) →
    Arguments (Expr.lowerAll t es)
  | [], _ => fun _ hs => .pure (.refl hs)
  | e :: es, h => by
      intro s hs
      refine (h e List.mem_cons_self s hs).bind fun v s₁ h₁ => ?_
      have hrest := arguments_lowerAll es fun e' he' => h e' (List.mem_cons_of_mem _ he')
      refine ((hrest s₁ h₁.sound).weaken h₁.value fun _ _ h => h).bind fun vs s₂ h₂ => .pure ?_
      exact h₁.toSince.trans h₂

/-- Lowering a tree of well-formed nodes uses up everything but its result. -/
theorem yielding_expr : ∀ e : Expr, e.Every (Expr.WellFormed t) → Yielding e.ty.size (e.lower t)
  | .number v i, he => yielding_number (.inr (Ty.IsWide.size (Expr.every_number.mp he).1))
  | .text string i, _ => fun _ hs => (manages_text string _ hs).weaken (Nat.le_refl _)
      fun _ _ h => h.1
  | .ident x i, _ => yielding_mem _ _
  | .call f args i, he => by
      obtain ⟨hnode, hargs⟩ := Expr.every_call.mp he
      have hscalar : i.ty.isScalar = true := by
        rcases hnode.1.isScalar with ⟨_, _, h⟩ | ⟨_, _, h⟩ | h
        · cases h
        · cases h
        · exact h
      exact yielding_call (Ty.width_size hscalar)
        (arguments_lowerAll args fun a ha => yielding_expr a (hargs a ha))
  | .unary .negate e i, he => by
      obtain ⟨⟨⟨hwide, hty⟩, -⟩, hsub⟩ := Expr.every_unary.mp he
      have h := yielding_expr e hsub
      rw [hty] at h
      exact yielding_negate (.inr hwide.size) h
  | .unary .logicalNot e i, he => by
      obtain ⟨⟨⟨hty, hoperand, -⟩, -⟩, hsub⟩ := Expr.every_unary.mp he
      refine yielding_logicalNot ?_ (Ty.width_size hoperand) (yielding_expr e hsub)
      rw [show (Expr.unary .logicalNot e i).ty = .int from hty]
      exact .inr (.inl rfl)
  | .unary .deref e i, he => by
      obtain ⟨⟨⟨hpointer, hty⟩, -⟩, hsub⟩ := Expr.every_unary.mp he
      have h := yielding_expr e hsub
      rw [Ty.size_of_isDataPointer hpointer] at h
      refine yielding_deref ?_ h
      have hscalar : i.ty.isScalar = true := by rw [hty]; rfl
      exact Ty.width_size hscalar
  | .unary .address e i, he => by
      obtain ⟨⟨haddress, -⟩, hnode⟩ := Expr.every_unary.mp he
      have hsize : i.ty.size = 8 := Ty.size_of_isDataPointer haddress.isDataPointer_address
      show Yielding i.ty.size _
      rw [hsize]
      rcases operand_of_address he with ⟨x, j, rfl⟩ | ⟨string, j, rfl⟩ | ⟨p, j, rfl⟩
      · exact yielding_addressOfPlace (placing_ident _ _)
      · exact yielding_addressOfPlace fun _ hs => (manages_text string _ hs).weaken (Nat.le_refl _)
          fun _ _ h => h.2
      · obtain ⟨⟨⟨hpointer, -⟩, -⟩, hsub⟩ := Expr.every_unary.mp hnode
        have h := yielding_expr p hsub
        rw [Ty.size_of_isDataPointer hpointer] at h
        exact yielding_addressOfTarget h
  | .cast e i, he => by
      obtain ⟨⟨hcanonical, -⟩, hsub⟩ := Expr.every_cast.mp he
      obtain ⟨hoperand, hresult⟩ := hcanonical.isScalar_cast
      exact yielding_cast (Ty.width_size hresult) (Ty.width_size hoperand)
        (yielding_expr e hsub)
  | .binary op l r i, he => by
      obtain ⟨⟨hcanonical, -⟩, hl, hr⟩ := Expr.every_binary.mp he
      exact yielding_binary hcanonical (yielding_expr l hl) (yielding_expr r hr)
termination_by e => SizeOf.sizeOf e

/-! ## Statements -/

/-- The action, a statement's, is managed from every sound state to a sound one. -/
def Orderly (a : Lowering Unit) : Prop :=
  ∀ s : State, s.Sound → Manages 0 a s fun _ s' => s'.Sound

section
variable {a b : Lowering Unit} {e v : Lowering ValueId} {n w : Nat} {done : Label}

theorem Orderly.bind {f : Unit → Lowering Unit} (ha : Orderly a) (hf : ∀ u, Orderly (f u)) :
    Orderly (a >>= f) := fun s hs => (ha s hs).bind fun u s' hs' => hf u s' hs'

theorem orderly_release : Orderly release := fun _ _ =>
  .act (.release rfl) (passes_released _).sound

theorem orderly_newLabel {f : Label → Lowering Unit} (hf : ∀ l, Orderly (f l)) :
    Orderly (newLabel >>= f) := fun _ hs => .newLabel_bind (hf _ _ (passes_labelled hs).sound)

theorem orderly_write {l : Line} (hl : l ≠ .note "spill") : Orderly (write l) := fun _ hs =>
  .act (.write hl) hs

theorem orderly_note {text : String} {f : Unit → Lowering Unit} (htext : text ≠ "spill")
    (hf : Orderly (f ())) : Orderly (note text >>= f) := fun s hs => .note_bind htext (hf s hs)

theorem orderly_mark (l : Label) : Orderly (mark l) := orderly_write nofun

theorem orderly_emit (i : Instr) : Orderly (emit i) := orderly_write nofun

theorem Yielding.orderly {f : ValueId → Lowering Unit} (he : Yielding n e)
    (hf : ∀ v s, s.Sound → s.Ready v n → Manages 0 (f v) s fun _ s' => s'.Sound) :
    Orderly (e >>= f) := fun s hs => ((he s hs).weaken (Nat.zero_le _) fun _ _ h => h).bind
  fun v s' h => hf v s' h.sound h.ready

theorem orderly_discardResult (he : Yielding n e) : Orderly (discardResult e) :=
  he.orderly fun v _ hs _ => .act (.unbind (Nat.zero_le _)) (evolves_unbind hs v).sound

theorem orderly_returnTo (hn : Width n) (he : Yielding n e) : Orderly (returnTo done e) :=
  he.orderly fun _ _ hs hv => (manages_load hs hv hn (Nat.zero_le _) .rax).bind fun _ _ h =>
    .emit h.1.sound

theorem orderly_storeNamed {place : Lowering ValueId} (hn : Width n) (hplace : Placing place)
    (hv : Yielding n v) : Orderly (storeNamed n place v) := by
  refine fun s hs => .note_bind (by decide) (((hplace s hs).weaken (Nat.zero_le _)
    fun _ _ h => h).bind fun p s₁ h₁ => ?_)
  refine (hv.orderly (f := fun v => _) fun v s₂ h₂ hready => ?_) s₁ h₁.sound
  refine (manages_inRegister h₂ hready hn (Nat.zero_le _) ⟨.rax, List.not_mem_nil⟩).bind
    fun r s₃ h₃ => .inspect_bind (.emit h₃.shifts.sound)

theorem orderly_store (hn : Width n) {pointer : Lowering ValueId} (hp : Yielding 8 pointer)
    (hv : Yielding n v) : Orderly (store n pointer v) := by
  refine fun s hs => .note_bind (by decide) (((hv s hs).weaken (Nat.zero_le _)
    fun _ _ h => h).bind fun v s₁ h₁ => ?_)
  refine ((hp s₁ h₁.sound).weaken (Nat.zero_le _) fun _ _ h => h).bind fun p s₂ h₂ => ?_
  have hready := h₂.toEvolves.ready h₁.ready.known h₁.ready
  refine (manages_inRegister h₂.sound hready hn (Nat.zero_le _) ⟨.rax, List.not_mem_nil⟩).bind
    fun r s₃ h₃ => ?_
  have hne : p ≠ v := by
    rintro rfl
    exact Nat.not_lt_of_le h₂.fresh h₁.ready.known
  have hexclude : ∃ q, q ∉ [r] := by
    by_cases hr : r = .rax
    · exact ⟨.rdi, by simp [hr]⟩
    · exact ⟨.rax, by simpa using Ne.symm hr⟩
  exact (manages_inRegister h₃.shifts.sound (h₃.shifts.ready hne h₂.ready) (.inr (.inr rfl))
    (Nat.zero_le _) hexclude).bind fun r' s₄ h₄ => .emit h₄.shifts.sound

end

/-- A condition with its branch. -/
theorem orderly_branch {e : Expr} (he : e.Every (Expr.WellFormed t))
    (hscalar : e.ty.isScalar = true) (l : Label) (onTrue : Bool) :
    Orderly (e.branch t l onTrue) := by
  intro s hs
  unfold Expr.branch
  split
  · next q left right i =>
      obtain ⟨⟨hcanonical, -⟩, hleft, hright⟩ := Expr.every_binary.mp he
      obtain ⟨-, hl, hr, -, hsize⟩ := hcanonical
      refine ((manages_comparison (Ty.width_size hl) (yielding_expr left hleft)
        (hsize ▸ yielding_expr right hright) hs).weaken (Nat.zero_le _) fun _ _ h => h).bind
          fun sides s₁ h₁ => ?_
      exact .unbind_bind (Nat.zero_le _) (.emit (evolves_unbind h₁.1.sound _).sound)
  · refine ((yielding_expr e he s hs).weaken (Nat.zero_le _) fun _ _ h => h).bind fun v s₁ h₁ => ?_
    refine (((manages_compareZero h₁ (Ty.width_size hscalar)).weaken (Nat.zero_le _)
      fun _ _ h => h)).bind fun _ s₂ h₂ => .emit h₂.sound

theorem orderly_loop {test : Label → Lowering Unit} {body : Lowering Unit}
    (htest : ∀ l, Orderly (test l)) (hbody : Orderly body) : Orderly (loop test body) :=
  orderly_note (by decide) <| orderly_newLabel fun _ => orderly_newLabel fun exit =>
    orderly_release.bind fun _ => (orderly_mark _).bind fun _ => (htest exit).bind fun _ =>
      hbody.bind fun _ => orderly_release.bind fun _ => (orderly_emit _).bind fun _ =>
        orderly_mark _

theorem orderly_ifThen {test : Label → Lowering Unit} {body : Lowering Unit}
    (htest : ∀ l, Orderly (test l)) (hbody : Orderly body) : Orderly (ifThen test body) :=
  orderly_note (by decide) <| orderly_newLabel fun skip => (htest skip).bind fun _ =>
    hbody.bind fun _ => orderly_mark _

theorem orderly_ifElse {test : Label → Lowering Unit} {body other : Lowering Unit}
    (htest : ∀ l, Orderly (test l)) (hbody : Orderly body) (hother : Orderly other) :
    Orderly (ifElse test body other) :=
  orderly_note (by decide) <| orderly_newLabel fun skip => (htest skip).bind fun _ =>
    hbody.bind fun _ => orderly_newLabel fun _ => (orderly_emit _).bind fun _ =>
      (orderly_mark _).bind fun _ => hother.bind fun _ => orderly_mark _

theorem orderly_all {done : Label} : ∀ ss : List Stmt, (∀ st ∈ ss, Orderly (st.lower t done)) →
    Orderly (Stmt.lowerAll t done ss)
  | [], _ => fun _ hs => .pure hs
  | st :: ss, h => (h st List.mem_cons_self).bind fun _ =>
      orderly_all ss fun st' hst' => h st' (List.mem_cons_of_mem _ hst')

theorem orderly_assign {target value : Expr} {done : Label}
    (htarget : target.Every (Expr.WellFormed t)) (hlvalue : target.lvalue = true)
    (hvalue : value.Every (Expr.WellFormed t)) (hscalar : value.ty.isScalar = true)
    (hsize : value.ty.size = target.ty.size) :
    Orderly ((Stmt.assign target value).lower t done) := by
  have hn : Width target.ty.size := hsize ▸ Ty.width_size hscalar
  have hyields : Yielding target.ty.size (value.lower t) := hsize ▸ yielding_expr value hvalue
  rcases target_of_lvalue htarget.root hlvalue with ⟨x, i, rfl⟩ | ⟨p, i, rfl⟩
  · exact (orderly_storeNamed hn (placing_ident _ _) hyields).bind fun _ => orderly_release
  · obtain ⟨⟨⟨hpointer, -⟩, -⟩, hp⟩ := Expr.every_unary.mp htarget
    have haddress := yielding_expr p hp
    rw [Ty.size_of_isDataPointer hpointer] at haddress
    exact (orderly_store hn haddress hyields).bind fun _ => orderly_release

/-- Accepted statements are lowered by careful actions. -/
theorem orderly_accepted {result : Ty} (hresult : result.isScalar = true) {st : Stmt}
    (h : st.Accepted t result) (done : Label) : Orderly (st.lower t done) := by
  induction h with
  | expr he herror =>
      exact (orderly_discardResult (yielding_expr _ (he.every_wellFormed herror))).bind
        fun _ => orderly_release
  | @assign target value htarget hvalue herror hfault =>
      obtain ⟨hlvalue, hscalar, hsize⟩ := Typing.of_fault_assign htarget herror hfault
      refine orderly_assign (htarget.every_wellFormed herror.1) hlvalue
        ((Expr.Built.converted target.ty hvalue).every_wellFormed ?_) hscalar hsize
      rw [Expr.hasError_convert, herror.2]
  | @ret e he herror hfault =>
      obtain ⟨hscalar, -⟩ := Typing.of_fault_ret hresult herror hfault
      have hvalue := (Expr.Built.converted result he).every_wellFormed
        (by rw [Expr.hasError_convert, herror])
      exact (orderly_returnTo (Ty.width_size hscalar) (yielding_expr _ hvalue)).bind
        fun _ => orderly_release
  | @loop c body hc herror hfault _ ih =>
      have hcondition := hc.test.every_wellFormed ((Expr.hasError_promote c).trans herror)
      exact (orderly_loop (fun exit => orderly_branch hcondition
        (Typing.of_fault_test herror hfault) exit false) ih).bind fun _ => orderly_release
  | @ifThen c body hc herror hfault _ ih =>
      have hcondition := hc.test.every_wellFormed ((Expr.hasError_promote c).trans herror)
      exact (orderly_ifThen (fun skip => orderly_branch hcondition
        (Typing.of_fault_test herror hfault) skip false) ih).bind fun _ => orderly_release
  | @ifElse c body other hc herror hfault _ _ ih ih' =>
      have hcondition := hc.test.every_wellFormed ((Expr.hasError_promote c).trans herror)
      exact (orderly_ifElse (fun skip => orderly_branch hcondition
        (Typing.of_fault_test herror hfault) skip false) ih ih').bind fun _ => orderly_release
  | block scope _ ih => exact (orderly_all _ ih).bind fun _ => orderly_release

end

end Lowering

/-! ## Main statement -/

/-- What lowering an expression from `s` makes of the registers. -/
structure Lowering.Settles (s : State) (l : Lowered ValueId) : Prop where
  /-- A value that a register held is still there, or was saved into a temporary below all that was
  in use. -/
  earlier : ∀ r u, s.pool r = some u →
    (l.state.pool r = some u ∧ l.state.values u = s.values u) ∨
      ∃ offset, l.state.values u = ⟨.mem (.frame offset), (s.values u).size⟩ ∧
        (∀ q, l.state.pool q ≠ some u) ∧ l.state.lowest ≤ offset ∧
        offset + (s.values u).size ≤ s.lowest ∧
        Lowering.saveLine r (s.values u).size offset ∈ l.code
  result : ∀ r, (l.state.values l.result).location = .reg r → l.state.pool r = some l.result
  /-- No operand stays in a register. -/
  occupants : ∀ r u, l.state.pool r = some u → s.pool r = some u ∨ u = l.result

namespace Lowering

open State

theorem settles {a : Lowering ValueId} {s : State} {n : Nat} (ha : Yielding n a) (hs : s.Sound) :
    Settles s (a s) := by
  obtain ⟨hthrough, hresult⟩ := ha s hs
  have hleaves := hthrough.leaves hs
  refine ⟨fun r u hr => ?_, hresult.ready.held, fun r u hr => ?_⟩
  · have hu := hs.known hr
    rcases hleaves.evolves.kept u hu with hkept | ⟨q, offset, hq, hvalue, hfree, hlow, hhigh⟩
    · exact .inl ⟨(hkept.2 r).mpr hr, hkept.1⟩
    · rcases hleaves.stores r u hu hr with hstill | ⟨offset', hvalue', hline⟩
      · exact absurd hstill (hfree r)
      · cases hvalue.symm.trans hvalue'
        exact .inr ⟨offset, hvalue, hfree, hlow, hhigh, hline⟩
  · rcases hresult.occupants r u hr with hu | hu
    · exact .inl (hleaves.evolves.pool_of hu hr)
    · exact .inr (List.mem_singleton.mp hu)

end Lowering

namespace Function

open Lowering (Tracks Settles)

variable {f : Function} {t : SymbolTable}

/-- While an accepted function is lowered, every elementary action leaves a state in which registers
hold what they are said to hold. Every expression, from any such state, leaves older values in place
or saves them, and holds a register for its result only. -/
theorem registers_tracked (hfunction : (t.symbol f.symbol).ty.isFunction = true)
    (hbody : ∀ st ∈ f.body, st.Accepted t (t.symbol f.symbol).ty.result) :
    (∀ (l : Layout) (s : State), Tracks (Stmt.lowerAll t ⟨s.nextLabel⟩ f.body) (bodyStart s l)) ∧
      ∀ e : Expr, e.Built t → e.hasError = false → ∀ s : State, s.Sound →
        Tracks (e.lower t) s ∧ Settles s (e.lower t s) := by
  constructor
  · intro l s
    have hs : (bodyStart s l).Sound := Lowering.State.sound_of_empty fun _ => rfl
    have horderly := Lowering.orderly_all f.body fun st hst =>
      Lowering.orderly_accepted (Ty.isScalar_result hfunction) (hbody st hst) ⟨s.nextLabel⟩
    exact (horderly _ hs).through.tracks hs
  · intro e he herror s hs
    have hyields := Lowering.yielding_expr e (he.every_wellFormed herror)
    exact ⟨(hyields s hs).through.tracks hs, Lowering.settles hyields hs⟩

/-- A quotient of a call, in a function that returns it, lowered while `%rax` is taken. -/
theorem registers_tracked_quotient :
    let t : SymbolTable := ⟨[.fresh "main" (.func .int 0 []), .fresh "g" (.func .int 0 [.int])],
      [], []⟩
    let call := (Typing.call (t.symbol ⟨1⟩).ty ⟨1⟩ [Expr.ofInteger ⟨7, false⟩]).node
    let e := (Typing.binary .div call (Expr.ofInteger ⟨2, false⟩)).node
    let f : Function := ⟨⟨0⟩, ⟨0⟩, [(Typing.ret .int e).node]⟩
    let s := (State.start true).addValue ⟨.reg .rax, 4⟩
    (∀ st ∈ f.body, st.Accepted t .int) ∧ s.Sound ∧ s.pool .rax = some ⟨0⟩ ∧
      Tracks (Stmt.lowerAll t ⟨0⟩ f.body) (bodyStart (.start true) ⟨[], 0⟩) ∧
      Settles s (e.lower t s) := by
  intro t call e f s
  have hcall : call.Built t := .call ⟨1⟩ fun a ha => by
    cases List.mem_singleton.mp ha
    exact .number ⟨7, false⟩
  have he : e.Built t := .binary .div hcall (.number ⟨2, false⟩)
  have hbody : ∀ st ∈ f.body, st.Accepted t .int := by
    intro st hst
    cases List.mem_singleton.mp hst
    exact .ret he rfl rfl
  have hs : s.Sound := by
    have hempty : (State.start true).Sound := Lowering.State.sound_of_empty fun _ => rfl
    exact (Lowering.State.evolves_addValue hempty fun _ _ => ⟨rfl, .inr (.inl rfl)⟩).sound
  obtain ⟨htracks, hsettles⟩ := registers_tracked (f := f) (t := t) rfl hbody
  exact ⟨hbody, hs, rfl, htracks ⟨[], 0⟩ (.start true), (hsettles e he rfl s hs).2⟩

end Function

end LittleC
