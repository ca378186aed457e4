import LittleC.Proofs.Frame.Program
import LittleC.Proofs.Labels.Operators
import LittleC.Proofs.Lowering.Function

/-! # String literals of a program

Which texts lowering adds, told by the trees: one for every string literal, in the order in which
the literals are lowered, under the label that the value of the literal refers to. -/

namespace LittleC

open Lowering (State)

/-- The constant data that a value refers to. -/
def Lowered.literal? (x : Lowered ValueId) : Option Label :=
  match (x.state.values x.result).location with
  | .mem (.literal l) => some l
  | _ => none

/-! ## Literals of trees -/

/-- Literals with their labels, by the state that lowering starts from. -/
def Lowering.Texts : Type := State → List (Label × String)

/-- What the first action adds, then what is added once it has run. -/
def Lowering.Texts.andThen {α : Type} (w : Texts) (a : Lowering α) (w' : Texts) : Texts :=
  fun s => w s ++ w' (a s).state

/-- What is added once the action has run, which adds nothing itself. -/
def Lowering.Texts.behind {α : Type} (a : Lowering α) (w : α → Texts) : Texts :=
  fun s => w (a s).result (a s).state

open Lowering (Texts)

/-- The literals of two operands. Between those of a logical operator the left one is tested. -/
def BinaryOp.interned (op : BinaryOp) (left : Lowering ValueId) (w w' : Texts) : Texts :=
  match op with
  | .land | .lor =>
    .behind Lowering.spillAll fun _ => .behind Lowering.newLabel fun _ =>
      w.andThen (left >>= Lowering.compareZero) w'
  | _ => w.andThen left w'

namespace Expr

mutual
/-- The string literals of an expression, each under the label that its value refers to. -/
def interned (t : SymbolTable) : Expr → Texts
  | number .. | ident .. => fun _ => []
  | text s i => fun σ => (((text s i).lower t σ).literal?.map fun l => (l, s)).toList
  | call _ args _ => internedAll t args
  | unary _ e _ | cast e _ => e.interned t
  | binary op l r _ => op.interned (l.lower t) (l.interned t) (r.interned t)

def internedAll (t : SymbolTable) : List Expr → Texts
  | [] => fun _ => []
  | e :: es => (e.interned t).andThen (e.lower t) (internedAll t es)
end

/-- The string literals of a condition. -/
def internedBranch (t : SymbolTable) : Expr → Texts
  | binary (.compare _) l r _ => (l.interned t).andThen (l.lower t) (r.interned t)
  | e => e.interned t

mutual
/-- The string literals of an expression in the order in which they are lowered. -/
def strings : Expr → List String
  | number .. | ident .. => []
  | text s _ => [s]
  | call _ args _ => stringsAll args
  | unary _ e _ | cast e _ => e.strings
  | binary _ l r _ => l.strings ++ r.strings

def stringsAll : List Expr → List String
  | [] => []
  | e :: es => e.strings ++ stringsAll es
end

end Expr

namespace Stmt

/-- What is stored through a pointer is lowered before the pointer, and a named place before what is
stored there. -/
def internedAssign (t : SymbolTable) : Expr → Expr → Texts
  | .unary .deref p _, value => (value.interned t).andThen (value.lower t) (p.interned t)
  | place, value => (place.interned t).andThen (place.lower t) (value.interned t)

mutual
/-- The string literals of a statement, each under the label that its value refers to. -/
def interned (t : SymbolTable) (done : Label) : Stmt → Texts
  | expr e | ret e => e.interned t
  | assign place value => internedAssign t place value
  | loop c body =>
    .behind Lowering.newLabel fun _ => .behind Lowering.newLabel fun exit =>
      .behind Lowering.release fun _ =>
        (c.internedBranch t).andThen (c.branch t exit false) (body.interned t done)
  | ifThen c body =>
    .behind Lowering.newLabel fun skip =>
      (c.internedBranch t).andThen (c.branch t skip false) (body.interned t done)
  | ifElse c body other =>
    .behind Lowering.newLabel fun skip =>
      (c.internedBranch t).andThen (c.branch t skip false) <|
        (body.interned t done).andThen (body.lower t done) <|
          .behind Lowering.newLabel fun _ => other.interned t done
  | block _ body => internedAll t done body

def internedAll (t : SymbolTable) (done : Label) : List Stmt → Texts
  | [] => fun _ => []
  | st :: ss => (st.interned t done).andThen (st.lower t done) (internedAll t done ss)
end

def stringsAssign : Expr → Expr → List String
  | .unary .deref p _, value => value.strings ++ p.strings
  | place, value => place.strings ++ value.strings

mutual
/-- The string literals of a statement in the order in which they are lowered. -/
def strings : Stmt → List String
  | expr e | ret e => e.strings
  | assign place value => stringsAssign place value
  | loop c body | ifThen c body => c.strings ++ body.strings
  | ifElse c body other => c.strings ++ body.strings ++ other.strings
  | block _ body => stringsAll body

def stringsAll : List Stmt → List String
  | [] => []
  | st :: ss => st.strings ++ stringsAll ss
end

end Stmt

namespace Function

def strings (f : Function) : List String := Stmt.stringsAll f.body

def interned (t : SymbolTable) (l : Layout) (f : Function) : Texts := fun s =>
  Stmt.internedAll t ⟨s.nextLabel⟩ f.body (bodyStart s l)

/-- The string literals of functions that are lowered one after the other. -/
def internedAll (t : SymbolTable) : List (Function × Layout) → Texts
  | [] => fun _ => []
  | (f, l) :: rest => fun s => f.interned t l s ++ internedAll t rest (f.lower t l s).2

end Function

/-! ## Actions that add no text -/

namespace Lowering

def Silent {α : Type} (a : Lowering α) : Prop := ∀ s, (a s).state.texts = s.texts

section
variable {α β : Type}

theorem Silent.bind {a : Lowering α} {f : α → Lowering β} (ha : Silent a) (hf : ∀ x, Silent (f x)) :
    Silent (a >>= f) := fun s => (hf (a s).result (a s).state).trans (ha s)

theorem silent_pure (x : α) : Silent (pure x) := fun _ => rfl

theorem silent_inspect (f : State → α) : Silent (inspect f) := fun _ => rfl

theorem silent_write (l : Line) : Silent (write l) := fun _ => rfl

theorem silent_note (text : String) : Silent (note text) := by
  refine (silent_inspect _).bind fun on => ?_
  split
  · exact silent_write _
  · exact silent_pure _

theorem silent_emit (i : Instr) : Silent (emit i) := silent_write (.instr i)

theorem silent_newLabel : Silent newLabel := fun _ => rfl

theorem silent_newValue (l : Location) (size : Nat) : Silent (newValue l size) := fun s =>
  (s.rest_addValue ⟨l, size⟩).2.2.1

theorem silent_unbind (v : ValueId) : Silent (unbind v) := fun s => by
  show (s.unbind v).texts = s.texts
  rw [State.unbind_eq]

theorem silent_release : Silent release := fun _ => rfl

theorem silent_evict (r : Reg) : Silent (evict r) := by
  refine (silent_inspect _).bind fun v => ?_
  cases v with
  | none => exact silent_pure ()
  | some v =>
      have hlowest : ∀ offset, Silent (update fun s => { s with lowest := offset }) :=
        fun _ _ => rfl
      have hmoved : ∀ offset, Silent
          (update fun s => (s.setLocation v (.mem (.frame offset))).hold r none) := fun _ _ => rfl
      exact (silent_inspect _).bind fun size => (silent_inspect _).bind fun offset =>
        (hlowest offset).bind fun _ => (silent_emit _).bind fun _ =>
          (silent_note _).bind fun _ => hmoved offset

theorem silent_takeReg (exclude : List Reg) : Silent (takeReg exclude) := by
  refine (silent_inspect _).bind fun r => ?_
  cases r with
  | some r => exact silent_pure r
  | none => exact (silent_inspect _).bind fun r => (silent_evict r).bind fun _ => silent_pure r

theorem silent_load (v : ValueId) (r : Reg) : Silent (load v r) := by
  refine (silent_inspect _).bind fun held => ?_
  split
  · exact silent_pure ()
  · refine (silent_evict r).bind fun _ => (silent_inspect _).bind fun size =>
      (silent_inspect _).bind fun source => (silent_emit _).bind fun _ s => ?_
    show (s.assign v r).texts = s.texts
    rw [State.assign_eq]

theorem silent_fetch (v : ValueId) (exclude : List Reg) : Silent (fetch v exclude) :=
  (silent_takeReg exclude).bind fun r => (silent_load v r).bind fun _ => silent_pure r

theorem silent_inRegister (v : ValueId) (exclude : List Reg) : Silent (inRegister v exclude) := by
  refine (silent_inspect _).bind fun value => ?_
  split
  · split
    · exact silent_fetch v exclude
    · exact silent_pure _
  · exact silent_fetch v exclude

theorem silent_forM_evict : ∀ rs : List Reg, Silent (rs.forM evict)
  | [] => silent_pure ()
  | r :: rs => (silent_evict r).bind fun _ => silent_forM_evict rs

theorem silent_rebind (v : ValueId) (r : Reg) (size : Nat) : Silent (rebind v r size) :=
  (silent_unbind v).bind fun _ => silent_newValue _ _

theorem silent_materialize (c : Comparison) (r : Reg) : Silent (materialize c r) :=
  (silent_emit _).bind fun _ => silent_emit _

theorem silent_compareZero (v : ValueId) : Silent (compareZero v) :=
  (silent_inspect _).bind fun _ => (silent_inRegister v []).bind fun _ =>
    (silent_emit _).bind fun _ => silent_unbind v

theorem silent_number (value : Int) (size : Nat) : Silent (number value size) := by
  unfold number
  split
  · exact silent_newValue _ _
  · exact (silent_takeReg []).bind fun _ => (silent_emit _).bind fun _ => silent_newValue _ _

theorem silent_passArg (index : Nat) (v : ValueId) : Silent (passArg index v) := by
  refine (silent_inspect _).bind fun value => ?_
  split
  · exact silent_emit _
  · split
    · exact silent_emit _
    · exact (silent_emit _).bind fun _ => silent_emit _

theorem silent_passArgs : ∀ (index : Nat) (vs : List ValueId), Silent (passArgs index vs)
  | _, [] => silent_pure ()
  | index, v :: vs => (silent_passArgs (index + 1) vs).bind fun _ => silent_passArg index v

/-- An instruction that some calls need. -/
theorem silent_optional {c : Prop} [Decidable c] {i : Instr} {f : Unit → Lowering α}
    (hf : Silent (f ())) : Silent (if c then emit i >>= f else f ()) := by
  split
  · exact (silent_emit i).bind fun _ => hf
  · exact hf

/-! ## Actions that add the literals of trees -/

def Interns (a : Lowering α) (w : Texts) : Prop := ∀ s, (a s).state.texts = s.texts ++ w s

variable {a : Lowering α} {f : α → Lowering β} {w w' : Texts}

theorem Silent.interns (h : Silent a) : Interns a fun _ => [] :=
  fun s => (h s).trans (List.append_nil _).symm

theorem Interns.bind (ha : Interns a w) (hf : ∀ x, Interns (f x) w') :
    Interns (a >>= f) (w.andThen a w') := fun s =>
  (hf _ _).trans ((congrArg (· ++ w' (a s).state) (ha s)).trans (List.append_assoc ..))

theorem Interns.bind_silent (ha : Interns a w) (hf : ∀ x, Silent (f x)) : Interns (a >>= f) w :=
  fun s => (hf _ _).trans (ha s)

theorem Silent.behind {w : α → Texts} (ha : Silent a) (hf : ∀ x, Interns (f x) (w x)) :
    Interns (a >>= f) (.behind a w) := fun s => (hf _ _).trans (congrArg (· ++ _) (ha s))

/-- Lines do not change the state. -/
theorem interns_write {f : Unit → Lowering β} (l : Line) (hf : Interns (f ()) w) :
    Interns (write l >>= f) w := hf

theorem interns_note {f : Unit → Lowering β} (text : String) (hf : Interns (f ()) w) :
    Interns (note text >>= f) w := fun s => by
  rw [note_bind_apply]
  exact hf s

end

section
variable {operand left right : Lowering ValueId} {w w' : Texts}

theorem interns_negate (size : Nat) (h : Interns operand w) : Interns (negate size operand) w :=
  interns_note _ <| h.bind_silent fun v => (silent_inRegister v []).bind fun r =>
    (silent_emit _).bind fun _ => silent_rebind v r size

theorem interns_logicalNot (size : Nat) (h : Interns operand w) :
    Interns (logicalNot size operand) w :=
  interns_note _ <| h.bind_silent fun v => (silent_inspect _).bind fun _ =>
    (silent_inRegister v []).bind fun r => (silent_emit _).bind fun _ =>
      (silent_materialize _ r).bind fun _ => silent_rebind v r size

theorem interns_deref (size : Nat) (h : Interns operand w) : Interns (deref size operand) w :=
  interns_note _ <| h.bind_silent fun v => (silent_inRegister v []).bind fun r =>
    (silent_emit _).bind fun _ => silent_rebind v r size

theorem interns_addressOfTarget (h : Interns operand w) : Interns (addressOfTarget operand) w :=
  interns_note _ <| h.bind_silent fun v => (silent_inRegister v []).bind fun r =>
    silent_rebind v r _

theorem interns_addressOfPlace (h : Interns operand w) : Interns (addressOfPlace operand) w :=
  interns_note _ <| h.bind_silent fun _ => (silent_inspect _).bind fun _ =>
    (silent_takeReg []).bind fun _ => (silent_emit _).bind fun _ => silent_newValue _ _

theorem interns_cast (size : Nat) (h : Interns operand w) : Interns (cast size operand) w := by
  refine h.bind_silent fun v => (silent_inspect _).bind fun source => ?_
  split
  · exact silent_pure v
  · refine (silent_note _).bind fun _ => (silent_inRegister v []).bind fun r => ?_
    split <;> exact (silent_emit _).bind fun _ => silent_rebind v r size

theorem interns_arithmetic (op : AluOp) (title : String) (size : Nat) (hl : Interns left w)
    (hr : Interns right w') : Interns (arithmetic op title size left right) (w.andThen left w') :=
  interns_note _ <| hl.bind fun l => hr.bind_silent fun r => (silent_inRegister l []).bind fun _ =>
    (silent_inspect _).bind fun _ => (silent_emit _).bind fun _ => (silent_unbind r).bind fun _ =>
      silent_rebind l _ size

theorem interns_divide (title : String) (result : Reg) (size : Nat) (hl : Interns left w)
    (hr : Interns right w') : Interns (divide title result size left right) (w.andThen left w') :=
  interns_note _ <| hl.bind fun l => hr.bind_silent fun r => (silent_load l _).bind fun _ =>
    (silent_evict _).bind fun _ => (silent_load r _).bind fun _ => (silent_emit _).bind fun _ =>
      (silent_emit _).bind fun _ => (silent_unbind r).bind fun _ => (silent_unbind l).bind fun _ =>
        silent_newValue _ _

theorem interns_comparison (hl : Interns left w) (hr : Interns right w') :
    Interns (comparison left right) (w.andThen left w') :=
  hl.bind fun l => hr.bind_silent fun _ => (silent_inspect _).bind fun _ =>
    (silent_inRegister l []).bind fun _ => (silent_inspect _).bind fun _ =>
      (silent_emit _).bind fun _ => (silent_unbind l).bind fun _ => silent_pure _

theorem interns_compare (c : Comparison) (size : Nat) (hl : Interns left w)
    (hr : Interns right w') : Interns (compare c size left right) (w.andThen left w') :=
  interns_note _ <| (interns_comparison hl hr).bind_silent fun sides =>
    (silent_materialize c sides.1).bind fun _ => (silent_unbind sides.2).bind fun _ =>
      silent_newValue _ _

theorem interns_logical (title : String) (skip : Comparison) (size : Nat) (hl : Interns left w)
    (hr : Interns right w') : Interns (logical title skip size left right)
      (.behind spillAll fun _ => .behind newLabel fun _ =>
        w.andThen (left >>= compareZero) w') := by
  refine interns_note _ <| (silent_forM_evict Reg.all).behind fun _ => silent_newLabel.behind
    fun merge => ?_
  rw [← bind_assoc]
  exact (hl.bind_silent silent_compareZero).bind fun _ => interns_write _ <|
    hr.bind_silent fun r => (silent_compareZero r).bind fun _ => (silent_write _).bind fun _ =>
      (silent_takeReg []).bind fun _ => (silent_materialize _ _).bind fun _ => silent_newValue _ _

theorem interns_call (callee : Symbol) (size : Nat) {args : Lowering (List ValueId)}
    (h : Interns args w) : Interns (call callee size args) w :=
  interns_note _ <| h.bind_silent fun values => (silent_forM_evict Reg.all).bind fun _ =>
    silent_optional <| (silent_passArgs 0 values).bind fun _ => silent_optional <|
      (silent_emit _).bind fun _ => silent_optional <| silent_newValue _ _

end

end Lowering

theorem BinaryOp.interns_lower (op : BinaryOp) (size : Nat) {left right : Lowering ValueId}
    {w w' : Texts} (hl : left.Interns w) (hr : right.Interns w') :
    (op.lower size left right).Interns (op.interned left w w') := by
  cases op with
  | add | sub | mul => exact Lowering.interns_arithmetic _ _ size hl hr
  | div | rem => exact Lowering.interns_divide _ _ size hl hr
  | compare c => exact Lowering.interns_compare c size hl hr
  | land | lor => exact Lowering.interns_logical _ _ size hl hr

/-! ## Trees -/

namespace Expr

variable {t : SymbolTable}

theorem interns_lowerAll : ∀ es : List Expr, (∀ e ∈ es, (e.lower t).Interns (e.interned t)) →
    (lowerAll t es).Interns (internedAll t es)
  | [], _ => (Lowering.silent_pure []).interns
  | e :: es, h => (h e List.mem_cons_self).bind fun _ =>
      (interns_lowerAll es fun e' he => h e' (List.mem_cons_of_mem _ he)).bind_silent fun _ =>
        Lowering.silent_pure _

/-- The value of a literal refers to the next label. -/
theorem literal?_text (s : String) (i : Info) (σ : State) :
    ((text s i).lower t σ).literal? = some ⟨σ.nextLabel⟩ := by
  let x := (text s i).lower t σ
  have hvalue : x.state.values x.result = ⟨.mem (.literal ⟨σ.nextLabel⟩), i.ty.size⟩ := if_pos rfl
  rw [Lowered.literal?, hvalue]

theorem interned_text (s : String) (i : Info) (σ : State) :
    (text s i).interned t σ = [(⟨σ.nextLabel⟩, s)] := by
  show ((((text s i).lower t σ).literal?).map fun l => (l, s)).toList = _
  rw [literal?_text]
  rfl

/-- The label that the value of a literal refers to is the one that its text is added under. -/
theorem interns_text (s : String) (i : Info) :
    ((text s i).lower t).Interns ((text s i).interned t) := fun σ => by
  rw [interned_text]
  rfl

theorem interns_lower : ∀ e : Expr, (e.lower t).Interns (e.interned t)
  | number v _ => (Lowering.silent_number v _).interns
  | text s i => interns_text s i
  | ident .. => (Lowering.silent_newValue _ _).interns
  | call f args _ =>
      Lowering.interns_call _ _ (interns_lowerAll args fun e _ => interns_lower e)
  | unary .negate e _ => Lowering.interns_negate _ (interns_lower e)
  | unary .logicalNot e _ => Lowering.interns_logicalNot _ (interns_lower e)
  | unary .deref e _ => Lowering.interns_deref _ (interns_lower e)
  | unary .address (unary .deref p _) _ => Lowering.interns_addressOfTarget (interns_lower p)
  | unary .address (number ..) _ | unary .address (text ..) _ | unary .address (ident ..) _
  | unary .address (call ..) _ | unary .address (cast ..) _ | unary .address (binary ..) _
  | unary .address (unary .negate ..) _ | unary .address (unary .logicalNot ..) _
  | unary .address (unary .address ..) _ => Lowering.interns_addressOfPlace (interns_lower _)
  | cast e _ => Lowering.interns_cast _ (interns_lower e)
  | binary op l r _ => op.interns_lower _ (interns_lower l) (interns_lower r)
termination_by e => SizeOf.sizeOf e

theorem interns_branch (e : Expr) (label : Label) (onTrue : Bool) :
    (e.branch t label onTrue).Interns (e.internedBranch t) := by
  unfold branch
  split
  · exact (Lowering.interns_comparison (interns_lower _) (interns_lower _)).bind_silent fun sides =>
      (Lowering.silent_unbind sides.2).bind fun _ => Lowering.silent_emit _
  · next h =>
    have hplain : e.internedBranch t = e.interned t := by
      unfold internedBranch
      split
      · exact absurd rfl (h _ _ _ _)
      · rfl
    rw [hplain]
    exact (interns_lower e).bind_silent fun v => (Lowering.silent_compareZero v).bind fun _ =>
      Lowering.silent_emit _

end Expr

namespace Lowering

variable {left right : Lowering ValueId} {w w' : Texts}

theorem interns_store (size : Nat) (hl : Interns left w) (hr : Interns right w') :
    Interns (store size left right) (w'.andThen right w) :=
  interns_note _ <| hr.bind fun v => hl.bind_silent fun p =>
    (silent_inRegister v []).bind fun source =>
      (silent_inRegister p [source]).bind fun _ => silent_emit _

theorem interns_storeNamed (size : Nat) (hl : Interns left w) (hr : Interns right w') :
    Interns (storeNamed size left right) (w.andThen left w') :=
  interns_note _ <| hl.bind fun _ => hr.bind_silent fun v => (silent_inRegister v []).bind fun _ =>
    (silent_inspect _).bind fun _ => silent_emit _

theorem interns_discardResult (h : Interns left w) : Interns (discardResult left) w :=
  h.bind_silent silent_unbind

theorem interns_returnTo (label : Label) (h : Interns left w) : Interns (returnTo label left) w :=
  h.bind_silent fun v => (silent_load v .rax).bind fun _ => silent_emit _

section
variable {front : Label → Lowering Unit} {body other : Lowering Unit} {v : Texts}

theorem interns_loop (hfront : ∀ l, Interns (front l) v) (hbody : Interns body w) :
    Interns (loop front body) (.behind newLabel fun _ => .behind newLabel fun exit =>
      .behind release fun _ => v.andThen (front exit) w) :=
  interns_note _ <| silent_newLabel.behind fun _ => silent_newLabel.behind fun exit =>
    silent_release.behind fun _ => interns_write _ <| (hfront exit).bind fun _ =>
      hbody.bind_silent fun _ => silent_release.bind fun _ => (silent_emit _).bind fun _ =>
        silent_write _

theorem interns_ifThen (hfront : ∀ l, Interns (front l) v) (hbody : Interns body w) :
    Interns (ifThen front body) (.behind newLabel fun skip => v.andThen (front skip) w) :=
  interns_note _ <| silent_newLabel.behind fun skip => (hfront skip).bind fun _ =>
    hbody.bind_silent fun _ => silent_write _

theorem interns_ifElse (hfront : ∀ l, Interns (front l) v) (hbody : Interns body w)
    (hother : Interns other w') :
    Interns (ifElse front body other) (.behind newLabel fun skip =>
      v.andThen (front skip) <| w.andThen body <| .behind newLabel fun _ => w') :=
  interns_note _ <| silent_newLabel.behind fun skip => (hfront skip).bind fun _ =>
    hbody.bind fun _ => silent_newLabel.behind fun _ => interns_write _ <| interns_write _ <|
      hother.bind_silent fun _ => silent_write _

end

end Lowering

namespace Stmt

variable {t : SymbolTable} {done : Label}

theorem interns_assign (value : Expr) : ∀ target : Expr,
    ((assign target value).lower t done).Interns (internedAssign t target value)
  | .unary .deref p _ => (Lowering.interns_store _ p.interns_lower value.interns_lower).bind_silent
      fun _ => Lowering.silent_release
  | .number .. | .text .. | .ident .. | .call .. | .cast .. | .binary .. | .unary .negate _ _
  | .unary .logicalNot _ _ | .unary .address _ _ =>
      (Lowering.interns_storeNamed _ (Expr.interns_lower _) value.interns_lower).bind_silent
        fun _ => Lowering.silent_release

mutual
theorem interns_lower : ∀ st : Stmt, (st.lower t done).Interns (st.interned t done)
  | expr e => (Lowering.interns_discardResult e.interns_lower).bind_silent fun _ =>
      Lowering.silent_release
  | assign target value => interns_assign value target
  | ret e => (Lowering.interns_returnTo done e.interns_lower).bind_silent fun _ =>
      Lowering.silent_release
  | loop c body => (Lowering.interns_loop (fun l => c.interns_branch l false)
      (interns_lower body)).bind_silent fun _ => Lowering.silent_release
  | ifThen c body => (Lowering.interns_ifThen (fun l => c.interns_branch l false)
      (interns_lower body)).bind_silent fun _ => Lowering.silent_release
  | ifElse c body other => (Lowering.interns_ifElse (fun l => c.interns_branch l false)
      (interns_lower body) (interns_lower other)).bind_silent fun _ => Lowering.silent_release
  | block _ body => (interns_lowerAll body).bind_silent fun _ => Lowering.silent_release

theorem interns_lowerAll : ∀ ss : List Stmt, (lowerAll t done ss).Interns (internedAll t done ss)
  | [] => (Lowering.silent_pure ()).interns
  | st :: ss => (interns_lower st).bind fun _ => interns_lowerAll ss
end

end Stmt

/-- Lowering functions adds their string literals, and nothing else, to the texts. -/
theorem Function.texts_lowerAll {t : SymbolTable} : ∀ (fs : List (Function × Layout)) (s : State),
    (lowerAll t fs s).2.texts = s.texts ++ internedAll t fs s
  | [], s => (List.append_nil _).symm
  | (f, l) :: rest, s => by
      have hbody : (f.lower t l s).2.texts = s.texts ++ f.interned t l s :=
        Stmt.interns_lowerAll f.body (bodyStart s l)
      show (lowerAll t rest (f.lower t l s).2).2.texts = _
      rw [texts_lowerAll rest, hbody, List.append_assoc]
      rfl

/-! ## No literal is left out -/

namespace Lowering.Texts

/-- Which texts stand there does not depend on the state. -/
def Say (w : Texts) (strings : List String) : Prop := ∀ s, (w s).map (·.2) = strings

variable {w w' : Texts} {strings strings' : List String} {α : Type}

theorem Say.andThen (a : Lowering α) (h : w.Say strings) (h' : w'.Say strings') :
    (w.andThen a w').Say (strings ++ strings') := fun s => by
  rw [Texts.andThen, List.map_append, h s, h' (a s).state]

theorem Say.behind (a : Lowering α) {w : α → Texts} (h : ∀ x, (w x).Say strings) :
    Say (.behind a w) strings := fun s => h (a s).result (a s).state

theorem say_interned {left : Lowering ValueId} (op : BinaryOp) (h : w.Say strings)
    (h' : w'.Say strings') : (op.interned left w w').Say (strings ++ strings') := by
  cases op with
  | land | lor => exact .behind _ fun _ => .behind _ fun _ => h.andThen _ h'
  | _ => exact h.andThen _ h'

end Lowering.Texts

section
variable {t : SymbolTable} {done : Label}

namespace Expr

mutual
theorem say_interned : ∀ e : Expr, (e.interned t).Say e.strings
  | number .. | ident .. => fun _ => rfl
  | text s i => fun σ => by
      rw [interned_text]
      rfl
  | call _ args _ => say_internedAll args
  | unary _ e _ | cast e _ => say_interned e
  | binary op l r _ => Texts.say_interned op (say_interned l) (say_interned r)

theorem say_internedAll : ∀ es : List Expr, (internedAll t es).Say (stringsAll es)
  | [] => fun _ => rfl
  | e :: es => (say_interned e).andThen _ (say_internedAll es)
end

theorem say_internedBranch (e : Expr) : (e.internedBranch t).Say e.strings := by
  unfold internedBranch
  split
  · exact (say_interned _).andThen _ (say_interned _)
  · exact say_interned e

end Expr

namespace Stmt

theorem say_internedAssign (value : Expr) : ∀ target : Expr,
    (internedAssign t target value).Say (stringsAssign target value)
  | .unary .deref p _ => value.say_interned.andThen _ p.say_interned
  | .number .. | .text .. | .ident .. | .call .. | .cast .. | .binary .. | .unary .negate _ _
  | .unary .logicalNot _ _ | .unary .address _ _ =>
      (Expr.say_interned _).andThen _ value.say_interned

mutual
theorem say_interned : ∀ st : Stmt, (st.interned t done).Say st.strings
  | expr e | ret e => e.say_interned
  | assign target value => say_internedAssign value target
  | loop c body => .behind _ fun _ => .behind _ fun _ => .behind _ fun _ =>
      c.say_internedBranch.andThen _ (say_interned body)
  | ifThen c body => .behind _ fun _ => c.say_internedBranch.andThen _ (say_interned body)
  | ifElse c body other => by
      rw [strings, List.append_assoc]
      exact .behind _ fun _ => c.say_internedBranch.andThen _ <|
        (say_interned body).andThen _ <| .behind _ fun _ => say_interned other
  | block _ body => say_internedAll body

theorem say_internedAll : ∀ ss : List Stmt, (internedAll t done ss).Say (stringsAll ss)
  | [] => fun _ => rfl
  | st :: ss => (say_interned st).andThen _ (say_internedAll ss)
end

end Stmt

theorem Function.say_internedAll : ∀ fs : List (Function × Layout),
    (internedAll t fs).Say (fs.flatMap fun f => f.1.strings)
  | [] => fun _ => rfl
  | (f, l) :: rest => fun s => by
      rw [internedAll, List.map_append, say_internedAll rest, interned, Stmt.say_internedAll]
      rfl

end

end LittleC
