import LittleC.Proofs.Calls.Callee
import LittleC.Proofs.Calls.Trees

/-! # Caller and callee agree

Where a call is reached, every argument is in the register or on the stack word for it, and a
function that is defined with the parameter list of the call reads each of its parameters there. -/

namespace LittleC

open Lowering (State)

namespace Lowering

open State Setting

section
variable {S : Setting} {t : SymbolTable} {f : SymbolId} {es : List Expr} {i : Expr.Info}
  {args : List Argument} {s : State} {m : Machine} {M M' : Memory}

/-- Behind the arguments of a call the frame grows no further. -/
theorem contains_gather {callee : Symbol} {size : Nat} {args : Lowering (List ValueId)}
    (hs : (gather args s).state.Sound) (hrax : (gather args s).state.pool .rax = none)
    (hsize : Width size) (hc : S.Contains (call callee size args s).state) :
    S.Contains (gather args s).state := by
  have hstate : (call callee size args s).state =
      (gather args s).state.addValue ⟨.reg .rax, size⟩ := by
    rw [call_eq]
    simp only [bind_apply, (writes_acrossCall _ _).state]
    rfl
  refine hc.before (K := fun _ => False) ?_
  rw [hstate]
  refine (evolves_addValue hs fun r hr => ?_).mono fun _ h => h.elim
  cases hr
  exact ⟨hrax, hsize⟩

/-- The code of a call leads to the instruction, and there everything is handed over. -/
theorem reaches_call (hplaces : S.Places t) (hconforms : S.Conforms t)
    (he : (Expr.call f es i).Every (Expr.WellFormed t))
    (hh : (Expr.call f es i).Every (Expr.Handled S)) (hspared : (Expr.call f es i).Spared S)
    (hs : s.Sound) (hm : S.Stands M s m) (hc : S.Contains ((Expr.call f es i).lower t s).state)
    (hargs : Expr.runAll S.env S.callees s.texts.length es M = some (args, M')) :
    ∃ m', S.world.Reaches s.nextLabel (callFront (t.symbol f) (Expr.lowerAll t es) s).code m .next
      m' ∧ S.Calling M' (t.symbol f) args m' := by
  obtain ⟨⟨hcanonical, -⟩, hes⟩ := Expr.every_call.mp he
  obtain ⟨hroom, hhandled⟩ := Expr.every_call.mp hh
  obtain ⟨hfunction, hresult⟩ := Ty.CallTypes.eq_result hcanonical
  have hgathers := gathers_lowerAll es s.texts.length (fun e he => (hes e he).root.1) fun e he k =>
    computes_expr hplaces hconforms e k (hes e he) (hhandled e he) fun p hp =>
      hspared p (Expr.mem_operandsAll.mpr ⟨e, he, hp⟩)
  have hgather := drives_gather hs rfl hgathers args M'
  obtain ⟨hreached, hpool⟩ := hgather.gives
  have hcontains : S.Contains (gather (Expr.lowerAll t es) s).state := by
    rw [Expr.lower] at hc
    exact contains_gather hreached.sound (hpool .rax)
      (hresult ▸ Ty.width_size (Ty.isScalar_result hfunction)) hc
  obtain ⟨M₁, m₁, hrun, hm₁, -, rfl, hwaits⟩ := hgather.runs M m hm hcontains hargs
  have hspace : S.floor ≤ -S.frame - pushedBytes args.length := by
    rw [Expr.length_runAll hargs]
    exact hroom
  obtain ⟨m₂, hrun', hcalling, -⟩ := reaches_hand (t.symbol f) hpool hm₁ hcontains hspace hwaits
    (gather (Expr.lowerAll t es) s).state.nextLabel
  exact ⟨m₂, hrun.append hgather.labels hreached.label hrun', hcalling⟩

end

/-! ## Calls with listed parameters -/

/-- Types that agree with those of single values are the same. -/
theorem eq_of_agrees {ts ps : List Ty} (h : List.Forall₂ (fun a p => a.agrees p = true) ts ps)
    (hps : ∀ p ∈ ps, p.isScalar = true) : ts = ps := by
  induction h with
  | nil => rfl
  | @cons a p as ps hagrees _ ih =>
      obtain ⟨hfirst, hrest⟩ := List.forall_mem_cons.mp hps
      cases p with
      | scalar b d => rw [Ty.agrees_scalar_iff.mp hagrees, ih hrest]
      | _ => cases hfirst

/-- A call that is checked against listed parameters has an argument for each, of its type. -/
theorem node_of_params {callee : Ty} {b : Base} {d : Nat} {ps : List Ty} {f : SymbolId}
    {args : List Expr} (hf : callee = .func b d ps) (hps : ∀ p ∈ ps, p.isScalar = true)
    (h : (Typing.call callee f args).node.hasError = false) :
    (Typing.call callee f args).node =
        .call f (Typing.convertArgs args ps).1 (.value callee.result) ∧
      (Typing.convertArgs args ps).1.map (·.ty) = ps := by
  subst hf
  unfold Typing.call at h ⊢
  dsimp only at h ⊢
  split_ifs at h with hlen hall
  · rw [if_pos hlen, if_pos hall]
    exact ⟨rfl, eq_of_agrees (Typing.forall₂_agrees_convertArgs hlen hall) hps⟩
  · simp [Expr.hasError, Ty.isError] at h
  · simp [Expr.hasError, Ty.isError] at h

/-! ## Main statement -/

/-- Wherever the code stands, it takes the machine from `m` to `m'` at its last call, which is one
of `name`. -/
def ReachesCall (w : World) (bound : Nat) (code : List Line)
    (name : String) (m m' : Machine) : Prop :=
  ∃ front back, code = front ++ .instr (.call name) :: back ∧
    (∀ other, Line.instr (.call other) ∉ back) ∧
    ∀ whole i, Placed whole i bound code → w.Steps whole (i, m) (i + front.length, m')

/-- From machine `m` the code of a call of `name` comes to a machine where every argument is in its
register or at its stack word. Each function of the parameter list, in any program that has it,
reads them as its parameters. -/
structure Agree (S : Setting) (name : String) (ps : List Ty) (args : List Argument) (bound : Nat)
    (code : List Line) (m : Machine) : Prop where
  sizes : args.map (·.size) = ps.map (·.size)
  passed : ∃ m', ReachesCall S.world bound code name m m' ∧ m'.Passes args ∧
    ∀ (u : SymbolTable) (fs : List Function) (g : Function), u.Reachable → u.Separates fs → g ∈ fs →
      g.Takes u ps → ∀ w ret s, g.Receives (u.allocateAll fs).2 w args m' ret s

section
variable {S : Setting} {t : SymbolTable} {f : SymbolId} {args : List Expr} {ps : List Ty}
  {s : State} {m : Machine} {M M' : Memory} {values : List Argument}

/-- Caller and callee agree on every argument, however many there are and whatever the arguments
themselves call. -/
theorem call_arguments_agree {b : Base} {d : Nat} (hf : (t.symbol f).ty = .func b d ps)
    (hps : ∀ p ∈ ps, p.isScalar = true) (hbuilt : ∀ a ∈ args, a.Built t)
    (herror : (Typing.call (t.symbol f).ty f args).node.hasError = false)
    (hplaces : S.Places t) (hconforms : S.Conforms t)
    (hhandled : (Typing.call (t.symbol f).ty f args).node.Every (Expr.Handled S))
    (hspared : (Typing.call (t.symbol f).ty f args).node.Spared S)
    (hroom : wordSize * ps.length + 64 ≤ 2 ^ 64) (hs : s.Sound) (hm : S.Stands M s m)
    (hc : S.Contains ((Typing.call (t.symbol f).ty f args).node.lower t s).state)
    (hvalues : Expr.runAll S.env S.callees s.texts.length (Typing.convertArgs args ps).1 M =
      some (values, M')) :
    Agree S (t.symbol f).name ps values s.nextLabel
      ((Typing.call (t.symbol f).ty f args).node.lower t s).code m := by
  have hevery := (Expr.Built.call f hbuilt).every_wellFormed herror
  obtain ⟨hnode, htypes⟩ := node_of_params hf hps herror
  rw [hnode] at hevery hhandled hspared hc ⊢
  obtain ⟨m', hrun, hcalling⟩ :=
    reaches_call hplaces hconforms hevery hhandled hspared hs hm hc hvalues
  have hsizes : values.map (·.size) = ps.map (·.size) := by
    have hparams := congrArg (List.map Ty.size) htypes
    rw [List.map_map] at hparams
    exact (Expr.sizes_runAll hvalues).trans hparams
  rw [Expr.lower]
  obtain ⟨back, hback, hcalls⟩ := code_call (t.symbol f)
    (Expr.Info.value (t.symbol f).ty.result).ty.size
    (Expr.lowerAll t (Typing.convertArgs args ps).1) s
  refine ⟨hsizes, m', ⟨_, back, hback, hcalls, fun whole i hplaced => ?_⟩, hcalling.passes, ?_⟩
  · rw [hback] at hplaced
    exact hrun whole i hplaced.left
  · intro u fs g hu hfs hg htakes w ret s'
    exact Function.receives_arguments (Function.settled_allocateAll hu hfs hg)
      (htakes.of_types (u.scopes_allocateAll fs) (u.ty_allocateAll fs)) hsizes hcalling.passes hroom
      w ret s'

/-- A call of a function of seven arguments. The first argument is saved while the second one is
computed by a call, which clobbers every register, and the last argument is pushed. -/
theorem call_arguments_agree_nested :
    let file := ((SymbolTable.empty.insert (.fresh "x" .int)).2.insert
      (.fresh "f" (.func .int 0 (List.replicate 7 .int)))).2.insert
      (.fresh "g" (.func .int 0 [.int]))
    let t := ["a", "b", "c", "d", "i", "j", "k"].foldl (fun t name =>
        (t.insert (.fresh name .int)).2) file.2.openScope.2
    let first := (Typing.binary .add (Expr.ofSymbol t ⟨0⟩) (Expr.ofInteger ⟨1, false⟩)).node
    let second := (Typing.call (t.symbol ⟨2⟩).ty ⟨2⟩ [Expr.ofInteger ⟨2, false⟩]).node
    let args := first :: second :: [3, 4, 5, 6, 7].map fun n => Expr.ofInteger ⟨n, false⟩
    let e := (Typing.call (t.symbol ⟨1⟩).ty ⟨1⟩ args).node
    let world : World := ⟨fun _ => 4096, fun _ => 0, fun name m =>
      if name = "g" then some { m with regs := fun _ => .ofInt 64 (signed 4 (m.regs .rdi) + 1) }
      else none⟩
    let callees : Callees := ⟨fun f args M =>
      match f, args with
      | ⟨2⟩, [⟨4, v⟩] => some (wrap 4 (v + 1), M)
      | _, _ => none, [(4096, 4)]⟩
    let S : Setting :=
      ⟨⟨world, ⟨fun _ => 4096, fun _ => 0, fun b => Covers 4096 4 b⟩, 65536, -32⟩, callees, 16⟩
    let m : Machine := ⟨fun _ => 0, 65536, 65520, fun _ => 0, none⟩
    let values : List Argument := [1, 3, 3, 4, 5, 6, 7].map (⟨4, ·⟩)
    let callee : Function := ⟨⟨1⟩, ⟨1⟩, []⟩
    S.Conforms t ∧ S.Stands (fun _ => 0) (.start true) m ∧ callee.Takes t (List.replicate 7 .int) ∧
      Agree S "f" (List.replicate 7 .int) values 0 (e.lower t (.start true)).code m ∧
      ∃ m' : Machine, m'.Passes values ∧
        ∀ w ret s, callee.Receives (t.allocateAll [callee]).2 w values m' ret s := by
  intro file t first second args e world callees S m values callee
  have hbuilt : ∀ a ∈ args, a.Built t := by
    have hfirst : first.Built t := .binary .add (.ident ⟨0⟩) (.number _)
    have hsecond : second.Built t := .call ⟨2⟩ fun a ha => List.mem_singleton.mp ha ▸ .number _
    exact List.forall_mem_cons.mpr ⟨hfirst, List.forall_mem_cons.mpr
      ⟨hsecond, List.forall_mem_map.mpr fun n _ => .number _⟩⟩
  have hplaces : S.Places t := by
    have hoffsets : ∀ s ∈ t.entries, s.offset = none := by decide
    intro x
    have hoffset : (t.symbol x).offset = none := by
      rw [SymbolTable.symbol, List.getD_eq_getElem?_getD]
      cases hx : t.entries[x.index]? with
      | none => rfl
      | some s => exact hoffsets s (List.mem_of_getElem? hx)
    rw [Symbol.home, hoffset]
    rfl
  have hconforms : S.Conforms t := by
    intro f args M x M' m hresult hcalling
    dsimp only [S, callees] at hresult
    split at hresult
    · next v =>
        cases hresult
        have hv : signed 4 (m.regs .rdi) = v := hcalling.passes 0 ⟨4, v⟩ rfl
        refine ⟨_, rfl, rfl, rfl, hcalling.memory, fun _ _ _ => rfl, ?_⟩
        rw [← hv]
        exact signed_ofInt (by decide) _
    · cases hresult
  have hstands : S.Stands (fun _ => 0) (.start true) m := by
    refine ⟨⟨rfl, fun _ _ => rfl, fun b hb => ?_, by decide⟩, by decide, Int.le_refl 0⟩
    have hplace : (4096 : Word) = 65536 + BitVec.ofInt 64 (-61440) := by decide
    have hcovers : Covers 4096 4 b := of_decide_eq_true hb
    rw [hplace] at hcovers
    exact (zone_of_covers hcovers).not_above (by decide) (by decide)
  have htakes : callee.Takes t (List.replicate 7 .int) := by
    have hall : ∀ x ∈ (t.symbols ⟨1⟩).take 7, (t.symbol x).ty.agrees .int = true := by
      decide +kernel
    have hlength : ((t.symbols ⟨1⟩).take 7).length = 7 := by decide +kernel
    exact ⟨rfl, List.eq_replicate_iff.mpr ⟨(List.length_map _).trans hlength,
      List.forall_mem_map.mpr fun x hx => Ty.agrees_scalar_iff.mp (hall x hx)⟩, by decide⟩
  have hfile : file.2.Reachable :=
    ((SymbolTable.Reachable.empty.insert _).insert _).insert _
  have ht : t.Reachable :=
    (((((((hfile.openScope).insert _).insert _).insert _).insert _).insert _).insert _).insert _
  have hvalues : ∃ M', Expr.runAll S.env S.callees 0
      (Typing.convertArgs args (List.replicate 7 .int)).1 (fun _ => 0) = some (values, M') := by
    have hfirst : (Expr.runAll S.env S.callees 0
        (Typing.convertArgs args (List.replicate 7 .int)).1 (fun _ => 0)).map Prod.fst =
        some values := by
      decide +kernel
    obtain ⟨⟨_, M'⟩, hrun, rfl⟩ := Option.map_eq_some_iff.mp hfirst
    exact ⟨M', hrun⟩
  obtain ⟨M', hvalues⟩ := hvalues
  have herror : e.hasError = false := by decide
  have hhandled : e.Every (Expr.Handled S) := by
    unfold Expr.Every
    decide
  have hspared : e.Spared S := by
    unfold Expr.Spared
    decide
  have hcontains : S.Contains (e.lower t (.start true)).state :=
    ⟨⟨by decide, fun _ _ _ _ => rfl⟩, by decide⟩
  have hagree : Agree S "f" (List.replicate 7 .int) values 0 (e.lower t (.start true)).code m :=
    call_arguments_agree (f := ⟨1⟩) rfl htakes.scalar hbuilt herror hplaces hconforms hhandled
      hspared (by decide) (sound_of_empty fun _ => rfl) hstands hcontains hvalues
  obtain ⟨m', -, hpasses, hreceives⟩ := hagree.passed
  exact ⟨hconforms, hstands, htakes, hagree, m', hpasses, fun w ret s =>
    hreceives t [callee] callee ht (List.pairwise_singleton ..) List.mem_cons_self htakes w ret s⟩

end

end Lowering

end LittleC
