import LittleC.Proofs.Checking.Bodies
import LittleC.Proofs.Encoding.Program
import LittleC.Proofs.Frame.Program
import LittleC.Proofs.Widths.Code

/-! # Access widths of a program

In a unit that was read without a mistake, all code accesses one, four or eight bytes: parameters
that are listed at such sizes are saved and passed at them, and every operator computes with single
values. Two things remain outside. A parameter that is listed as an array is passed at the size of
the array, and through an unspecified list even a function can be passed, at no size at all. -/

namespace LittleC

open Lowering (State)

/-! ## Calls -/

namespace Ty

/-- What promotion leaves as it is, functions apart, is a single value. -/
theorem isScalar_of_promote {t : Ty} (h : t.promote = t) (herror : t.isError = false)
    (hfunction : t.isFunction = false) : t.isScalar = true := by
  cases t with
  | scalar => rfl
  | array => cases h
  | func | funcUnspecified => cases hfunction
  | error => cases herror

end Ty

namespace Expr

/-- A call passes widths of the machine. -/
def PassesWidths : Expr → Prop
  | .call _ args _ => ∀ a ∈ args, Width a.ty.size
  | _ => True

theorem PassesWidths.passes {n : Expr} (h : n.PassesWidths) : n.Passes Width := by
  cases n with
  | call f args i => exact h
  | _ => trivial

/-- A call through an unspecified list passes no function. -/
def SparesFunctions (t : SymbolTable) : Expr → Prop
  | .call f args _ => (t.symbol f).ty.params? = none → ∀ a ∈ args, a.ty.isFunction = false
  | _ => True

/-- Parameters of the listed types take arguments of their sizes. -/
theorem Canonical.passesWidths {t : SymbolTable} {n : Expr} (h : n.Canonical t)
    (hlisted : ∀ f, ∀ p ∈ t.listed f, Width p.size) (hspares : n.SparesFunctions t)
    (herror : ∀ f args i, n = .call f args i → ∀ a ∈ args, a.ty.isError = false) :
    n.PassesWidths := by
  cases n with
  | call f args i =>
      intro a ha
      have hcall : (t.symbol f).ty.CallTypes (args.map (·.ty)) i.ty := h
      have hmem : a.ty ∈ args.map (·.ty) := List.mem_map_of_mem ha
      cases hty : (t.symbol f).ty with
      | func b d params =>
          rw [hty] at hcall
          obtain ⟨-, hagree⟩ := hcall
          obtain ⟨k, hk, hak⟩ := List.mem_iff_getElem.mp hmem
          have hkp : k < params.length := hagree.length_eq ▸ hk
          have hsize : a.ty.size = params[k].size := by
            rw [← hak]
            exact Ty.size_of_agrees (hagree.get hk hkp)
          have hparam : params[k] ∈ t.listed f := by
            rw [SymbolTable.listed, hty]
            exact List.getElem_mem hkp
          exact hsize ▸ hlisted f _ hparam
      | funcUnspecified b d =>
          rw [hty] at hcall
          have hfunction := hspares (by rw [hty]; rfl) a ha
          have hproper := herror f args i rfl a ha
          exact Ty.width_size (Ty.isScalar_of_promote (hcall.2 _ hmem) hproper hfunction)
      | scalar | array | error =>
          rw [hty] at hcall
          exact hcall.elim
  | _ => trivial

theorem every_passesWidths {t : SymbolTable} {e : Expr} (he : e.Every (WellFormed t))
    (hsound : e.hasError = false) (hlisted : ∀ f, ∀ p ∈ t.listed f, Width p.size)
    (hspares : e.Every (SparesFunctions t)) : e.Every PassesWidths := by
  have herror := ((hasError_eq_false_iff e).mp hsound).every
  intro n hn
  refine (he n hn).1.passesWidths hlisted (hspares n hn) fun f args i hcall a ha => ?_
  have hcalled := herror n hn
  rw [hcall] at hcalled
  exact ((every_call.mp hcalled).2 a ha).root

end Expr

/-! ## Functions -/

/-- Registers arrive for parameters of the listed types. -/
theorem Routine.ty_mem_listed {t : SymbolTable} {f : Function} {p : Symbol}
    (h : t.listed f.symbol <+: t.types f.scope) (hp : p ∈ registerParams t f) :
    p.ty ∈ t.listed f.symbol := by
  obtain ⟨x, hx, rfl⟩ := List.mem_map.mp hp
  have hfirst : x ∈ (t.symbols f.scope).take (t.listed f.symbol).length := by
    rw [min_comm, ← List.take_take] at hx
    exact List.mem_of_mem_take hx
  have hty := List.mem_map_of_mem (f := fun x => (t.symbol x).ty) hfirst
  rw [List.map_take] at hty
  rwa [List.prefix_iff_eq_take.mp h]

namespace Function

section
variable {t : SymbolTable} {f : Function}

/-- What makes the code of a function fit. -/
structure Measured (f : Function) (t : SymbolTable) : Prop where
  function : (t.symbol f.symbol).ty.isFunction = true
  parameters : ∀ p ∈ Routine.registerParams t f, Width p.ty.size
  body : ∀ st ∈ f.body, st.Accepted t (t.symbol f.symbol).ty.result
  passes : ∀ e ∈ Stmt.exprsAll f.body, e.Every Expr.PassesWidths

theorem Measured.fits_lower (h : f.Measured t) (l : Layout) (s : State) :
    ∀ line ∈ (f.lower t l s).1.code, line.Fits := by
  have hpasses : ∀ e ∈ Stmt.exprsAll f.body, e.Every (Expr.Passes Width) := fun e he =>
    (h.passes e he).imp fun _ hn => hn.passes
  intro line hline
  exact (f.forms_lower (fun _ hn => hn) h.function h.parameters h.body hpasses l s line hline).fits

theorem fits_lowerAll (fs : List (Function × Layout)) (s : State) (h : ∀ p ∈ fs, p.1.Measured t) :
    ∀ r ∈ (lowerAll t fs s).1, ∀ line ∈ r.code, line.Fits := by
  intro r hr
  obtain ⟨p, hp, s', rfl⟩ := exists_of_mem_lowerAll fs s hr
  exact (h p hp).fits_lower p.2 s'

end

end Function

end LittleC
