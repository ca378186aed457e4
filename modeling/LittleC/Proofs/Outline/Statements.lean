import LittleC.Proofs.Outline.Alike

/-! # Statements are read off an outline

A statement grows its lines in front of the lines of the statements behind it. Where it ends is told
by the first line behind it: an `Else` at its depth still belongs to it, and whatever else opens
there begins the next statement, as no statement begins with an `Else` or with a declaration. -/

namespace LittleC

/-! ## Declarations -/

namespace Symbol

/-- Where the line of a declaration shows the place in the frame. -/
def placed (s : Symbol) : String :=
  match s.offset with
  | some offset => " @" ++ toString offset
  | none => ""

theorem declaration_eq (s : Symbol) :
    s.declaration = Title.declare.word ++ " " ++ (s.name ++ " " ++ (s.ty.text ++ s.placed)) := by
  rw [declaration, placed]
  cases s.offset with
  | none => simp [Title.word, ← String.append_assoc]
  | some offset => simp [Title.word, ← String.append_assoc]

theorem opens_declaration (s : Symbol) : Title.declare.Opens s.declaration := by
  rw [declaration_eq]
  exact Title.opens_append _ _

theorem flush_declaration {s : Symbol} (h : Unspaced s.name) : Flush s.declaration := by
  have hplaced : Unbroken s.placed := by
    rw [placed]
    cases s.offset with
    | none => exact List.not_mem_nil
    | some offset => exact unbroken_append.mpr ⟨by decide, unbroken_int offset⟩
  refine s.opens_declaration.flush ?_
  rw [declaration_eq]
  have hty := unbroken_append.mpr ⟨s.ty.unbroken_text, hplaced⟩
  exact unbroken_spaced (Title.unbroken_word _) (unbroken_spaced h.unbroken hty)

variable {s s' : Symbol}

/-- No type shows the sign in front of an offset. -/
theorem of_placed (h : s.ty.text ++ s.placed = s'.ty.text ++ s'.placed) :
    s.ty.emptied = s'.ty.emptied ∧ s.offset = s'.offset := by
  have hsign (t : Ty) : '@' ∉ t.text.toList := t.not_mem_text (by decide)
  have hplain {s : Symbol} (hs : s.offset = none) : (s.ty.text ++ s.placed).toList =
      s.ty.text.toList := by
    simp [placed, hs]
  have hmarked {s : Symbol} {n : Int} (hs : s.offset = some n) :
      (s.ty.text ++ s.placed).toList =
        (s.ty.text.toList ++ [' ']) ++ '@' :: (toString n).toList := by
    simp [placed, hs]
  -- A type and the blank behind it are a run without the sign.
  have hrun (t : Ty) : ∀ c ∈ t.text.toList ++ [' '], (c != '@') = true := by
    intro c hc
    refine bne_iff_ne.mpr ?_
    rintro rfl
    rcases List.mem_append.mp hc with hc | hc
    · exact hsign t hc
    · exact absurd hc (by decide)
  have hstop (cs : List Char) : ∀ c ∈ ('@' :: cs).head?, (c != '@') = false := by
    rintro c ⟨⟩
    rfl
  have hchars := congrArg String.toList h
  cases hs : s.offset with
  | none =>
      cases hs' : s'.offset with
      | none =>
          rw [hplain hs, hplain hs'] at hchars
          exact ⟨Ty.text_eq_iff.mp (String.toList_inj.mp hchars), rfl⟩
      | some m =>
          rw [hplain hs, hmarked hs'] at hchars
          exact absurd (hchars ▸ List.mem_append_right _ List.mem_cons_self) (hsign s.ty)
  | some n =>
      cases hs' : s'.offset with
      | none =>
          rw [hmarked hs, hplain hs'] at hchars
          exact absurd (hchars ▸ List.mem_append_right _ List.mem_cons_self) (hsign s'.ty)
      | some m =>
          rw [hmarked hs, hmarked hs'] at hchars
          obtain ⟨hty, hoffset⟩ :=
            append_inj_of_run (hrun s.ty) (hrun s'.ty) (hstop _) (hstop _) hchars
          have htext := String.toList_inj.mp (List.append_cancel_right hty)
          exact ⟨Ty.text_eq_iff.mp htext,
            congrArg some (intText_injective (List.cons.inj hoffset).2)⟩

theorem shown_of_declaration (hs : Unspaced s.name) (hs' : Unspaced s'.name)
    (h : s.declaration = s'.declaration) : s.shown = s'.shown := by
  rw [declaration_eq, declaration_eq, String.append_right_inj] at h
  obtain ⟨hname, hrest⟩ := append_inj_of_blank hs.not_blank hs'.not_blank h
  obtain ⟨hty, hoffset⟩ := of_placed hrest
  rw [shown, shown, hname, hty, hoffset]

theorem declaration_of_shown (h : s.shown = s'.shown) : s.declaration = s'.declaration := by
  simp only [shown, Prod.mk.injEq] at h
  obtain ⟨hname, hty, hoffset⟩ := h
  simp only [declaration, hname, hoffset, Ty.text_eq_iff.mpr hty]

end Symbol

/-! ## What a forest begins with -/

/-- The first line is no line of the title. -/
def Forest.Lacks (title : Title) (f : Forest) : Prop := ∀ text ∈ f.first?, ¬title.Opens text

theorem Forest.lacks_nil (title : Title) : Forest.nil.Lacks title := nofun

/-- The lines of declarations, in front of what follows. -/
def Symbol.growAll (t : SymbolTable) : List SymbolId → Forest → Forest
  | [], next => next
  | x :: xs, next => .cons (t.symbol x).declaration .nil (growAll t xs next)

section
variable {t u : SymbolTable}

theorem Symbol.lines_growAll (t : SymbolTable) (next : Forest) (depth : Nat) : ∀ xs : List SymbolId,
    (growAll t xs next).lines depth =
      (xs.map fun x => ⟨depth, (t.symbol x).declaration⟩) ++ next.lines depth
  | [] => rfl
  | x :: xs => by
      rw [growAll, Forest.lines, lines_growAll t next depth xs]
      rfl

theorem Symbol.flush_growAll (ht : t.Legible) {next : Forest} (hnext : next.All Flush) :
    ∀ xs : List SymbolId, (growAll t xs next).All Flush
  | [] => hnext
  | x :: xs => ⟨flush_declaration (ht.symbol x), trivial, flush_growAll ht hnext xs⟩

/-- Declarations are read up to the first line that is none. -/
theorem Symbol.of_growAll (ht : t.Legible) (hu : u.Legible) {next next' : Forest}
    (hnext : next.Lacks .declare) (hnext' : next'.Lacks .declare) : ∀ {xs ys : List SymbolId},
    growAll t xs next = growAll u ys next' →
    (xs.map fun x => (t.symbol x).shown) = (ys.map fun y => (u.symbol y).shown) ∧ next = next'
  | [], [], h => ⟨rfl, h⟩
  | [], y :: ys, h => by
      change next = _ at h
      subst h
      exact absurd (u.symbol y).opens_declaration (hnext _ rfl)
  | x :: xs, [], h => by
      change _ = next' at h
      subst h
      exact absurd (t.symbol x).opens_declaration (hnext' _ rfl)
  | x :: xs, y :: ys, h => by
      obtain ⟨hfirst, -, hrest⟩ := Forest.cons.inj h
      obtain ⟨hxs, hnext⟩ := of_growAll ht hu hnext hnext' hrest
      refine ⟨?_, hnext⟩
      rw [List.map_cons, List.map_cons, hxs,
        shown_of_declaration (ht.symbol x) (hu.symbol y) hfirst]

/-! ## Statements -/

/-- An expression in front of what follows. -/
def Expr.grow (t : SymbolTable) (e : Expr) (next : Forest) : Forest :=
  .cons (e.headline t) (e.branches t) next

theorem Expr.lines_grow (t : SymbolTable) (e : Expr) (next : Forest) (depth : Nat) :
    (e.grow t next).lines depth = e.outline t depth ++ next.lines depth := by
  rw [outline_eq]
  rfl

theorem Expr.flush_grow (ht : t.Legible) {e : Expr} (he : ∀ s ∈ e.strings, Quoted s) {next : Forest}
    (hnext : next.All Flush) : (e.grow t next).All Flush :=
  ⟨flush_headline ht he, flush_branches ht he, hnext⟩

theorem Expr.of_grow (ht : t.Legible) (hu : u.Legible) {e e' : Expr}
    (he : ∀ s ∈ e.strings, Quoted s) (he' : ∀ s ∈ e'.strings, Quoted s) {next next' : Forest}
    (h : e.grow t next = e'.grow u next') : e.Alike t u e' ∧ next = next' := by
  obtain ⟨hhead, hbelow, hnext⟩ := Forest.cons.inj h
  exact ⟨alike_of_headline ht hu he he' hhead hbelow, hnext⟩

namespace Stmt

mutual
/-- What an outline shows of a statement, in front of what follows. -/
def grow (t : SymbolTable) : Stmt → Forest → Forest
  | expr e, next => e.grow t next
  | assign target value, next => .cons Title.assign.word (target.grow t (value.grow t .nil)) next
  | ret e, next => .cons Title.ret.word (e.grow t .nil) next
  | loop c body, next => .cons Title.loop.word (c.grow t (body.grow t .nil)) next
  | ifThen c body, next => .cons Title.cond.word (c.grow t (body.grow t .nil)) next
  | ifElse c body other, next =>
    .cons Title.cond.word (c.grow t (body.grow t .nil))
      (.cons Title.otherwise.word (other.grow t .nil) next)
  | block scope body, next =>
    .cons Title.block.word (Symbol.growAll t (t.symbols scope) (growAll t body)) next

def growAll (t : SymbolTable) : List Stmt → Forest
  | [] => .nil
  | s :: ss => s.grow t (growAll t ss)
end

mutual
theorem lines_grow (t : SymbolTable) : ∀ (s : Stmt) (next : Forest) (depth : Nat),
    (s.grow t next).lines depth = s.outline t depth ++ next.lines depth
  | expr e, next, depth => e.lines_grow t next depth
  | assign target value, next, depth => by
      simp [grow, outline, Forest.lines, Expr.lines_grow, Title.word]
  | ret e, next, depth => by simp [grow, outline, Forest.lines, Expr.lines_grow, Title.word]
  | loop c body, next, depth => by
      simp [grow, outline, Forest.lines, Expr.lines_grow, lines_grow t body, Title.word]
  | ifThen c body, next, depth => by
      simp [grow, outline, Forest.lines, Expr.lines_grow, lines_grow t body, Title.word]
  | ifElse c body other, next, depth => by
      simp [grow, outline, Forest.lines, Expr.lines_grow, lines_grow t body, lines_grow t other,
        Title.word]
  | block scope body, next, depth => by
      simp [grow, outline, Forest.lines, Symbol.lines_growAll, lines_growAll t body,
        SymbolTable.blockHead, Title.word]

theorem lines_growAll (t : SymbolTable) : ∀ (ss : List Stmt) (depth : Nat),
    (growAll t ss).lines depth = outlineAll t depth ss
  | [], _ => rfl
  | s :: ss, depth => by rw [growAll, outlineAll, lines_grow t s, lines_growAll t ss]
end

/-- What the first line of a statement stands for. -/
def title : Stmt → Title
  | expr e => .node e.title
  | assign .. => .assign
  | ret .. => .ret
  | loop .. => .loop
  | ifThen .. | ifElse .. => .cond
  | block .. => .block

theorem opens_first (t : SymbolTable) (s : Stmt) (next : Forest) :
    ∃ text, (s.grow t next).first? = some text ∧ s.title.Opens text := by
  cases s with
  | expr e => exact ⟨_, rfl, e.opens_headline t⟩
  | _ => exact ⟨_, rfl, Title.opens_word _⟩

theorem lacks_grow (t : SymbolTable) {s : Stmt} {title : Title} (h : s.title ≠ title)
    (next : Forest) : (s.grow t next).Lacks title := by
  obtain ⟨first, hfirst, hopens⟩ := opens_first t s next
  intro text htext hopens'
  rw [hfirst] at htext
  cases htext
  exact h (hopens.unique hopens')

theorem lacks_growAll (t : SymbolTable) {title : Title} (h : ∀ s : Stmt, s.title ≠ title)
    (ss : List Stmt) : (growAll t ss).Lacks title := by
  cases ss with
  | nil => exact Forest.lacks_nil title
  | cons s ss => exact lacks_grow t (h s) _

theorem title_ne_otherwise (s : Stmt) : s.title ≠ .otherwise := by cases s <;> exact nofun

theorem title_ne_declare (s : Stmt) : s.title ≠ .declare := by cases s <;> exact nofun

theorem title_of_grow {s s' : Stmt} {next next' : Forest} (h : s.grow t next = s'.grow u next') :
    s.title = s'.title := by
  obtain ⟨text, hfirst, hopens⟩ := opens_first t s next
  obtain ⟨text', hfirst', hopens'⟩ := opens_first u s' next'
  rw [h, hfirst'] at hfirst
  cases hfirst
  exact hopens.unique hopens'

theorem mem_stringsAssign {x : String} {place value : Expr} :
    x ∈ stringsAssign place value ↔ x ∈ place.strings ∨ x ∈ value.strings := by
  unfold stringsAssign
  split
  · rw [List.mem_append, Expr.strings, or_comm]
  · exact List.mem_append

theorem forall_mem_stringsAssign {P : String → Prop} {place value : Expr} :
    (∀ x ∈ stringsAssign place value, P x) ↔
      (∀ x ∈ place.strings, P x) ∧ ∀ x ∈ value.strings, P x := by
  simp only [mem_stringsAssign, or_imp, forall_and]

mutual
theorem flush_grow (ht : t.Legible) : ∀ {s : Stmt}, (∀ x ∈ s.strings, Quoted x) → ∀ {next : Forest},
    next.All Flush → (s.grow t next).All Flush
  | expr e, hs, next, hnext => Expr.flush_grow ht hs hnext
  | assign target value, hs, next, hnext => by
      rw [strings, forall_mem_stringsAssign] at hs
      exact ⟨Title.flush_word .assign, Expr.flush_grow ht hs.1 (Expr.flush_grow ht hs.2 trivial),
        hnext⟩
  | ret e, hs, next, hnext => ⟨Title.flush_word .ret, Expr.flush_grow ht hs trivial, hnext⟩
  | loop c body, hs, next, hnext => by
      rw [strings, List.forall_mem_append] at hs
      exact ⟨Title.flush_word .loop, Expr.flush_grow ht hs.1 (flush_grow ht hs.2 trivial), hnext⟩
  | ifThen c body, hs, next, hnext => by
      rw [strings, List.forall_mem_append] at hs
      exact ⟨Title.flush_word .cond, Expr.flush_grow ht hs.1 (flush_grow ht hs.2 trivial), hnext⟩
  | ifElse c body other, hs, next, hnext => by
      rw [strings, List.forall_mem_append, List.forall_mem_append] at hs
      exact ⟨Title.flush_word .cond, Expr.flush_grow ht hs.1.1 (flush_grow ht hs.1.2 trivial),
        Title.flush_word .otherwise, flush_grow ht hs.2 trivial, hnext⟩
  | block scope body, hs, next, hnext =>
      ⟨Title.flush_word .block, Symbol.flush_growAll ht (flush_growAll ht hs) _, hnext⟩

theorem flush_growAll (ht : t.Legible) : ∀ {ss : List Stmt}, (∀ x ∈ stringsAll ss, Quoted x) →
    (growAll t ss).All Flush
  | [], _ => trivial
  | s :: ss, hss => by
      rw [stringsAll, List.forall_mem_append] at hss
      exact flush_grow ht hss.1 (flush_growAll ht hss.2)
end

mutual
/-- A statement is read up to the first line behind it that is no `Else`. -/
theorem of_grow (ht : t.Legible) (hu : u.Legible) : ∀ {s s' : Stmt}, (∀ x ∈ s.strings, Quoted x) →
    (∀ x ∈ s'.strings, Quoted x) → ∀ {next next' : Forest}, next.Lacks .otherwise →
    next'.Lacks .otherwise → s.grow t next = s'.grow u next' → s.Alike t u s' ∧ next = next'
  | expr e, s', hs, hs', next, next', _, _, h => by
      have htitle := title_of_grow h
      cases s' with
      | expr e' =>
          obtain ⟨he, hnext⟩ := Expr.of_grow ht hu hs hs' h
          exact ⟨.expr he, hnext⟩
      | _ => cases htitle
  | assign target value, s', hs, hs', next, next', _, _, h => by
      have htitle := title_of_grow h
      cases s' with
      | assign target' value' =>
          rw [strings, forall_mem_stringsAssign] at hs hs'
          obtain ⟨-, hbelow, hnext⟩ := Forest.cons.inj h
          obtain ⟨htarget, hrest⟩ := Expr.of_grow ht hu hs.1 hs'.1 hbelow
          obtain ⟨hvalue, -⟩ := Expr.of_grow ht hu hs.2 hs'.2 hrest
          exact ⟨.assign htarget hvalue, hnext⟩
      | _ => cases htitle
  | ret e, s', hs, hs', next, next', _, _, h => by
      have htitle := title_of_grow h
      cases s' with
      | ret e' =>
          obtain ⟨-, hbelow, hnext⟩ := Forest.cons.inj h
          obtain ⟨he, -⟩ := Expr.of_grow ht hu hs hs' hbelow
          exact ⟨.ret he, hnext⟩
      | _ => cases htitle
  | loop c body, s', hs, hs', next, next', _, _, h => by
      have htitle := title_of_grow h
      cases s' with
      | loop c' body' =>
          rw [strings, List.forall_mem_append] at hs hs'
          obtain ⟨-, hbelow, hnext⟩ := Forest.cons.inj h
          obtain ⟨hc, hrest⟩ := Expr.of_grow ht hu hs.1 hs'.1 hbelow
          obtain ⟨hbody, -⟩ := of_grow ht hu hs.2 hs'.2 (Forest.lacks_nil _) (Forest.lacks_nil _)
            hrest
          exact ⟨.loop hc hbody, hnext⟩
      | _ => cases htitle
  | ifThen c body, s', hs, hs', next, next', hlacks, _, h => by
      have htitle := title_of_grow h
      cases s' with
      | ifThen c' body' =>
          rw [strings, List.forall_mem_append] at hs hs'
          obtain ⟨-, hbelow, hnext⟩ := Forest.cons.inj h
          obtain ⟨hc, hrest⟩ := Expr.of_grow ht hu hs.1 hs'.1 hbelow
          obtain ⟨hbody, -⟩ := of_grow ht hu hs.2 hs'.2 (Forest.lacks_nil _) (Forest.lacks_nil _)
            hrest
          exact ⟨.ifThen hc hbody, hnext⟩
      | ifElse =>
          -- What follows the first statement would begin with the `Else` of the second one.
          obtain ⟨-, -, rfl⟩ := Forest.cons.inj h
          exact absurd (Title.opens_word _) (hlacks _ rfl)
      | _ => cases htitle
  | ifElse c body other, s', hs, hs', next, next', _, hlacks, h => by
      have htitle := title_of_grow h
      cases s' with
      | ifThen =>
          obtain ⟨-, -, rfl⟩ := Forest.cons.inj h
          exact absurd (Title.opens_word _) (hlacks _ rfl)
      | ifElse c' body' other' =>
          rw [strings, List.forall_mem_append, List.forall_mem_append] at hs hs'
          obtain ⟨-, hbelow, hafter⟩ := Forest.cons.inj h
          obtain ⟨-, helse, hnext⟩ := Forest.cons.inj hafter
          obtain ⟨hc, hrest⟩ := Expr.of_grow ht hu hs.1.1 hs'.1.1 hbelow
          obtain ⟨hbody, -⟩ :=
            of_grow ht hu hs.1.2 hs'.1.2 (Forest.lacks_nil _) (Forest.lacks_nil _) hrest
          obtain ⟨hother, -⟩ :=
            of_grow ht hu hs.2 hs'.2 (Forest.lacks_nil _) (Forest.lacks_nil _) helse
          exact ⟨.ifElse hc hbody hother, hnext⟩
      | _ => cases htitle
  | block scope body, s', hs, hs', next, next', _, _, h => by
      have htitle := title_of_grow h
      cases s' with
      | block scope' body' =>
          -- Where the declarations end is told by the first statement, which is none.
          obtain ⟨-, hbelow, hnext⟩ := Forest.cons.inj h
          obtain ⟨hscope, hrest⟩ := Symbol.of_growAll ht hu (lacks_growAll t title_ne_declare body)
            (lacks_growAll u title_ne_declare body') hbelow
          exact ⟨.block hscope (of_growAll ht hu hs hs' hrest), hnext⟩
      | _ => cases htitle

theorem of_growAll (ht : t.Legible) (hu : u.Legible) : ∀ {ss ss' : List Stmt},
    (∀ x ∈ stringsAll ss, Quoted x) → (∀ x ∈ stringsAll ss', Quoted x) →
    growAll t ss = growAll u ss' → List.Forall₂ (Alike t u) ss ss'
  | [], [], _, _, _ => .nil
  | [], s' :: ss', _, _, h => by
      obtain ⟨text, hfirst, -⟩ := opens_first u s' (growAll u ss')
      change Forest.nil = s'.grow u (growAll u ss') at h
      rw [← h] at hfirst
      cases hfirst
  | s :: ss, [], _, _, h => by
      obtain ⟨text, hfirst, -⟩ := opens_first t s (growAll t ss)
      change s.grow t (growAll t ss) = Forest.nil at h
      rw [h] at hfirst
      cases hfirst
  | s :: ss, s' :: ss', hss, hss', h => by
      rw [stringsAll, List.forall_mem_append] at hss hss'
      obtain ⟨hs, hrest⟩ := of_grow ht hu hss.1 hss'.1 (lacks_growAll t title_ne_otherwise ss)
        (lacks_growAll u title_ne_otherwise ss') h
      exact .cons hs (of_growAll ht hu hss.2 hss'.2 hrest)
end

end Stmt

end

end LittleC
