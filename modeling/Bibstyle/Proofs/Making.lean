import Bibstyle.Proofs.Knowledge
import Bibstyle.Proofs.Triple
/-!
# Making — symbolic runs make what they know to be right

A run starts from what the machine knows and ends with a machine that knows at least as much, and all it has put on the stack
and all it has written is as it should be by then.  A run that fails is dropped, but what it has linked stays.
-/
namespace Bibstyle

/-! ## Runs that make -/

namespace Eval

variable {α β : Type} {d : Dictionary} {m₀ : Machine}

/-- **A run that makes**, on every machine that knows what one knows; a run that fails has linked what it has linked. -/
def Makes (d : Dictionary) (m₀ : Machine) (x : Eval α) (Q : α → Machine → Prop) : Prop :=
  ∀ m, m₀.Precedes m → m.Made d → match x m with
    | .ok a m' => m.Precedes m' ∧ m'.Made d ∧ Q a m'
    | .error _ m' => m.linkage.Within m'.linkage

section Rules

variable {P : α → Machine → Prop} {Q : β → Machine → Prop}

theorem Makes.bind {x : Eval α} {f : α → Eval β} (hx : Makes d m₀ x P)
    (hf : ∀ a m₁, m₀.Precedes m₁ → P a m₁ → Makes d m₁ (f a) Q) : Makes d m₀ (x >>= f) Q := by
  intro m hm hmade
  have hfirst := hx m hm hmade
  rw [bind_apply]
  cases hxm : x m with
  | error e m₁ => rw [hxm] at hfirst; exact hfirst
  | ok a m₁ =>
    rw [hxm] at hfirst
    obtain ⟨hm₁, hmade₁, hP⟩ := hfirst
    -- what the first run gives is known of the very machine that the second one starts on
    have hsecond := hf a m₁ (hm.trans hm₁) hP m₁ (.refl m₁) hmade₁
    dsimp only
    cases hfm : f a m₁ with
    | error e m₂ => rw [hfm] at hsecond; exact hm₁.linkage.trans hsecond
    | ok b m₂ => rw [hfm] at hsecond; exact ⟨hm₁.trans hsecond.1, hsecond.2⟩

theorem Makes.pure {b : β} (h : ∀ m, m₀.Precedes m → Q b m) : Makes d m₀ (pure b) Q :=
  fun m hm hmade => ⟨.refl m, hmade, h m hm⟩

theorem Makes.throw {e : AnalysisFault} : Makes d m₀ (throw e : Eval β) Q :=
  fun m _ _ => .refl m.linkage

theorem Makes.ite {p : Prop} [Decidable p] {x y : Eval β} (hx : p → Makes d m₀ x Q) (hy : ¬ p → Makes d m₀ y Q) :
    Makes d m₀ (if p then x else y) Q := by
  by_cases hp : p
  · rw [if_pos hp]
    exact hx hp
  · rw [if_neg hp]
    exact hy hp

theorem Makes.get {f : Machine → Eval β} (h : ∀ m, m₀.Precedes m → m.Made d → Makes d m (f m) Q) : Makes d m₀ (get >>= f) Q :=
  fun m hm hmade => h m hm hmade m (.refl m) hmade

/-- Changing the frame alone. -/
theorem Makes.frame {f : Frame → Frame}
    (h : ∀ m, m₀.Precedes m → m.Made d → (∀ e ∈ (f m.frame).stack, e.Stacked d m) ∧ Block.Made d m (f m.frame).code) :
    Makes d m₀ (modify (fun m => { m with frame := f m.frame })) (fun _ _ => True) := by
  intro m hm hmade
  obtain ⟨hstack, hcode⟩ := h m hm hmade
  exact ⟨m.precedes_frame _, .framed hstack hcode, trivial⟩

/-- Learning more, with the frame as it is. -/
theorem Makes.modify {f : Machine → Machine} {Q : Unit → Machine → Prop} (hframe : ∀ m, (f m).frame = m.frame)
    (h : ∀ m, m₀.Precedes m → m.Precedes (f m) ∧ Q () (f m)) : Makes d m₀ (modify f) Q :=
  fun m hm hmade => ⟨(h m hm).1, hmade.later (h m hm).1 (hframe m), (h m hm).2⟩

end Rules

/-! ## Single operations -/

theorem makes_mismatch {Q : α → Machine → Prop} (p t : String) (e : Expr) : Makes d m₀ (mismatch p t e : Eval α) Q :=
  .get (fun _ _ _ => .throw)

theorem makes_tyOf (e : Expr) : Makes d m₀ (tyOf e) (fun _ _ => True) :=
  .get (fun _ _ _ => .pure (fun _ _ => trivial))

theorem makes_param (depth : Nat) (t : Ty) : Makes d m₀ (param depth t) (fun v m => (Expr.var v).Stacked d m) := by
  intro m _ hmade
  have hm : m.Precedes { m with vars := .of (m.scope.param depth t).2 } := ⟨m.scope.sharpens_param depth t, .refl _, id⟩
  have horigin := m.scope.origin?_param depth t
  rw [param_apply]
  exact ⟨hm, hmade.later hm rfl, Expr.stacked_var (fun hnone => nomatch horigin.symm.trans hnone)⟩

theorem makes_newLocal (t : Ty) : Makes d m₀ (newLocal t) (fun v m => (Expr.var v).Stacked d m) := by
  intro m _ hmade
  have hm : m.Precedes { m with vars := .of (m.scope.newLocal t).2 } := ⟨m.scope.sharpens_push .local t, .refl _, id⟩
  have horigin := m.scope.origin?_newLocal t
  rw [newLocal_apply]
  exact ⟨hm, hmade.later hm rfl, Expr.stacked_var (fun hnone => nomatch horigin.symm.trans hnone)⟩

theorem makes_link (h : Helper) : Makes d m₀ (link h) (fun _ m => h ∈ m.linkage.helpers) := by
  refine .modify (fun m => ?_) (fun m _ => ?_)
  · split <;> rfl
  · split
    · rename_i hhas
      exact ⟨.refl m, List.contains_iff_mem.1 hhas⟩
    · exact ⟨⟨.refl _, m.linkage.within_add h, id⟩, m.linkage.mem_add h⟩

theorem makes_touchEntry : Makes d m₀ touchEntry (fun _ m => m.usesEntry = true) :=
  .modify (fun _ => rfl) (fun _ _ => ⟨⟨.refl _, .refl _, fun _ => rfl⟩, rfl⟩)

theorem makes_emit {t : Stmt} (h : Block.Made d m₀ [t]) : Makes d m₀ (emit t) (fun _ _ => True) :=
  .frame (f := fun g => { g with code := g.code ++ [t] }) (fun _ hm hmade => ⟨hmade.stack, hmade.code.append (h.later hm)⟩)

theorem makes_setStack {es : List Expr} (h : ∀ e ∈ es, e.Stacked d m₀) : Makes d m₀ (setStack es) (fun _ _ => True) :=
  .frame (f := fun g => { g with stack := es }) (fun _ hm hmade => ⟨fun e he => (h e he).later hm, hmade.code⟩)

theorem makes_push {e : Expr} (h : e.Stacked d m₀) : Makes d m₀ (push e) (fun _ _ => True) :=
  .frame (f := fun g => { g with stack := e :: g.stack })
    (fun _ hm hmade => ⟨List.forall_mem_cons.2 ⟨h.later hm, hmade.stack⟩, hmade.code⟩)

theorem makes_clear : Makes d m₀ clear (fun _ _ => True) :=
  .frame (f := fun g => { g with stack := [] }) (fun _ _ hmade => ⟨nofun, hmade.code⟩)

theorem makes_popAs (t : Ty) : Makes d m₀ (popAs t) (fun e m => e.Stacked d m) := by
  intro m hm hmade
  cases hstack : m.frame.stack with
  | nil =>
    -- the next parameter is made on a machine whose frame has counted it
    have hcounted : Machine.Made d { m with frame := { m.frame with drawn := m.frame.drawn + 1 } } :=
      .framed hmade.stack hmade.code
    have hparam := makes_param (m.frame.base + m.frame.drawn) t _ (.refl _) hcounted
    rw [param_apply] at hparam
    rw [popAs_nil hstack]
    exact ⟨(m.precedes_frame _).trans hparam.1, hparam.2⟩
  | cons e rest =>
    have hall := hmade.stack
    rw [hstack, List.forall_mem_cons] at hall
    rw [popAs_cons hstack]
    exact ⟨m.precedes_frame _, .framed hall.2 hmade.code, hall.1.later (m.precedes_frame _)⟩

/-- **A checked value has its type**: a variable gets it, and whatever else is on a stack had a type before. -/
theorem makes_check {e : Expr} (he : e.Stacked d m₀) (t : Ty) (p : String) :
    Makes d m₀ (check e t p) (fun e m => e.Suits d m t) := by
  intro m hm hmade
  have he := he.later hm
  -- the type is looked up on this machine: on an earlier one, less may have been known, and `bind` would ask for that
  have htyOf : tyOf e m = .ok (e.ty m.scope) m := rfl
  unfold check
  rw [bind_apply, htyOf]
  dsimp only
  by_cases hbad : (!e.isValue || !(e.ty m.scope).fits t) = true
  · rw [if_pos hbad]
    exact makes_mismatch (Q := fun e m => Expr.Suits d m t e) p t.label e m (.refl m) hmade
  rw [if_neg hbad]
  obtain ⟨hvalue, hfits⟩ : e.isValue = true ∧ (e.ty m.scope).fits t = true := by simpa using hbad
  have hcases : e.ty m.scope = t ∨ e.ty m.scope = .generic ∨ t = .generic := by simpa [Ty.fits, or_assoc] using hfits
  have hother : (∀ v, e ≠ .var v) → e.Has m.scope t := by
    intro hvar ht
    have hknown := he.definite.ty_ne hvalue hvar
    exact hcases.resolve_right (fun h => h.elim hknown ht)
  cases e with
  | var v =>
    have hrefine : m.Precedes { m with vars := m.vars.refine v t } := ⟨m.scope.sharpens_refine v t, .refl _, id⟩
    refine ⟨hrefine, hmade.later hrefine rfl, he.later hrefine, fun ht => ?_⟩
    exact Scope.ty_refine he.definite (hcases.imp_right (fun h => h.resolve_right ht))
  | _ => exact ⟨.refl m, hmade, he, hother nofun⟩

theorem makes_popTyped (t : Ty) (p : String) : Makes d m₀ (popTyped t p) (fun e m => e.Suits d m t) :=
  .bind (makes_popAs t) (fun _ _ _ he => makes_check he t p)

theorem makes_popProcedure (p : String) : Makes d m₀ (popProcedure p) (fun _ _ => True) := by
  unfold popProcedure
  refine .bind (makes_popAs _) (fun e _ _ _ => ?_)
  split
  · exact .pure (fun _ _ => trivial)
  · exact .pure (fun _ _ => trivial)
  · exact makes_mismatch _ _ _

theorem makes_popArgs (p : String) : ∀ (m₀ : Machine) (ts : List Ty),
    Makes d m₀ (popArgs p ts) (fun es m => List.Forall₂ (fun t e => e.Suits d m t) ts es)
  | _, [] => .pure (fun _ _ => .nil)
  | _, t :: ts => by
    unfold popArgs
    refine .bind (makes_popArgs p _ ts) (fun rest m₁ _ hrest => ?_)
    refine .bind (makes_popTyped t p) (fun e m₂ h₂ he => .pure (fun m hm => ?_))
    exact .cons (he.later hm) (hrest.imp (fun _ _ h => h.later (h₂.trans hm)))

theorem makes_spillSlots (which : Expr → Bool) : ∀ (m₀ : Machine) {es : List Expr}, (∀ e ∈ es, e.Stacked d m₀) →
    Makes d m₀ (spillSlots which es) (fun slots m => ∀ e ∈ slots, e.Stacked d m)
  | _, [], _ => .pure (fun _ _ => nofun)
  | _, e :: below, h => by
    rw [List.forall_mem_cons] at h
    unfold spillSlots
    refine .bind (makes_spillSlots which _ h.2) (fun slots m₁ h₁ hslots => .ite (fun _ => ?_) (fun _ => .pure (fun m hm => ?_)))
    · refine .bind (makes_tyOf e) (fun t m₂ h₂ _ => .bind (makes_newLocal t) (fun v m₃ h₃ hv => ?_))
      refine .bind (makes_emit (.declare (h.1.later (h₁.trans (h₂.trans h₃))).nodes)) (fun _ m₄ h₄ _ => .pure (fun m hm => ?_))
      have hlast := h₂.trans (h₃.trans (h₄.trans hm))
      exact List.forall_mem_cons.2 ⟨hv.later (h₄.trans hm), fun e he => (hslots e he).later hlast⟩
    · exact List.forall_mem_cons.2 ⟨h.1.later (h₁.trans hm), fun e he => (hslots e he).later hm⟩

theorem makes_spillWhere (changes : Expr → Bool) : Makes d m₀ (spillWhere changes) (fun _ _ => True) :=
  .get (fun _ _ hmade => .bind (makes_spillSlots _ _ hmade.stack) (fun _ _ _ hslots => makes_setStack hslots))

theorem makes_spillAll (p : String) : Makes d m₀ (spillAll p) (fun _ _ => True) := by
  unfold spillAll
  refine .get (fun m _ hmade => ?_)
  dsimp only
  have hstack := hmade.stack
  rw [← take_append_values m.frame.stack, List.forall_mem_append] at hstack
  refine .bind (makes_spillSlots _ _ hstack.2) (fun slots m₁ h₁ hslots => ?_)
  have hall := List.forall_mem_append.2 ⟨fun e he => (hstack.1 e he).later h₁, hslots⟩
  exact .bind (makes_setStack hall) (fun _ _ _ _ => .ite (fun _ => .pure (fun _ _ => trivial)) (fun _ => .throw))

/-! ## Branches and loops -/

structure FrameMade (d : Dictionary) (m : Machine) (g : Frame) : Prop where
  stack : ∀ e ∈ g.stack, e.Stacked d m
  code : Block.Made d m g.code

theorem makes_inNested {x : Eval Unit} (hx : Makes d m₀ x (fun _ _ => True)) :
    Makes d m₀ (inNested x) (fun g m => FrameMade d m g) := by
  intro m hm hmade
  have hrun := hx { m with frame := m.frame.nested } (hm.trans (m.precedes_frame _)) (.framed hmade.stack .nil)
  simp only [inNested]
  cases hxm : x { m with frame := m.frame.nested } with
  | error e after => rw [hxm] at hrun; exact hrun
  | ok _ after =>
    rw [hxm] at hrun
    obtain ⟨hafter, hmadeAfter, -⟩ := hrun
    -- what the nested run has learned stays, and the enclosing frame was made when less was known
    have hback : m.Precedes { after with frame := m.frame } := ((m.precedes_frame _).trans hafter).trans (after.precedes_frame _)
    refine ⟨hback, hmade.later hback rfl, ?_⟩
    exact ⟨fun e he => (hmadeAfter.stack e he).later (after.precedes_frame _), hmadeAfter.code.later (after.precedes_frame _)⟩

theorem makes_paramsTo (base : Nat) : ∀ (m₀ : Machine) (depth n : Nat),
    Makes d m₀ (paramsTo base depth n) (fun es m => ∀ e ∈ es, e.Stacked d m)
  | _, _, 0 => .pure (fun _ _ => nofun)
  | _, depth, n + 1 => by
    unfold paramsTo
    refine .bind (makes_paramsTo base _ (depth + 1) n) (fun deeper m₁ _ hdeeper => ?_)
    refine .bind (makes_param _ _) (fun v m₂ h₂ hv => .pure (fun m hm => ?_))
    exact List.forall_mem_cons.2 ⟨hv.later hm, fun e he => (hdeeper e he).later (h₂.trans hm)⟩

theorem makes_fullView {g : Frame} (hg : ∀ e ∈ g.stack, e.Stacked d m₀) (drawn : Nat) :
    Makes d m₀ (fullView g drawn) (fun es m => ∀ e ∈ es, e.Stacked d m) :=
  .bind (makes_paramsTo _ _ _ _) (fun _ _ h₁ hparams => .pure (fun _ hm =>
    List.forall_mem_append.2 ⟨fun e he => (hg e he).later (h₁.trans hm), fun e he => (hparams e he).later hm⟩))

/-- Slots that have been merged, and what the sides store for them. -/
structure MergedMade (d : Dictionary) (m : Machine) (g : Merged) : Prop where
  stack : ∀ e ∈ g.stack, e.Stacked d m
  yes : Block.Made d m g.yes
  no : Block.Made d m g.no

theorem MergedMade.later {m m' : Machine} {g : Merged} (h : MergedMade d m g) (hm : m.Precedes m') : MergedMade d m' g :=
  ⟨fun e he => (h.stack e he).later hm, h.yes.later hm, h.no.later hm⟩

theorem makes_mergeSlot {yes no : Expr} {below : Merged} (hyes : yes.Stacked d m₀) (hno : no.Stacked d m₀)
    (hbelow : MergedMade d m₀ below) : Makes d m₀ (mergeSlot yes no below) (fun g m => MergedMade d m g) := by
  unfold mergeSlot
  refine .ite (fun _ => .pure (fun m hm => ?_)) (fun _ => .ite (fun _ => .throw) (fun _ => ?_))
  · have hlast := hbelow.later hm
    exact ⟨List.forall_mem_cons.2 ⟨hyes.later hm, hlast.stack⟩, hlast.yes, hlast.no⟩
  refine .bind (makes_tyOf _) (fun a m₁ h₁ _ => .bind (makes_tyOf _) (fun b m₂ h₂ _ => ?_))
  split
  · exact .throw
  · rename_i t _
    refine .bind (makes_check (hyes.later (h₁.trans h₂)) t _) (fun yes m₃ h₃ hyes => ?_)
    refine .bind (makes_check (hno.later (h₁.trans (h₂.trans h₃))) t _) (fun no m₄ h₄ hno => ?_)
    refine .bind (makes_newLocal t) (fun v m₅ h₅ hv => .bind (makes_emit (.bare v)) (fun _ m₆ h₆ _ => .pure (fun m hm => ?_)))
    have hfrom₄ := h₅.trans (h₆.trans hm)
    have hlast := hbelow.later (h₁.trans (h₂.trans (h₃.trans (h₄.trans hfrom₄))))
    have hyesLast := hyes.stacked.later (h₄.trans hfrom₄)
    have hnoLast := hno.stacked.later hfrom₄
    exact ⟨List.forall_mem_cons.2 ⟨hv.later (h₆.trans hm), hlast.stack⟩, hlast.yes.append (.store hyesLast.nodes),
      hlast.no.append (.store hnoLast.nodes)⟩

theorem makes_mergeSlots : ∀ (m₀ : Machine) {yes no : List Expr}, (∀ e ∈ yes, e.Stacked d m₀) → (∀ e ∈ no, e.Stacked d m₀) →
    Makes d m₀ (mergeSlots yes no) (fun g m => MergedMade d m g)
  | _, [], _, _, _ => .pure (fun _ _ => ⟨nofun, .nil, .nil⟩)
  | _, _ :: _, [], _, _ => .pure (fun _ _ => ⟨nofun, .nil, .nil⟩)
  | _, yes :: yeses, no :: nos, hyes, hno => by
    rw [List.forall_mem_cons] at hyes hno
    refine .bind (makes_mergeSlots _ hyes.2 hno.2) (fun below _ h₁ hbelow => ?_)
    exact makes_mergeSlot (hyes.1.later h₁) (hno.1.later h₁) hbelow

theorem makes_branch {run : Procedure → Eval Unit} (hrun : ∀ m p, Makes d m (run p) (fun _ _ => True)) :
    Makes d m₀ (branch run) (fun _ _ => True) := by
  unfold branch
  refine .bind (makes_popProcedure _) (fun no _ _ _ => .bind (makes_popProcedure _) (fun yes _ _ _ => ?_))
  refine .bind (makes_popTyped .int _) (fun c _ _ hc => ?_)
  refine .bind (makes_inNested (hrun _ yes)) (fun gy m₁ h₁ hy => .bind (makes_inNested (hrun _ no)) (fun gn m₂ h₂ hn => ?_))
  refine .bind (makes_fullView (fun e he => (hy.stack e he).later h₂) _) (fun yesView m₃ h₃ hyes => ?_)
  refine .bind (makes_fullView (fun e he => (hn.stack e he).later h₃) _) (fun noView m₄ h₄ hno => ?_)
  refine .ite (fun _ => ?_) (fun _ => .throw)
  refine .bind (makes_mergeSlots _ (fun e he => (hyes e he).later h₄) hno) (fun merged m₅ h₅ hmerged => ?_)
  have hfrom₂ := h₃.trans (h₄.trans h₅)
  have hcode : Block.Made d m₅ [.branch c (gy.code ++ merged.yes) (gn.code ++ merged.no)] :=
    .branch (hc.later (h₁.trans (h₂.trans hfrom₂))) ((hy.code.later (h₂.trans hfrom₂)).append hmerged.yes)
      ((hn.code.later hfrom₂).append hmerged.no)
  refine .bind (makes_emit hcode) (fun _ m₆ h₆ _ => ?_)
  exact .frame (f := fun g => { g with stack := merged.stack, drawn := g.drawn + _ })
    (fun _ hm hmade => ⟨fun e he => (hmerged.stack e he).later (h₆.trans hm), hmade.code⟩)

theorem makes_changedSlots : ∀ (m₀ : Machine) (vs : List VarId) {es : List Expr}, (∀ e ∈ es, e.Stacked d m₀) →
    Makes d m₀ (changedSlots vs es) (fun changed m => ∀ q ∈ changed, q.2.Stacked d m)
  | _, [], _, _ => .pure (fun _ _ => nofun)
  | _, _ :: _, [], _ => .pure (fun _ _ => nofun)
  | _, v :: vs, e :: es, h => by
    rw [List.forall_mem_cons] at h
    unfold changedSlots
    refine .bind (makes_changedSlots _ vs h.2) (fun below m₁ h₁ hbelow => .ite (fun _ => .pure (fun m hm => ?_)) (fun _ => ?_))
    · exact fun q hq => (hbelow q hq).later hm
    refine .bind (makes_tyOf _) (fun t m₂ h₂ _ => .bind (makes_check (h.1.later (h₁.trans h₂)) t _) (fun e m₃ h₃ he => ?_))
    refine .pure (fun m hm => List.forall_mem_append.2 ⟨fun q hq => ?_, List.forall_mem_singleton.2 (he.stacked.later hm)⟩)
    exact (hbelow q hq).later (h₂.trans (h₃.trans hm))

theorem makes_temporaries : ∀ (m₀ : Machine) {changed : List (VarId × Expr)}, (∀ q ∈ changed, q.2.Stacked d m₀) →
    Makes d m₀ (temporaries changed) (fun blocks m => Block.Made d m blocks.1 ∧ Block.Made d m blocks.2)
  | _, [], _ => .pure (fun _ _ => ⟨.nil, .nil⟩)
  | _, (v, e) :: rest, h => by
    rw [List.forall_mem_cons] at h
    unfold temporaries
    refine .bind (makes_tyOf _) (fun t m₁ h₁ _ => .bind (makes_newLocal t) (fun u m₂ h₂ hu => ?_))
    have hrest := fun q hq => (h.2 q hq).later (h₁.trans h₂)
    refine .bind (makes_temporaries _ hrest) (fun blocks m₃ h₃ hblocks => .pure (fun m hm => ?_))
    have hstore : Block.Made d m [.declare u (some e)] := .declare (h.1.later (h₁.trans (h₂.trans (h₃.trans hm)))).nodes
    have hmove : Block.Made d m [.assign (.var v) (.var u)] := .store (hu.later (h₃.trans hm)).nodes
    exact ⟨hstore.append (hblocks.1.later hm), hmove.append (hblocks.2.later hm)⟩

theorem makes_updates {changed : List (VarId × Expr)} (h : ∀ q ∈ changed, q.2.Stacked d m₀) :
    Makes d m₀ (updates changed) (fun b m => Block.Made d m b) := by
  unfold updates
  split
  · exact .pure (fun m hm => .store ((h _ List.mem_cons_self).later hm).nodes)
  · exact .bind (makes_temporaries _ h) (fun _ _ _ hblocks => .pure (fun _ hm => (hblocks.1.append hblocks.2).later hm))

theorem makes_loopTest {run : Eval Unit} (hrun : Makes d m₀ run (fun _ _ => True)) (start : List Expr) :
    Makes d m₀ (loopTest run start) (fun r m => Block.Made d m r.1 ∧ r.2.Suits d m .int) := by
  rw [loopTest_eq]
  refine .bind (makes_inNested hrun) (fun g m₁ h₁ hg => .ite (fun _ => .throw) (fun _ => ?_))
  split
  · exact .throw
  · rename_i value rest hstack
    have hvalue := hg.stack value (by rw [hstack]; exact List.mem_cons_self)
    refine .ite (fun _ => .bind (makes_check hvalue .int _) (fun value m₂ h₂ hvalue => ?_)) (fun _ => .throw)
    exact .ite (fun _ => .pure (fun m hm => ⟨hg.code.later (h₂.trans hm), hvalue.later hm⟩)) (fun _ => .throw)

theorem makes_loopBody {run : Eval Unit} (hrun : Makes d m₀ run (fun _ _ => True)) (vars : List VarId) :
    Makes d m₀ (loopBody run vars) (fun b m => Block.Made d m b) := by
  unfold loopBody
  refine .bind (makes_inNested hrun) (fun g m₁ h₁ hg => .ite (fun _ => .throw) (fun _ => .ite (fun _ => ?_) (fun _ => .throw)))
  refine .bind (makes_changedSlots _ vars hg.stack) (fun changed m₂ h₂ hchanged => ?_)
  refine .bind (makes_updates hchanged) (fun code m₃ h₃ hcode => ?_)
  exact .pure (fun m hm => (hg.code.later (h₂.trans (h₃.trans hm))).append (hcode.later hm))

theorem makes_loop {run : Procedure → Eval Unit} (hrun : ∀ m p, Makes d m (run p) (fun _ _ => True)) :
    Makes d m₀ (loop run) (fun _ _ => True) := by
  unfold loop
  refine .bind (makes_popProcedure _) (fun body _ _ _ => .bind (makes_popProcedure _) (fun condition _ _ _ => ?_))
  refine .bind (makes_spillAll _) (fun vars _ _ _ => .bind (makes_loopTest (hrun _ condition) _) (fun r m₁ _ hr => ?_))
  refine .bind (makes_loopBody (hrun _ body) vars) (fun code m₂ h₂ hcode => ?_)
  exact makes_emit (.loop (hr.1.later h₂) (hr.2.later h₂) hcode)

/-! ## Whole bodies -/

/-- Operands that have been taken have the types that were asked for. -/
theorem map_ty_of_suits {m : Machine} {ts : List Ty} {es : List Expr} (h : List.Forall₂ (fun t e => Expr.Suits d m t e) ts es)
    (hts : ∀ t ∈ ts, t ≠ .generic) : es.map (·.ty m.scope) = ts := by
  induction h with
  | nil => rfl
  | cons he _ ih =>
    rw [List.forall_mem_cons] at hts
    rw [List.map_cons, he.has hts.1, ih hts.2]

theorem nodesAll_of_suits {m : Machine} {ts : List Ty} {es : List Expr} (h : List.Forall₂ (fun t e => Expr.Suits d m t e) ts es) :
    ∀ x ∈ Expr.nodesAll es, x.Made d m := by
  induction h with
  | nil => exact nofun
  | cons he _ ih => exact List.forall_mem_append.2 ⟨he.stacked.nodes, ih⟩

/-- **A call of a method of the runtime**, with the operands it takes. -/
theorem nodes_runtime {m : Machine} {f : String} {ts : List Ty} {args : List Expr} {t : Ty} {effect : Bool}
    (hargs : List.Forall₂ (fun t e => Expr.Suits d m t e) ts args) (hf : operandTypes? f = some ts)
    (hlinked : ∀ h : Helper, h.name = f → h ∈ m.linkage.helpers) :
    ∀ x ∈ (Expr.call (.runtime f) args t effect).nodes, x.Made d m := by
  have htypes := map_ty_of_suits hargs (operandTypes?_known hf)
  refine List.forall_mem_cons.2 ⟨⟨.inl ?_, hlinked, ?_⟩, nodesAll_of_suits hargs⟩
  · rw [htypes, hf]
  · rintro rfl
    cases hf

theorem makes_callMethod {p method : String} {ts : List Ty} {t : Ty} (hm : operandTypes? method = some ts)
    (hlinked : ∀ h : Helper, h.name = method → h ∈ m₀.linkage.helpers) (ht : t ≠ .generic) :
    Makes d m₀ (callMethod p ts method t) (fun _ _ => True) :=
  .bind (makes_popArgs p _ ts) (fun _ _ h₁ hargs =>
    makes_push ⟨ht, nodes_runtime hargs hm (fun h hh => h₁.linkage.helpers h (hlinked h hh))⟩)

theorem makes_callHelper {p : String} {ts : List Ty} {h : Helper} {t : Ty} (hh : operandTypes? h.name = some ts)
    (ht : t ≠ .generic) : Makes d m₀ (callHelper p ts h t) (fun _ _ => True) := by
  refine .bind (makes_link h) (fun _ m₁ _ hlinked => makes_callMethod hh (fun h' heq => ?_) ht)
  rw [Helper.eq_of_name_eq heq]
  exact hlinked

theorem makes_callWriter {p method : String} {ts : List Ty} (hm : operandTypes? method = some ts)
    (hnamed : Helper.named? method = none) : Makes d m₀ (callWriter p ts method) (fun _ _ => True) :=
  .bind (makes_popArgs p _ ts) (fun _ _ _ hargs =>
    makes_emit (.eval (nodes_runtime hargs hm (fun h hh => absurd hh (h.name_ne hnamed)))))

theorem makes_operands {t : Ty} {p : String} {make : Expr → Expr → Expr}
    (hmake : ∀ m l r, Expr.Suits d m t l → Expr.Suits d m t r → (make l r).Stacked d m) :
    Makes d m₀ (do
      let right ← popTyped t p
      let left ← popTyped t p
      push (make left right)) (fun _ _ => True) :=
  .bind (makes_popTyped t p) (fun _ _ _ hr => .bind (makes_popTyped t p) (fun _ _ h₂ hl =>
    makes_push (hmake _ _ _ hl (hr.later h₂))))

theorem stacked_binary {m : Machine} {op : BinaryOp} {l r : Expr} (hl : l.Suits d m op.operandTy)
    (hr : r.Suits d m op.operandTy) : (Expr.binary op l r).Stacked d m := by
  have hop : op.operandTy ≠ .generic := by cases op <;> decide
  refine ⟨trivial, List.forall_mem_cons.2 ⟨⟨hl.has hop, hr.has hop⟩, ?_⟩⟩
  exact List.forall_mem_append.2 ⟨hl.stacked.nodes, hr.stacked.nodes⟩

theorem stacked_compare {m : Machine} {op : CompareOp} {l r : Expr} (h : op ≠ .eq → l.ty m.scope = .int ∧ r.ty m.scope = .int)
    (hl : l.Stacked d m) (hr : r.Stacked d m) : (Expr.compare op l r).Stacked d m :=
  ⟨trivial, List.forall_mem_cons.2 ⟨h, List.forall_mem_append.2 ⟨hl.nodes, hr.nodes⟩⟩⟩

theorem stacked_order {m : Machine} (op : CompareOp) {l r : Expr} (hl : l.Suits d m .int) (hr : r.Suits d m .int) :
    (Expr.compare op l r).Stacked d m :=
  stacked_compare (fun _ => ⟨hl.has (by decide), hr.has (by decide)⟩) hl.stacked hr.stacked

theorem makes_equal : Makes d m₀ equal (fun _ _ => True) := by
  unfold equal
  refine .bind (makes_popTyped .generic _) (fun right m₁ _ hr => .bind (makes_tyOf _) (fun t m₂ h₂ _ => ?_))
  refine .bind (makes_popTyped t _) (fun left m₃ h₃ hl => .bind (makes_tyOf _) (fun t' m₄ h₄ _ => ?_))
  refine .bind (makes_check (hr.stacked.later (h₂.trans (h₃.trans h₄))) t' _) (fun right m₅ h₅ hr => ?_)
  exact makes_push (stacked_compare (fun h => absurd rfl h) (hl.stacked.later (h₄.trans h₅)) hr.stacked)

/-- **What may be assigned has been declared**, with the type that is asked for. -/
theorem assignable_declared {n : String} {target : Target} {t : Ty} (h : assignable d n = .ok (target, t)) :
    (∃ id, target = .global id ∧ d.Global id t) ∨ (target = .entryVar n ∧ d.EntryVar n t) := by
  unfold assignable at h
  split at h <;> cases h
  all_goals rename_i hn
  · exact .inl ⟨_, rfl, _, _, hn, rfl⟩
  · exact .inl ⟨_, rfl, _, _, hn, rfl⟩
  · exact .inr ⟨rfl, _, hn, rfl⟩
  · exact .inr ⟨rfl, _, hn, rfl⟩

theorem makes_storeTop {t : Ty} {target : Target}
    (hstore : ∀ m e, m₀.Precedes m → Expr.Suits d m t e → Act.Made d m (.assign target e)) :
    Makes d m₀ (storeTop target t) (fun _ _ => True) :=
  .bind (makes_popTyped t _) (fun _ _ h₁ he => .bind (makes_spillWhere _) (fun _ _ h₂ _ =>
    makes_emit (.single (List.forall_mem_singleton.2 (hstore _ _ (h₁.trans h₂) (he.later h₂))))))

theorem makes_assign : Makes d m₀ (assign d) (fun _ _ => True) := by
  unfold assign
  refine .bind (makes_popAs _) (fun e _ _ _ => ?_)
  split
  · split
    · exact .throw
    · rename_i target t hassign
      dsimp only
      obtain ⟨id, rfl, hglobal⟩ | ⟨rfl, hentry⟩ := assignable_declared hassign
      · exact makes_storeTop (fun m e _ he => Act.made_global hglobal he)
      · refine .bind makes_touchEntry (fun _ m₁ _ htouched => ?_)
        exact makes_storeTop (fun m e hm he => Act.made_entryVar hentry (hm.entry htouched) he)
  · exact makes_mismatch _ _ _

theorem makes_missing : Makes d m₀ missing (fun _ _ => True) := by
  unfold missing
  refine .bind (makes_popAs _) (fun e _ _ he => .bind (makes_check he .generic _) (fun e _ _ he => ?_))
  split
  · rename_i field
    refine .bind makes_touchEntry (fun _ m₁ h₁ htouched => makes_push ⟨nofun, ?_⟩)
    refine List.forall_mem_cons.2 ⟨?_, List.forall_mem_singleton.2 trivial⟩
    exact ⟨.inr (by decide), fun h hh => absurd hh (h.name_ne (by decide)), fun _ => htouched⟩
  · refine .get (fun m hm _ => .ite (fun _ => ?_) (fun _ => makes_push (.leaf rfl trivial trivial)))
    refine .bind (makes_link _) (fun _ m₁ h₁ hlinked => makes_push ⟨nofun, List.forall_mem_cons.2 ⟨?_, ?_⟩⟩)
    · exact ⟨.inr (by decide), fun h hh => by rw [Helper.eq_of_name_eq hh]; exact hlinked, nofun⟩
    · exact List.forall_mem_append.2 ⟨(he.stacked.later (hm.trans h₁)).nodes, nofun⟩

theorem makes_callType : Makes d m₀ callType (fun _ _ => True) := by
  unfold callType
  refine .bind (makes_link _) (fun _ m₁ _ hlinked => .bind (makes_spillWhere _) (fun _ m₂ h₂ _ => ?_))
  refine .bind makes_touchEntry (fun _ m₃ h₃ htouched => makes_emit (.eval ?_))
  refine List.forall_mem_cons.2 ⟨?_, List.forall_mem_singleton.2 htouched⟩
  refine ⟨.inr (by decide), fun h hh => ?_, nofun⟩
  rw [Helper.eq_of_name_eq hh]
  exact h₃.linkage.helpers _ (h₂.linkage.helpers _ hlinked)

theorem makes_duplicate : Makes d m₀ duplicate (fun _ _ => True) :=
  .bind (makes_popAs _) (fun _ _ _ he => .bind (makes_push he) (fun _ _ h₂ _ => makes_push (he.later h₂)))

theorem makes_swap : Makes d m₀ swap (fun _ _ => True) :=
  .bind (makes_popAs _) (fun _ _ _ htop => .bind (makes_popAs _) (fun _ _ h₂ hbelow =>
    .bind (makes_push (htop.later h₂)) (fun _ _ h₃ _ => makes_push (hbelow.later h₃))))

/-- **A call of a function of the style** hands over the entry if it is wanted, and what was taken for the parameters. -/
theorem nodes_style {m : Machine} {n : String} {s : Signature} {args : List Expr} (hn : d.get? n = some (.routine s))
    (hargs : List.Forall₂ (fun t e => Expr.Suits d m t e) s.params args) (hentry : s.usesEntry = true → m.usesEntry = true) :
    ∀ x ∈ (Expr.call (.style s.method) (s.handed ++ args) s.result true).nodes, x.Made d m := by
  refine List.forall_mem_cons.2 ⟨⟨n, s, args, hn, rfl, rfl, hargs.imp (fun _ _ he => ⟨he.stacked.ne_entry, he.has⟩)⟩, ?_⟩
  intro x hx
  obtain ⟨e, he, hx⟩ := Expr.mem_nodesAll.1 hx
  rcases List.mem_append.1 he with he | he
  · unfold Signature.handed at he
    split at he
    · rename_i huses
      rw [List.mem_singleton.1 he] at hx
      rw [List.mem_singleton.1 hx]
      exact hentry huses
    · cases he
  · exact nodesAll_of_suits hargs x (Expr.mem_nodesAll.2 ⟨e, he, hx⟩)

theorem makes_invoke {n : String} {s : Signature} (hn : d.get? n = some (.routine s)) {args : List Expr}
    (hargs : List.Forall₂ (fun t e => Expr.Suits d m₀ t e) s.params args) (hentry : s.usesEntry = true → m₀.usesEntry = true) :
    Makes d m₀ (invoke s (s.handed ++ args)) (fun _ _ => True) := by
  refine .bind (makes_spillWhere _) (fun _ m₁ h₁ _ => ?_)
  have hnodes := fun m' (hm' : m₁.Precedes m') => nodes_style hn (hargs.imp (fun _ _ he => he.later (h₁.trans hm')))
    (fun huses => hm'.entry (h₁.entry (hentry huses)))
  refine .ite (fun _ => makes_emit (.eval (hnodes m₁ (.refl m₁)))) (fun _ => ?_)
  refine .bind (makes_newLocal _) (fun v m₂ h₂ hv => .bind (makes_emit (.declare (hnodes m₂ h₂))) (fun _ m₃ h₃ _ => ?_))
  exact makes_push (hv.later h₃)

theorem makes_callRoutine {n : String} {s : Signature} (hn : d.get? n = some (.routine s)) :
    Makes d m₀ (callRoutine n s) (fun _ _ => True) := by
  rw [callRoutine_eq]
  refine .bind (makes_popArgs n _ s.params) (fun args m₁ _ hargs => .ite (fun huses => ?_) (fun huses => ?_))
  · refine .bind makes_touchEntry (fun _ m₂ h₂ htouched => ?_)
    have hhanded : s.handed ++ args = .entry :: args := by simp [Signature.handed, huses]
    rw [← hhanded]
    exact makes_invoke hn (hargs.imp (fun _ _ he => he.later h₂)) (fun _ => htouched)
  · have hhanded : s.handed ++ args = args := by simp [Signature.handed, huses]
    rw [← hhanded]
    exact makes_invoke hn hargs (fun h => absurd h huses)

section Runs

variable {run : Procedure → Eval Unit} (hrun : ∀ m p, Makes d m (run p) (fun _ _ => True))

include hrun

theorem makes_primitive (p : Primitive) : Makes d m₀ (primitive d run p) (fun _ _ => True) := by
  cases p with
  | branch => exact makes_branch hrun
  | loop => exact makes_loop hrun
  | add | sub | concat => exact makes_operands (fun _ _ _ hl hr => stacked_binary hl hr)
  | lt | gt => exact makes_operands (fun _ _ _ hl hr => stacked_order _ hl hr)
  | eq => exact makes_equal
  | assign => exact makes_assign
  | callType => exact makes_callType
  | missing => exact makes_missing
  | clear => exact makes_clear
  | duplicate => exact makes_duplicate
  | swap => exact makes_swap
  | skip => exact .pure (fun _ _ => trivial)
  | quote => exact makes_push (.leaf rfl trivial trivial)
  | preamble => exact makes_push (.leaf rfl nofun ⟨by decide, fun h => absurd h (by decide)⟩)
  | cite | entryType =>
    exact .bind makes_touchEntry (fun _ _ _ htouched => makes_push (.leaf rfl nofun ⟨by decide, fun _ => htouched⟩))
  | pop | top => exact .bind (makes_popAs _) (fun _ _ _ _ => .pure (fun _ _ => trivial))
  | newline | warning | write => exact makes_callWriter rfl (by decide)
  | changeCase | intToStr | purify | width =>
    exact makes_callMethod rfl (fun h hh => absurd hh (h.name_ne (by decide))) (by decide)
  | addPeriod | chrToInt | empty | formatName | intToChr | numNames | substring | textLength | textPrefix =>
    exact makes_callHelper rfl (by decide)

theorem makes_name (n : String) : Makes d m₀ (name d run n) (fun _ _ => True) := by
  unfold name
  split
  · exact .throw
  · exact makes_primitive hrun _
  · rename_i hn
    exact makes_callRoutine hn
  · exact .bind makes_touchEntry (fun _ _ _ htouched => makes_push (.leaf rfl trivial htouched))
  · rename_i hn
    exact makes_push (.leaf rfl nofun ⟨_, _, hn, rfl⟩)
  · rename_i hn
    exact makes_push (.leaf rfl nofun ⟨_, _, hn, rfl⟩)
  · exact .bind makes_touchEntry (fun _ _ _ htouched => makes_push (.leaf rfl nofun htouched))
  · exact .bind makes_touchEntry (fun _ _ _ htouched => makes_push (.leaf rfl nofun htouched))
  · exact makes_push (.leaf rfl trivial trivial)

theorem makes_term (t : Term) : Makes d m₀ (term d run t) (fun _ _ => True) := by
  unfold term
  refine .bind (P := fun _ _ => True) (.modify (fun _ => rfl) (fun _ _ => ⟨⟨.refl _, .refl _, id⟩, trivial⟩)) (fun _ _ _ _ => ?_)
  cases t with
  | integer | string | quoted | block => exact makes_push (.leaf rfl trivial trivial)
  | name n => exact makes_name hrun n
  | field | entryInteger | entryString => exact .throw

theorem makes_terms : ∀ (m₀ : Machine) (ts : List Term), Makes d m₀ (terms d run ts) (fun _ _ => True)
  | _, [] => .pure (fun _ _ => trivial)
  | _, t :: ts => .bind (makes_term hrun t) (fun _ _ _ _ => makes_terms _ ts)

end Runs

/-- **Procedures make**, however deeply they run each other. -/
theorem makes_procedure : ∀ (depth : Nat) (m₀ : Machine) (p : Procedure), Makes d m₀ (procedure d depth p) (fun _ _ => True)
  | 0, _, _ => .throw
  | depth + 1, _, .group g => makes_terms (makes_procedure depth) _ g.terms
  | depth + 1, _, .named n => makes_name (makes_procedure depth) n

/-! ## Methods and commands -/

theorem start_made (d : Dictionary) (l : Linkage) (log : Array Event) : (Machine.start l log).Made d :=
  ⟨nofun, nofun⟩

/-- **What a run on a machine that is ready makes** is known with what is linked at its end; if it fails, what it has linked
stays linked. -/
def MakesAnew (x : Eval α) (Q : α → Machine → Prop) (linkage : Linkage) : Prop :=
  ∀ vars log, match x (.ready vars linkage log) with
    | .ok a m => linkage.Within m.linkage ∧ Q a m
    | .error _ m => linkage.Within m.linkage

theorem makes_routine (depth : Nat) (function method : String) (body : Group) (linkage : Linkage) :
    MakesAnew (routine d depth function method body)
      (fun r m => (r.name = function ∧ r.method = method) ∧ r.Made d m.linkage) linkage := by
  intro vars log
  have hmakes := makes_terms (makes_procedure (d := d) depth) _ body.terms _ (.refl _) (start_made d linkage log)
  rw [routine_apply, cleared_ready]
  cases hterms : terms d (procedure d depth) body.terms (.start linkage log) with
  | error e m => rw [hterms] at hmakes; exact hmakes
  | ok _ m =>
    rw [hterms] at hmakes
    obtain ⟨hprecedes, hmade, -⟩ := hmakes
    dsimp only
    cases hvalue : result function m.scope.named m.frame.stack with
    | error e => exact hprecedes.linkage
    | ok value =>
      have hknown : m.Precedes (.knowing m.scope.named m.linkage m.usesEntry) := ⟨m.scope.sharpens_named, .refl _, id⟩
      exact ⟨hprecedes.linkage, ⟨rfl, rfl⟩, hmade.code.later hknown,
        fun e he => ((hmade.stack e (result_mem hvalue e he)).later hknown).nodes⟩

theorem violation?_none {mode : RunMode} {m : Machine} (h : violation? mode m = none) :
    m.scope = .empty ∧ (mode = .execute → m.usesEntry = false) := by
  unfold violation? at h
  split at h
  · cases h
  split at h
  · cases h
  split at h
  · cases h
  rename_i _ hscope hentry
  refine ⟨?_, fun hmode => by simpa [hmode] using hentry⟩
  have hvars : m.scope.vars = #[] := by simpa [Variables.isEmpty, Scope.isEmpty] using hscope
  exact congrArg Scope.mk hvars

/-- **The code of a command** is done for entries, or touches none. -/
theorem makes_command (depth : Nat) (mode : RunMode) (function : String) (linkage : Linkage) :
    MakesAnew (command d depth mode function)
      (fun b m => ∀ q ∈ Stmt.actsAll false b, q.2.Made d (.knowing .empty m.linkage q.1)) linkage := by
  intro vars log
  have hmakes := makes_name (makes_procedure (d := d) depth) function _ (.refl _) (start_made d linkage log)
  rw [command_apply, cleared_ready]
  cases hname : name d (procedure d depth) function (.start linkage log) with
  | error e m => rw [hname] at hmakes; exact hmakes
  | ok _ m =>
    rw [hname] at hmakes
    obtain ⟨hprecedes, hmade, -⟩ := hmakes
    dsimp only
    cases hnone : violation? mode m with
    | some v => exact hprecedes.linkage
    | none =>
      obtain ⟨hscope, hentry⟩ := violation?_none hnone
      have hknown : ∀ entry, (m.usesEntry = true → entry = true) → m.Precedes (.knowing .empty m.linkage entry) :=
        fun entry he => ⟨by rw [hscope]; exact .refl _, .refl _, he⟩
      have heach : ∀ reverse, ∀ q ∈ Stmt.actsAll false [.each reverse m.frame.code],
          q.2.Made d (.knowing .empty m.linkage q.1) := by
        intro reverse q hq
        rw [Stmt.actsAll_single, Stmt.acts, Stmt.actsAll_true] at hq
        obtain ⟨p, hp, rfl⟩ := List.mem_map.1 hq
        exact (hmade.code p hp).later (hknown true (fun _ => rfl))
      refine ⟨hprecedes.linkage, ?_⟩
      cases mode with
      | execute =>
        refine fun q hq => (hmade.code q hq).later (hknown q.1 (fun he => ?_))
        rw [hentry rfl] at he
        cases he
      | iterate => exact heach false
      | reverse => exact heach true

end Eval
end Bibstyle
