import Bibstyle.Proofs.Triple
import Bibstyle.Proofs.Variables
/-!
# Typing — values have types

Only a method without a result is void: no variable is, and nothing that lies on a symbolic stack.  So a caller that looks
at the type of a method's result knows whether there is one.
-/
namespace Bibstyle

/-! ## Types other than void -/

/-- The type an expression carries is not void. -/
def Expr.Solid : Expr → Prop
  | .global _ t | .entryVar _ t | .call _ _ t _ | .verbatim _ t => t ≠ .void
  | _ => True

namespace Scope

/-- No variable is void. -/
def Solid (s : Scope) : Prop :=
  ∀ v, s.ty v ≠ .void

theorem ty_eq_map (s : Scope) (v : VarId) : s.ty v = ((s.get? v).map (·.ty)).getD .generic := by
  unfold ty
  cases s.get? v <;> rfl

theorem Solid.push {s : Scope} (h : s.Solid) (o : Origin) {t : Ty} (ht : t ≠ .void) : (s.push o t).Solid := by
  intro v
  simp only [ty, get?, Scope.push, Array.getElem?_push]
  split
  · rename_i heq
    split at heq
    · cases heq
      exact ht
    · have hv := h v
      simp only [ty, get?, heq] at hv
      exact hv
  · decide

theorem Solid.param {s : Scope} (h : s.Solid) (d : Nat) {t : Ty} (ht : t ≠ .void) : (s.param d t).2.Solid := by
  unfold Scope.param
  split
  · exact h
  · exact h.push _ ht

theorem Solid.refine {s : Scope} (h : s.Solid) (v : VarId) {t : Ty} (ht : t ≠ .void) : (s.refine v t).Solid := by
  intro x
  have hx := h x
  rw [ty_eq_map] at hx ⊢
  simp only [get?, Scope.refine, Array.getElem?_modify] at hx ⊢
  split
  · cases hget : s.vars[x]? with
    | none => simp
    | some y =>
      rw [hget] at hx
      simp only [Option.map_some, Option.getD_some] at hx ⊢
      split
      · exact ht
      · exact hx
  · exact hx

theorem ty_nameFrom (ps : List VarId) : ∀ (v k : Nat) (xs : List Variable) (i : Nat),
    (nameFrom ps v k xs)[i]?.map (·.ty) = xs[i]?.map (·.ty)
  | _, _, [], _ => rfl
  | v, k, x :: xs, i => by
    unfold nameFrom
    cases x.origin with
    | param depth =>
      cases i with
      | zero => simp
      | succ i => simpa using ty_nameFrom ps (v + 1) k xs i
    | «local» =>
      cases i with
      | zero => simp
      | succ i => simpa using ty_nameFrom ps (v + 1) (k + 1) xs i

theorem Solid.named {s : Scope} (h : s.Solid) : s.named.Solid := by
  intro v
  have hsame : (s.named.get? v).map (·.ty) = (s.get? v).map (·.ty) := by
    simpa [get?, Scope.named] using ty_nameFrom s.params 0 1 s.vars.toList v
  rw [ty_eq_map, hsame, ← ty_eq_map]
  exact h v

end Scope

theorem Expr.Solid.ty_ne {e : Expr} {s : Scope} (he : e.Solid) (hs : s.Solid) : e.ty s ≠ .void := by
  cases e with
  | var v => exact hs v
  | global | entryVar | call | verbatim => exact he
  | binary op => cases op <;> simp [Expr.ty]
  | int | str | quoted | field | entry | compare | block => simp [Expr.ty]

theorem Ty.unify?_ne {a b t : Ty} (ha : a ≠ .void) (hb : b ≠ .void) (h : a.unify? b = some t) : t ≠ .void := by
  unfold unify? at h
  split at h
  · cases h; exact ha
  · split at h
    · cases h; exact hb
    · split at h
      · cases h; exact ha
      · cases h

/-- Nothing a machine holds is void. -/
structure Machine.Solid (m : Machine) : Prop where
  scope : m.scope.Solid
  stack : ∀ e ∈ m.frame.stack, e.Solid

/-- No function takes a void argument. -/
def Dictionary.Solid (d : Dictionary) : Prop :=
  ∀ n sig, d.get? n = some (.routine sig) → ∀ t ∈ sig.params, t ≠ .void

namespace Eval

variable {α β : Type}

/-- **A run that keeps a machine free of void**, and gives something as wanted. -/
def Sound (x : Eval α) (out : α → Prop) : Prop :=
  Triple Machine.Solid x (fun a m => m.Solid ∧ out a) (fun _ => True)

section Rules

variable {o : α → Prop} {o' : β → Prop}

theorem Sound.bind {x : Eval α} {f : α → Eval β} (hx : Sound x o) (hf : ∀ a, o a → Sound (f a) o') :
    Sound (x >>= f) o' :=
  Triple.bind hx (fun a => .pointwise (fun m hm => (hf a hm.2).pre (fun m' h => by rw [h]; exact hm.1)))

theorem Sound.pure {a : α} (h : o a) : Sound (pure a) o :=
  Triple.pure (fun _ hm => ⟨hm, h⟩)

theorem Sound.throw {e : AnalysisFault} : Sound (throw e : Eval α) o :=
  Triple.throw (fun _ _ => trivial)

theorem Sound.ite {p : Prop} [Decidable p] {x y : Eval α} (hx : Sound x o) (hy : Sound y o) :
    Sound (if p then x else y) o := by
  split
  · exact hx
  · exact hy

theorem Sound.modify {f : Machine → Machine} (h : ∀ m : Machine, m.Solid → (f m).Solid) : Sound (modify f) (fun _ => True) :=
  Triple.modify (fun m hm => ⟨h m hm, trivial⟩)

end Rules

/-! ## Single operations -/

theorem sound_mismatch {out : α → Prop} (p t : String) (e : Expr) : Sound (mismatch p t e : Eval α) out :=
  Triple.mismatch (fun _ => trivial)

theorem sound_tyOf {e : Expr} (he : e.Solid) : Sound (tyOf e) (· ≠ .void) :=
  fun _ hm => ⟨hm, he.ty_ne hm.scope⟩

theorem sound_newLocal {t : Ty} (ht : t ≠ .void) : Sound (newLocal t) (fun _ => True) :=
  fun _ hm => ⟨⟨hm.scope.push _ ht, hm.stack⟩, trivial⟩

theorem sound_link (h : Helper) : Sound (link h) (fun _ => True) :=
  .modify (fun m hm => by split <;> exact ⟨hm.scope, hm.stack⟩)

theorem sound_touchEntry : Sound touchEntry (fun _ => True) :=
  .modify (fun _ hm => ⟨hm.scope, hm.stack⟩)

theorem sound_emit (t : Stmt) : Sound (emit t) (fun _ => True) :=
  .modify (fun _ hm => ⟨hm.scope, hm.stack⟩)

theorem sound_setStack {es : List Expr} (hes : ∀ e ∈ es, e.Solid) : Sound (setStack es) (fun _ => True) :=
  .modify (fun _ hm => ⟨hm.scope, hes⟩)

theorem sound_push {e : Expr} (he : e.Solid) : Sound (push e) (fun _ => True) :=
  .modify (fun _ hm => ⟨hm.scope, List.forall_mem_cons.2 ⟨he, hm.stack⟩⟩)

theorem sound_clear : Sound clear (fun _ => True) :=
  .modify (fun _ hm => ⟨hm.scope, fun e he => by cases he⟩)

theorem sound_popAs {t : Ty} (ht : t ≠ .void) : Sound (popAs t) Expr.Solid := by
  intro m hm
  cases hs : m.frame.stack with
  | nil =>
    rw [popAs_nil hs]
    exact ⟨⟨hm.scope.param _ ht, hm.stack⟩, trivial⟩
  | cons e rest =>
    rw [popAs_cons hs]
    have hstack := hm.stack
    rw [hs, List.forall_mem_cons] at hstack
    exact ⟨⟨hm.scope, hstack.2⟩, hstack.1⟩

theorem sound_check {e : Expr} {t : Ty} (he : e.Solid) (ht : t ≠ .void) (p : String) : Sound (check e t p) Expr.Solid := by
  unfold check
  refine .bind (sound_tyOf he) (fun found _ => .ite (sound_mismatch _ _ _) ?_)
  split
  · exact .bind (.modify (fun m hm => ⟨hm.scope.refine _ ht, hm.stack⟩)) (fun _ _ => .pure he)
  · exact .pure he

theorem sound_popTyped {t : Ty} (ht : t ≠ .void) (p : String) : Sound (popTyped t p) Expr.Solid :=
  .bind (sound_popAs ht) (fun _ he => sound_check he ht p)

theorem sound_popProcedure (p : String) : Sound (popProcedure p) (fun _ => True) := by
  unfold popProcedure
  refine .bind (sound_popAs (by decide)) (fun e _ => ?_)
  split
  · exact .pure trivial
  · exact .pure trivial
  · exact sound_mismatch _ _ _

theorem sound_popArgs (p : String) : ∀ {ts : List Ty}, (∀ t ∈ ts, t ≠ .void) → Sound (popArgs p ts) (fun _ => True)
  | [], _ => .pure trivial
  | t :: ts, h => by
    unfold popArgs
    refine .bind (sound_popArgs p (fun t ht => h t (List.mem_cons_of_mem _ ht))) (fun rest _ => ?_)
    exact .bind (sound_popTyped (h t List.mem_cons_self) p) (fun _ _ => .pure trivial)

theorem sound_spillSlots (which : Expr → Bool) : ∀ {es : List Expr}, (∀ e ∈ es, e.Solid) →
    Sound (spillSlots which es) (fun slots => ∀ e ∈ slots, e.Solid)
  | [], h => .pure h
  | e :: below, h => by
    rw [List.forall_mem_cons] at h
    unfold spillSlots
    refine .bind (sound_spillSlots which h.2) (fun slots hslots => .ite ?_ (.pure (List.forall_mem_cons.2 ⟨h.1, hslots⟩)))
    refine .bind (sound_tyOf h.1) (fun t ht => .bind (sound_newLocal ht) (fun v _ => .bind (sound_emit _) (fun _ _ => ?_)))
    exact .pure (List.forall_mem_cons.2 ⟨trivial, hslots⟩)

/-- Looking at the machine. -/
theorem Sound.get {out : β → Prop} {f : Machine → Eval β} (h : ∀ m, m.Solid → Sound (f m) out) :
    Sound (get >>= f) out :=
  Triple.bind .get (fun m => .pointwise (fun m' hm => by
    obtain ⟨rfl, hm⟩ := hm
    exact (h m hm).pre (fun m' hm' => by rw [hm']; exact hm)))

theorem sound_spillWhere (changes : Expr → Bool) : Sound (spillWhere changes) (fun _ => True) :=
  .get (fun _ hm => .bind (sound_spillSlots _ hm.stack) (fun _ hslots => sound_setStack hslots))

theorem sound_spillAll (p : String) : Sound (spillAll p) (fun _ => True) := by
  unfold spillAll
  refine .get (fun m hm => ?_)
  dsimp only
  have hsplit := take_append_values m.frame.stack
  have hstack := hm.stack
  rw [← hsplit] at hstack
  refine .bind (sound_spillSlots _ (fun e he => hstack e (List.mem_append_right _ he))) (fun slots hslots => ?_)
  refine .bind (sound_setStack (fun e he => ?_)) (fun _ _ => .ite (.pure trivial) .throw)
  exact (List.mem_append.1 he).elim (fun he => hstack e (List.mem_append_left _ he)) (hslots e)

/-! ## Branches and loops -/

theorem sound_inNested {x : Eval Unit} (hx : Sound x (fun _ => True)) :
    Sound (inNested x) (fun g => ∀ e ∈ g.stack, e.Solid) := by
  intro m hm
  have hrun := hx { m with frame := m.frame.nested } ⟨hm.scope, hm.stack⟩
  simp only [inNested]
  cases hxm : x { m with frame := m.frame.nested } with
  | ok _ after =>
    rw [hxm] at hrun
    exact ⟨⟨hrun.1.scope, hm.stack⟩, hrun.1.stack⟩
  | error e after => trivial

theorem sound_paramsTo (base : Nat) : ∀ depth n : Nat, Sound (paramsTo base depth n) (fun es => ∀ e ∈ es, e.Solid)
  | _, 0 => .pure (fun e he => by cases he)
  | depth, n + 1 => by
    unfold paramsTo
    refine .bind (sound_paramsTo base (depth + 1) n) (fun deeper h => .bind (o := fun _ => True) ?_ (fun v _ => ?_))
    · exact .param (fun m hm => ⟨⟨hm.scope.param _ (by decide), hm.stack⟩, trivial⟩)
    · exact .pure (List.forall_mem_cons.2 ⟨trivial, h⟩)

theorem sound_fullView {g : Frame} (hg : ∀ e ∈ g.stack, e.Solid) (drawn : Nat) :
    Sound (fullView g drawn) (fun es => ∀ e ∈ es, e.Solid) :=
  .bind (sound_paramsTo _ _ _) (fun _ h => .pure (fun e he => (List.mem_append.1 he).elim (hg e) (h e)))

theorem sound_mergeSlot {yes no : Expr} {below : Merged} (hyes : yes.Solid) (hno : no.Solid)
    (hbelow : ∀ e ∈ below.stack, e.Solid) : Sound (mergeSlot yes no below) (fun g => ∀ e ∈ g.stack, e.Solid) := by
  unfold mergeSlot
  refine .ite (.pure (List.forall_mem_cons.2 ⟨hyes, hbelow⟩)) (.ite .throw ?_)
  refine .bind (sound_tyOf hyes) (fun a ha => .bind (sound_tyOf hno) (fun b hb => ?_))
  split
  · exact .throw
  · rename_i t ht
    have ht := Ty.unify?_ne ha hb ht
    refine .bind (sound_check hyes ht _) (fun _ _ => .bind (sound_check hno ht _) (fun _ _ => ?_))
    refine .bind (sound_newLocal ht) (fun v _ => .bind (sound_emit _) (fun _ _ => ?_))
    exact .pure (List.forall_mem_cons.2 ⟨trivial, hbelow⟩)

theorem sound_mergeSlots : ∀ {yes no : List Expr}, (∀ e ∈ yes, e.Solid) → (∀ e ∈ no, e.Solid) →
    Sound (mergeSlots yes no) (fun g => ∀ e ∈ g.stack, e.Solid)
  | [], _, _, _ => .pure (fun e he => by cases he)
  | _ :: _, [], _, _ => .pure (fun e he => by cases he)
  | yes :: yeses, no :: nos, hyes, hno => by
    rw [List.forall_mem_cons] at hyes hno
    exact .bind (sound_mergeSlots hyes.2 hno.2) (fun below hbelow => sound_mergeSlot hyes.1 hno.1 hbelow)

theorem sound_branch {run : Procedure → Eval Unit} (hrun : ∀ p, Sound (run p) (fun _ => True)) :
    Sound (branch run) (fun _ => True) := by
  unfold branch
  refine .bind (sound_popProcedure _) (fun no _ => .bind (sound_popProcedure _) (fun yes _ => ?_))
  refine .bind (sound_popTyped (by decide) _) (fun e _ => ?_)
  refine .bind (sound_inNested (hrun yes)) (fun gy hy => .bind (sound_inNested (hrun no)) (fun gn hn => ?_))
  refine .bind (sound_fullView hy _) (fun yesView hyes => .bind (sound_fullView hn _) (fun noView hno => .ite ?_ .throw))
  refine .bind (sound_mergeSlots hyes hno) (fun merged hmerged => .bind (sound_emit _) (fun _ _ => ?_))
  exact .modify (fun _ hm => ⟨hm.scope, hmerged⟩)

theorem sound_changedSlots : ∀ (vs : List VarId) {es : List Expr}, (∀ e ∈ es, e.Solid) →
    Sound (changedSlots vs es) (fun changed => ∀ q ∈ changed, q.2.Solid)
  | [], _, _ => .pure (fun q hq => by cases hq)
  | _ :: _, [], _ => .pure (fun q hq => by cases hq)
  | v :: vs, e :: es, h => by
    rw [List.forall_mem_cons] at h
    unfold changedSlots
    refine .bind (sound_changedSlots vs h.2) (fun below hbelow => .ite (.pure hbelow) ?_)
    refine .bind (sound_tyOf (e := .var v) trivial) (fun t ht => .bind (sound_check h.1 ht _) (fun e he => .pure (fun q hq => ?_)))
    rcases List.mem_append.1 hq with hq | hq
    · exact hbelow q hq
    · rw [List.mem_singleton.1 hq]
      exact he

theorem sound_temporaries : ∀ {changed : List (VarId × Expr)}, (∀ q ∈ changed, q.2.Solid) →
    Sound (temporaries changed) (fun _ => True)
  | [], _ => .pure trivial
  | (v, e) :: rest, h => by
    rw [List.forall_mem_cons] at h
    unfold temporaries
    refine .bind (sound_tyOf h.1) (fun t ht => .bind (sound_newLocal ht) (fun v _ => ?_))
    exact .bind (sound_temporaries h.2) (fun _ _ => .pure trivial)

theorem sound_updates {changed : List (VarId × Expr)} (h : ∀ q ∈ changed, q.2.Solid) :
    Sound (updates changed) (fun _ => True) := by
  unfold updates
  split
  · exact .pure trivial
  · exact .bind (sound_temporaries h) (fun _ _ => .pure trivial)

theorem sound_loop {run : Procedure → Eval Unit} (hrun : ∀ p, Sound (run p) (fun _ => True)) :
    Sound (loop run) (fun _ => True) := by
  unfold loop
  refine .bind (sound_popProcedure _) (fun body _ => .bind (sound_popProcedure _) (fun condition _ => ?_))
  refine .bind (sound_spillAll _) (fun vs _ => .bind (o := fun _ => True) ?_ (fun r _ => ?_))
  · rw [loopTest_eq]
    refine .bind (sound_inNested (hrun condition)) (fun g hg => .ite .throw ?_)
    split
    · exact .throw
    · rename_i value rest hstack
      rw [hstack, List.forall_mem_cons] at hg
      exact .ite (.bind (sound_check hg.1 (by decide) _) (fun _ _ => .ite (.pure trivial) .throw)) .throw
  · refine .bind (o := fun _ => True) ?_ (fun _ _ => sound_emit _)
    unfold loopBody
    refine .bind (sound_inNested (hrun body)) (fun g hg => .ite .throw (.ite ?_ .throw))
    exact .bind (sound_changedSlots vs hg) (fun _ h => .bind (sound_updates h) (fun _ _ => .pure trivial))

/-! ## Whole bodies -/

theorem sound_callMethod (p : String) {ts : List Ty} (m : String) {t : Ty} (hts : ∀ t ∈ ts, t ≠ .void) (ht : t ≠ .void) :
    Sound (callMethod p ts m t) (fun _ => True) :=
  .bind (sound_popArgs p hts) (fun _ _ => sound_push ht)

theorem sound_callHelper (p : String) {ts : List Ty} (h : Helper) {t : Ty} (hts : ∀ t ∈ ts, t ≠ .void) (ht : t ≠ .void) :
    Sound (callHelper p ts h t) (fun _ => True) :=
  .bind (sound_link h) (fun _ _ => sound_callMethod p _ hts ht)

theorem sound_callWriter (p : String) {ts : List Ty} (m : String) (hts : ∀ t ∈ ts, t ≠ .void) :
    Sound (callWriter p ts m) (fun _ => True) :=
  .bind (sound_popArgs p hts) (fun _ _ => sound_emit _)

theorem sound_operands {t : Ty} {p : String} {make : Expr → Expr → Expr} (ht : t ≠ .void) (hmake : ∀ l r, (make l r).Solid) :
    Sound (do
      let right ← popTyped t p
      let left ← popTyped t p
      push (make left right)) (fun _ => True) :=
  .bind (sound_popTyped ht p) (fun _ _ => .bind (sound_popTyped ht p) (fun _ _ => sound_push (hmake _ _)))

theorem sound_equal : Sound equal (fun _ => True) := by
  unfold equal
  refine .bind (sound_popTyped (by decide) _) (fun right hr => .bind (sound_tyOf hr) (fun t ht => ?_))
  refine .bind (sound_popTyped ht _) (fun left hl => .bind (sound_tyOf hl) (fun t' ht' => ?_))
  exact .bind (sound_check hr ht' _) (fun _ _ => sound_push trivial)

theorem assignable_ne {dict : Dictionary} {n : String} {target : Target} {t : Ty}
    (h : assignable dict n = .ok (target, t)) : t ≠ .void := by
  unfold assignable at h
  split at h <;> cases h <;> decide

theorem sound_storeTop (target : Target) {t : Ty} (ht : t ≠ .void) : Sound (storeTop target t) (fun _ => True) :=
  .bind (sound_popTyped ht _) (fun _ _ => .bind (sound_spillWhere _) (fun _ _ => sound_emit _))

theorem sound_assign (dict : Dictionary) : Sound (assign dict) (fun _ => True) := by
  unfold assign
  refine .bind (sound_popAs (by decide)) (fun e _ => ?_)
  split
  · split
    · exact .throw
    · rename_i target t hassign
      dsimp only
      split
      · exact .bind sound_touchEntry (fun _ _ => sound_storeTop _ (assignable_ne hassign))
      · exact sound_storeTop _ (assignable_ne hassign)
  · exact sound_mismatch _ _ _

theorem sound_missing : Sound missing (fun _ => True) := by
  unfold missing
  refine .bind (sound_popAs (by decide)) (fun e he => .bind (sound_check he (by decide) _) (fun e _ => ?_))
  split
  · exact .bind sound_touchEntry (fun _ _ => sound_push nofun)
  · refine .get (fun m _ => .ite ?_ (sound_push trivial))
    exact .bind (sound_link _) (fun _ _ => sound_push nofun)

theorem sound_callType : Sound callType (fun _ => True) :=
  .bind (sound_link _) (fun _ _ => .bind (sound_spillWhere _) (fun _ _ =>
    .bind sound_touchEntry (fun _ _ => sound_emit _)))

theorem sound_duplicate : Sound duplicate (fun _ => True) :=
  .bind (sound_popAs (by decide)) (fun _ he => .bind (sound_push he) (fun _ _ => sound_push he))

theorem sound_swap : Sound swap (fun _ => True) :=
  .bind (sound_popAs (by decide)) (fun _ htop => .bind (sound_popAs (by decide)) (fun _ hbelow =>
    .bind (sound_push htop) (fun _ _ => sound_push hbelow)))

theorem sound_invoke (s : Signature) (args : List Expr) : Sound (invoke s args) (fun _ => True) := by
  refine .bind (sound_spillWhere _) (fun _ _ => ?_)
  by_cases hvoid : s.result = .void
  · rw [if_pos hvoid]
    exact sound_emit _
  · rw [if_neg hvoid]
    exact .bind (sound_newLocal hvoid) (fun v _ => .bind (sound_emit _) (fun _ _ => sound_push trivial))

theorem sound_callRoutine (n : String) {s : Signature} (hs : ∀ t ∈ s.params, t ≠ .void) :
    Sound (callRoutine n s) (fun _ => True) := by
  rw [callRoutine_eq]
  refine .bind (sound_popArgs n hs) (fun args _ => ?_)
  split
  · exact .bind sound_touchEntry (fun _ _ => sound_invoke s _)
  · exact sound_invoke s _

section Runs

variable {run : Procedure → Eval Unit} (hrun : ∀ p, Sound (run p) (fun _ => True))

include hrun

theorem sound_primitive (dict : Dictionary) (p : Primitive) : Sound (primitive dict run p) (fun _ => True) := by
  cases p with
  | branch => exact sound_branch hrun
  | loop => exact sound_loop hrun
  | add | sub | concat | lt | gt => exact sound_operands (by decide) (fun _ _ => trivial)
  | eq => exact sound_equal
  | assign => exact sound_assign dict
  | callType => exact sound_callType
  | missing => exact sound_missing
  | clear => exact sound_clear
  | duplicate => exact sound_duplicate
  | swap => exact sound_swap
  | skip => exact .pure trivial
  | quote => exact sound_push trivial
  | preamble => exact sound_push nofun
  | cite | entryType => exact .bind sound_touchEntry (fun _ _ => sound_push nofun)
  | pop | top => exact .bind (sound_popAs (by decide)) (fun _ _ => .pure trivial)
  | newline | warning | write => exact sound_callWriter _ _ (by decide)
  | changeCase | intToStr | purify | width => exact sound_callMethod _ _ (by decide) (by decide)
  | addPeriod | chrToInt | empty | formatName | intToChr | numNames | substring | textLength | textPrefix =>
    exact sound_callHelper _ _ (by decide) (by decide)

variable {dict : Dictionary} (hdict : dict.Solid)

include hdict

theorem sound_name (n : String) : Sound (name dict run n) (fun _ => True) := by
  unfold name
  split
  · exact .throw
  · exact sound_primitive hrun dict _
  · rename_i s hs
    exact sound_callRoutine n (hdict n s hs)
  · exact .bind sound_touchEntry (fun _ _ => sound_push trivial)
  · exact sound_push nofun
  · exact sound_push nofun
  · exact .bind sound_touchEntry (fun _ _ => sound_push nofun)
  · exact .bind sound_touchEntry (fun _ _ => sound_push nofun)
  · exact sound_push trivial

theorem sound_term (t : Term) : Sound (term dict run t) (fun _ => True) := by
  unfold term
  refine .bind (.modify (fun _ hm => ⟨hm.scope, hm.stack⟩)) (fun _ _ => ?_)
  cases t with
  | integer | string | quoted | block => exact sound_push trivial
  | name n => exact sound_name hrun hdict n
  | field | entryInteger | entryString => exact .throw

theorem sound_terms : ∀ ts : List Term, Sound (terms dict run ts) (fun _ => True)
  | [] => .pure trivial
  | t :: ts => .bind (sound_term hrun hdict t) (fun _ _ => sound_terms ts)

end Runs

theorem sound_procedure {dict : Dictionary} (hdict : dict.Solid) :
    ∀ (depth : Nat) (p : Procedure), Sound (procedure dict depth p) (fun _ => True)
  | 0, _ => .throw
  | depth + 1, .group g => sound_terms (sound_procedure hdict depth) hdict g.terms
  | depth + 1, .named n => sound_name (sound_procedure hdict depth) hdict n

end Eval

/-- **The signature of a method tells whether it has a result**, and no argument is void. -/
structure Routine.Solid (r : Routine) : Prop where
  params : ∀ t ∈ r.signature.params, t ≠ .void
  result : r.signature.result = .void ↔ r.result = none

namespace Eval

/-- **Methods are compiled with signatures that tell.** -/
theorem routine_solid {dict : Dictionary} (hdict : dict.Solid) (depth : Nat) (function method : String) (body : Group) :
    Triple (fun m => m.cleared.Solid) (routine dict depth function method body) (fun r _ => r.Solid)
      (fun _ => True) := by
  refine .routine (sound_terms (sound_procedure hdict depth) hdict body.terms) (fun _ _ _ _ => trivial) ?_
  intro m value ⟨hm, _⟩ hvalue
  have hscope : m.scope.named.Solid := hm.scope.named
  refine ⟨fun t ht => ?_, ?_⟩
  · obtain ⟨v, -, rfl⟩ := List.mem_map.1 ht
    exact hscope v
  · cases value with
    | none => exact ⟨fun _ => rfl, fun _ => rfl⟩
    | some e =>
      have hsolid : e.Solid := hm.stack e (result_mem hvalue e rfl)
      exact ⟨fun h => absurd h (hsolid.ty_ne hscope), nofun⟩

theorem start_solid (linkage : Linkage) (log : Array Event) : (Machine.start linkage log).Solid :=
  ⟨fun v => by simp [Machine.start, Machine.ready, Variables.empty, Scope.ty, Scope.get?, Scope.empty], nofun⟩

end Eval
end Bibstyle
