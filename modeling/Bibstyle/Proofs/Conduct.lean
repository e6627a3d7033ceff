import Bibstyle.Proofs.Making
import Bibstyle.Proofs.Purity
/-!
# Conduct — symbolic runs stay proper

A run starts on a proper machine and ends on one, whether it fails or not, and its scope only grows.  What it takes off the
stack is as it was put there, so whatever it builds is proper again.  A run fails with a fault of its own only where a body
is at fault: that the grammar lets no term through that has no place in a body is the body's part of it.
-/
namespace Bibstyle

/-- Whether a fault is one that no style should ever bring about. -/
def AnalysisFault.isInternal : AnalysisFault → Bool
  | impossible _ | problem _ => true
  | _ => false

/-- The terms of a procedure: one that is only named has none of its own. -/
def Procedure.terms : Procedure → List Term
  | group g => g.terms
  | named _ => []

/-- **What a run is to expect**: the procedures that lie on the stack, and the faults it may have. -/
structure Custom where
  procedure : Procedure → Prop
  fault : AnalysisFault → Prop

namespace Custom

/-- A term that brings only what is expected. -/
def Admits (c : Custom) : Term → Prop
  | .quoted n _ => c.procedure (.named n)
  | .block ts span => c.procedure (.group ⟨ts, span⟩)
  | .field n span => c.fault (.impossible (.inBody (.field n span)))
  | .entryInteger n span => c.fault (.impossible (.inBody (.entryInteger n span)))
  | .entryString n span => c.fault (.impossible (.inBody (.entryString n span)))
  | .integer _ _ | .string _ _ | .name _ _ => True

/-- What is expected of a procedure is expected of its terms, and any fault of a style is. -/
structure Lawful (c : Custom) : Prop where
  terms : ∀ p : Procedure, c.procedure p → ∀ t ∈ p.terms, c.Admits t
  faults : ∀ e : AnalysisFault, e.isInternal = false → c.fault e

/-- Whatever comes is expected. -/
def any : Custom :=
  ⟨fun _ => True, fun _ => True⟩

theorem admits_any (t : Term) : any.Admits t := by
  cases t <;> trivial

theorem lawful_any : any.Lawful :=
  ⟨fun _ _ t _ => admits_any t, fun _ _ => trivial⟩

end Custom

/-! ## Machines -/

/-- **What may lie on a stack**, in a scope of `n` variables. -/
structure Expr.Lies (c : Custom) (n : Nat) (e : Expr) : Prop where
  nodes : ∀ x ∈ e.nodes, x.Proper n
  calm : e.isEffect = false
  known : ∀ s, e.isValue = true → e.ty s = .generic → ∃ v, e = .var v
  procedure : ∀ p : Procedure, e = p.toExpr → c.procedure p

/-- **A frame that is proper.** -/
structure Frame.Proper (c : Custom) (n : Nat) (f : Frame) : Prop where
  stack : ∀ e ∈ f.stack, e.Lies c n
  code : Block.Proper n f.code

/-- **A machine that is proper.** -/
def Machine.Proper (c : Custom) (m : Machine) : Prop :=
  m.frame.Proper c m.scope.vars.size

section Lies

variable {c : Custom} {n k : Nat}

theorem Expr.Lies.mono {e : Expr} (h : e.Lies c n) (hk : n ≤ k) : e.Lies c k :=
  { h with nodes := fun x hx => (h.nodes x hx).mono hk }

theorem Expr.lies_all_mono {es : List Expr} (h : ∀ e ∈ es, e.Lies c n) (hk : n ≤ k) : ∀ e ∈ es, e.Lies c k :=
  fun e he => (h e he).mono hk

theorem Frame.Proper.mono {f : Frame} (h : f.Proper c n) (hk : n ≤ k) : f.Proper c k :=
  ⟨Expr.lies_all_mono h.stack hk, h.code.mono hk⟩

/-- Whatever says its type itself may lie on a stack, if it is proper. -/
theorem Expr.Lies.of_value {e : Expr} (hnodes : ∀ x ∈ e.nodes, x.Proper n) (hoperand : e.IsOperand)
    (hty : ∀ s, e.ty s ≠ .generic) : e.Lies c n := by
  refine ⟨hnodes, hoperand.2, fun s _ hs => absurd hs (hty s), fun p hp => ?_⟩
  have hvalue := hoperand.1
  rw [hp] at hvalue
  cases p <;> cases hvalue

theorem Expr.Lies.var {v : VarId} (hv : v < n) : (Expr.var v).Lies c n :=
  ⟨List.forall_mem_singleton.2 hv, rfl, fun _ _ _ => ⟨v, rfl⟩, fun p hp => by cases p <;> cases hp⟩

theorem Expr.Lies.of_procedure {p : Procedure} (h : c.procedure p) : p.toExpr.Lies c n := by
  cases p with
  | group | named =>
    refine ⟨List.forall_mem_singleton.2 trivial, rfl, nofun, fun q hq => ?_⟩
    cases q <;> cases hq
    exact h

/-- A value that has been taken off a stack. -/
structure Expr.Taken (c : Custom) (n : Nat) (e : Expr) : Prop where
  lies : e.Lies c n
  value : e.isValue = true

theorem Expr.Taken.mono {e : Expr} (h : e.Taken c n) (hk : n ≤ k) : e.Taken c k :=
  ⟨h.lies.mono hk, h.value⟩

theorem Expr.Taken.operand {e : Expr} (h : e.Taken c n) : e.IsOperand :=
  ⟨h.value, h.lies.calm⟩

/-- The new value of a variable. -/
theorem Expr.Taken.store {v : VarId} {e : Expr} (h : e.Taken c n) (hv : v < k) (hk : n ≤ k) :
    Block.Proper k [.assign (.var v) e] :=
  .assign (fun w hw => by cases hw; exact hv) (h.mono hk).lies.nodes h.operand

theorem Expr.nodesAll_of_taken {es : List Expr} (h : ∀ e ∈ es, e.Taken c n) : ∀ x ∈ nodesAll es, x.Proper n := by
  intro x hx
  obtain ⟨e, he, hx⟩ := mem_nodesAll.1 hx
  exact (h e he).lies.nodes x hx

/-- A call of what has been taken off a stack. -/
theorem Expr.nodes_call {callee : Callee} {args : List Expr} {t : Ty} {effect : Bool} (h : ∀ e ∈ args, e.Taken c n) :
    ∀ x ∈ (Expr.call callee args t effect).nodes, x.Proper n :=
  List.forall_mem_cons.2 ⟨fun e he => (h e he).operand, nodesAll_of_taken h⟩

/-- A call that hands over the entry before what has been taken. -/
theorem Expr.nodes_entry_call {callee : Callee} {args : List Expr} {t : Ty} {effect : Bool} (h : ∀ e ∈ args, e.Taken c n) :
    ∀ x ∈ (Expr.call callee (.entry :: args) t effect).nodes, x.Proper n := by
  refine List.forall_mem_cons.2 ⟨List.forall_mem_cons.2 ⟨⟨rfl, rfl⟩, fun e he => (h e he).operand⟩, ?_⟩
  exact List.forall_mem_cons.2 ⟨trivial, nodesAll_of_taken h⟩

theorem Expr.lies_call {callee : Callee} {args : List Expr} {t : Ty} (h : ∀ e ∈ args, e.Taken c n) (ht : t ≠ .generic) :
    (Expr.call callee args t false).Lies c n :=
  .of_value (nodes_call h) ⟨rfl, rfl⟩ (fun _ => ht)

theorem Expr.lies_binary {op : BinaryOp} {l r : Expr} (hl : l.Taken c n) (hr : r.Taken c n) :
    (Expr.binary op l r).Lies c n := by
  refine .of_value (List.forall_mem_cons.2 ⟨⟨hl.operand, hr.operand⟩, ?_⟩) ⟨rfl, rfl⟩ (fun _ => ?_)
  · exact List.forall_mem_append.2 ⟨hl.lies.nodes, hr.lies.nodes⟩
  · cases op <;> exact nofun

theorem Expr.lies_compare {op : CompareOp} {l r : Expr} (hl : l.Taken c n) (hr : r.Taken c n) :
    (Expr.compare op l r).Lies c n := by
  refine .of_value (List.forall_mem_cons.2 ⟨⟨hl.operand, hr.operand⟩, ?_⟩) ⟨rfl, rfl⟩ (fun _ => nofun)
  exact List.forall_mem_append.2 ⟨hl.lies.nodes, hr.lies.nodes⟩

/-- Whatever has no parts and says its type itself may lie on a stack. -/
theorem Expr.Lies.leaf {e : Expr} (hleaf : e.nodes = [e]) (hproper : e.Proper n) (hoperand : e.IsOperand)
    (hty : ∀ s, e.ty s ≠ .generic) : e.Lies c n := by
  refine .of_value ?_ hoperand hty
  rw [hleaf]
  exact List.forall_mem_singleton.2 hproper

end Lies

/-! ## Scopes -/

namespace Scope

theorem size_param (s : Scope) (depth : Nat) (t : Ty) :
    s.vars.size ≤ (s.param depth t).2.vars.size ∧ (s.param depth t).1 < (s.param depth t).2.vars.size := by
  unfold param
  split
  · rename_i v hv
    obtain ⟨hlt, -⟩ := Array.findIdx?_eq_some_iff_getElem.1 hv
    exact ⟨Nat.le_refl _, hlt⟩
  · simp [push]

theorem size_newLocal (s : Scope) (t : Ty) :
    s.vars.size ≤ (s.newLocal t).2.vars.size ∧ (s.newLocal t).1 < (s.newLocal t).2.vars.size := by
  simp [newLocal, push]

theorem size_refine (s : Scope) (v : VarId) (t : Ty) : (s.refine v t).vars.size = s.vars.size := by
  simp [refine]

theorem length_nameFrom (params : List VarId) : ∀ (v k : Nat) (xs : List Variable),
    (nameFrom params v k xs).length = xs.length
  | _, _, [] => rfl
  | v, k, x :: xs => by
    unfold nameFrom
    split <;> rw [List.length_cons, List.length_cons, length_nameFrom]

theorem size_named (s : Scope) : s.named.vars.size = s.vars.size := by
  simp [named, length_nameFrom]

theorem lt_of_mem_params {s : Scope} {v : VarId} (h : v ∈ s.params) : v < s.vars.size := by
  obtain ⟨depth, horigin⟩ := mem_params.1 h
  refine Nat.lt_of_not_le (fun hge => ?_)
  rw [origin?, get?, Array.getElem?_eq_none hge] at horigin
  cases horigin

end Scope

/-! ## Runs -/

namespace Eval

variable {α β : Type} {c : Custom} {n : Nat}

/-- **A run that stays proper**, on every proper machine with at least `n` variables. -/
def Proper (c : Custom) (n : Nat) (x : Eval α) (Q : α → Nat → Prop) : Prop :=
  ∀ m, n ≤ m.scope.vars.size → m.Proper c → match x m with
    | .ok a m' => m.scope.vars.size ≤ m'.scope.vars.size ∧ m'.Proper c ∧ Q a m'.scope.vars.size
    | .error e m' => m.scope.vars.size ≤ m'.scope.vars.size ∧ m'.Proper c ∧ c.fault e

section Rules

variable {P : α → Nat → Prop} {Q : β → Nat → Prop}

theorem Proper.triple {x : Eval α} (hx : Proper c 0 x P) : Triple (Machine.Proper c) x (fun _ m => m.Proper c) c.fault := by
  intro m hm
  have hends := hx m (Nat.zero_le _) hm
  cases hxm : x m with
  | ok a m' => rw [hxm] at hends; exact hends.2.1
  | error e m' => rw [hxm] at hends; exact hends.2.2

theorem Proper.bind {x : Eval α} {f : α → Eval β} (hx : Proper c n x P) (hf : ∀ a k, n ≤ k → P a k → Proper c k (f a) Q) :
    Proper c n (x >>= f) Q := by
  intro m hm hproper
  have hfirst := hx m hm hproper
  rw [bind_apply]
  cases hxm : x m with
  | error e m₁ => rw [hxm] at hfirst; exact hfirst
  | ok a m₁ =>
    rw [hxm] at hfirst
    obtain ⟨hle, hproper₁, hP⟩ := hfirst
    have hsecond := hf a _ (Nat.le_trans hm hle) hP m₁ (Nat.le_refl _) hproper₁
    dsimp only
    cases hfm : f a m₁ with
    | error e m₂ => rw [hfm] at hsecond; exact ⟨Nat.le_trans hle hsecond.1, hsecond.2⟩
    | ok b m₂ => rw [hfm] at hsecond; exact ⟨Nat.le_trans hle hsecond.1, hsecond.2⟩

theorem Proper.pure {b : β} (h : ∀ k, n ≤ k → Q b k) : Proper c n (pure b) Q :=
  fun _ hm hproper => ⟨Nat.le_refl _, hproper, h _ hm⟩

theorem Proper.throw {e : AnalysisFault} (h : c.fault e) : Proper c n (throw e : Eval β) Q :=
  fun _ _ hproper => ⟨Nat.le_refl _, hproper, h⟩

theorem Proper.ite {p : Prop} [Decidable p] {x y : Eval β} (hx : p → Proper c n x Q) (hy : ¬ p → Proper c n y Q) :
    Proper c n (if p then x else y) Q := by
  by_cases hp : p
  · rw [if_pos hp]
    exact hx hp
  · rw [if_neg hp]
    exact hy hp

theorem Proper.get {f : Machine → Eval β}
    (h : ∀ m, n ≤ m.scope.vars.size → m.Proper c → Proper c m.scope.vars.size (f m) Q) : Proper c n (get >>= f) Q :=
  fun m hm hproper => h m hm hproper m (Nat.le_refl _) hproper

/-- Changing the frame alone. -/
theorem Proper.frame {f : Frame → Frame} (h : ∀ k g, n ≤ k → g.Proper c k → (f g).Proper c k) :
    Proper c n (modify (fun m => { m with frame := f m.frame })) (fun _ _ => True) :=
  fun _ hm hproper => ⟨Nat.le_refl _, h _ _ hm hproper, trivial⟩

/-- Changing the scope alone, or what has nothing to do with it. -/
theorem Proper.modify {f : Machine → Machine} (hframe : ∀ m, (f m).frame = m.frame)
    (hsize : ∀ m, m.scope.vars.size ≤ (f m).scope.vars.size) : Proper c n (modify f) (fun _ _ => True) := by
  intro m _ hproper
  refine ⟨hsize m, ?_, trivial⟩
  unfold Machine.Proper
  rw [hframe]
  exact hproper.mono (hsize m)

end Rules

/-! ## Single operations -/

theorem proper_tyOf (e : Expr) : Proper c n (tyOf e) (fun _ _ => True) :=
  .get (fun _ _ _ => .pure (fun _ _ => trivial))

theorem proper_link (h : Helper) : Proper c n (link h) (fun _ _ => True) :=
  .modify (fun m => by split <;> rfl) (fun m => by split <;> exact Nat.le_refl _)

theorem proper_touchEntry : Proper c n touchEntry (fun _ _ => True) :=
  .modify (fun _ => rfl) (fun _ => Nat.le_refl _)

theorem proper_param (depth : Nat) (t : Ty) : Proper c n (param depth t) (fun v k => v < k) := by
  intro m _ hproper
  obtain ⟨hle, hlt⟩ := m.scope.size_param depth t
  rw [param_apply]
  exact ⟨hle, hproper.mono hle, hlt⟩

theorem proper_newLocal (t : Ty) : Proper c n (newLocal t) (fun v k => v < k) := by
  intro m _ hproper
  obtain ⟨hle, hlt⟩ := m.scope.size_newLocal t
  exact ⟨hle, hproper.mono hle, hlt⟩

theorem proper_emit {t : Stmt} (h : Block.Proper n [t]) : Proper c n (emit t) (fun _ _ => True) :=
  .frame (f := fun g => { g with code := g.code ++ [t] }) (fun _ _ hk hg => ⟨hg.stack, hg.code.append (h.mono hk)⟩)

theorem proper_setStack {es : List Expr} (h : ∀ e ∈ es, e.Lies c n) : Proper c n (setStack es) (fun _ _ => True) :=
  .frame (f := fun g => { g with stack := es }) (fun _ _ hk hg => ⟨Expr.lies_all_mono h hk, hg.code⟩)

theorem proper_push {e : Expr} (h : e.Lies c n) : Proper c n (push e) (fun _ _ => True) :=
  .frame (f := fun g => { g with stack := e :: g.stack })
    (fun _ _ hk hg => ⟨List.forall_mem_cons.2 ⟨h.mono hk, hg.stack⟩, hg.code⟩)

theorem proper_clear : Proper c n clear (fun _ _ => True) :=
  .frame (f := fun g => { g with stack := [] }) (fun _ _ _ hg => ⟨nofun, hg.code⟩)

theorem proper_popAs (t : Ty) : Proper c n (popAs t) (fun e k => e.Lies c k) := by
  intro m hm hproper
  cases hstack : m.frame.stack with
  | nil =>
    obtain ⟨hle, hlt⟩ := m.scope.size_param (m.frame.base + m.frame.drawn) t
    rw [popAs_nil hstack]
    exact ⟨hle, ⟨Expr.lies_all_mono hproper.stack hle, hproper.code.mono hle⟩, .var hlt⟩
  | cons e rest =>
    have hall := hproper.stack
    rw [hstack, List.forall_mem_cons] at hall
    rw [popAs_cons hstack]
    exact ⟨Nat.le_refl _, ⟨hall.2, hproper.code⟩, hall.1⟩

section Lawful

variable (hc : c.Lawful)

include hc

theorem proper_mismatch {Q : α → Nat → Prop} (p t : String) (e : Expr) : Proper c n (mismatch p t e : Eval α) Q :=
  .get (fun _ _ _ => .throw (hc.faults _ rfl))

theorem proper_check {e : Expr} (he : e.Lies c n) (t : Ty) (p : String) :
    Proper c n (check e t p) (fun e k => e.Taken c k) := by
  unfold check
  refine .bind (proper_tyOf e) (fun found k hk _ => .ite (fun _ => proper_mismatch hc _ _ _) (fun hgood => ?_))
  have hvalue : e.isValue = true := by
    cases hvalue : e.isValue with
    | true => rfl
    | false => simp [hvalue] at hgood
  have htaken : ∀ k', k ≤ k' → e.Taken c k' := fun k' hk' => ⟨he.mono (Nat.le_trans hk hk'), hvalue⟩
  split
  · rename_i v
    refine .bind (P := fun _ _ => True) (.modify (fun _ => rfl) (fun m => ?_)) (fun _ k' hk' _ => .pure (fun k'' hk'' => ?_))
    · exact Nat.le_of_eq (m.scope.size_refine v t).symm
    · exact htaken k'' (Nat.le_trans hk' hk'')
  · exact .pure htaken

theorem proper_popTyped (t : Ty) (p : String) : Proper c n (popTyped t p) (fun e k => e.Taken c k) :=
  .bind (proper_popAs t) (fun _ _ _ he => proper_check hc he t p)

theorem proper_popProcedure (p : String) : Proper c n (popProcedure p) (fun q _ => c.procedure q) := by
  unfold popProcedure
  refine .bind (proper_popAs _) (fun e _ _ he => ?_)
  split
  · rename_i g
    exact .pure (fun _ _ => he.procedure (.group g) rfl)
  · rename_i name
    exact .pure (fun _ _ => he.procedure (.named name) rfl)
  · exact proper_mismatch hc _ _ _

theorem proper_popArgs (p : String) : ∀ (n : Nat) (ts : List Ty),
    Proper c n (popArgs p ts) (fun es k => ∀ e ∈ es, e.Taken c k)
  | _, [] => .pure (fun _ _ => nofun)
  | _, t :: ts => by
    unfold popArgs
    refine .bind (proper_popArgs p _ ts) (fun rest k₁ h₁ hrest => ?_)
    refine .bind (proper_popTyped hc t p) (fun e k₂ h₂ he => .pure (fun k hk => List.forall_mem_cons.2 ⟨he.mono hk, ?_⟩))
    exact fun e he => (hrest e he).mono (Nat.le_trans h₂ hk)

omit hc in
theorem proper_spillSlots (which : Expr → Bool) : ∀ (n : Nat) {es : List Expr}, (∀ e ∈ es, e.Lies c n) →
    (∀ e ∈ es, which e = true → e.isValue = true) →
    Proper c n (spillSlots which es) (fun slots k => ∀ e ∈ slots, e.Lies c k)
  | _, [], _, _ => .pure (fun _ _ => nofun)
  | _, e :: below, h, hvalue => by
    rw [List.forall_mem_cons] at h hvalue
    unfold spillSlots
    refine .bind (proper_spillSlots which _ h.2 hvalue.2) (fun slots k₁ h₁ hslots => ?_)
    refine .ite (fun hwhich => ?_) (fun _ => .pure (fun k hk => ?_))
    · refine .bind (proper_tyOf e) (fun t k₂ h₂ _ => .bind (proper_newLocal t) (fun v k₃ h₃ hv => ?_))
      have hnodes := (h.1.mono (show _ ≤ k₃ by omega)).nodes
      refine .bind (proper_emit (.declare hv hnodes (hvalue.1 hwhich))) (fun _ k₄ h₄ _ => .pure (fun k hk => ?_))
      exact List.forall_mem_cons.2 ⟨.var (Nat.lt_of_lt_of_le hv (by omega)), Expr.lies_all_mono hslots (by omega)⟩
    · exact List.forall_mem_cons.2 ⟨h.1.mono (by omega), Expr.lies_all_mono hslots hk⟩

omit hc in
theorem proper_spillWhere (changes : Expr → Bool) : Proper c n (spillWhere changes) (fun _ _ => True) := by
  unfold spillWhere
  refine .get (fun m _ hproper => .bind (proper_spillSlots _ _ hproper.stack (fun e _ hpicked => ?_)) (fun _ _ _ hslots =>
    proper_setStack hslots))
  have hcomposite : isComposite e = true := by
    simp only [Bool.and_eq_true] at hpicked
    exact hpicked.1
  cases e <;> first | rfl | cases hcomposite

theorem proper_spillAll (p : String) : Proper c n (spillAll p) (fun vars k => ∀ v ∈ vars, v < k) := by
  unfold spillAll
  refine .get (fun m _ hproper => ?_)
  dsimp only
  have hstack := hproper.stack
  rw [← take_append_values m.frame.stack, List.forall_mem_append] at hstack
  have hvalues : ∀ e ∈ (m.frame.stack.reverse.takeWhile Expr.isValue).reverse, true = true → e.isValue = true :=
    fun e he _ => List.all_eq_true.1 List.all_takeWhile e (List.mem_reverse.1 he)
  refine .bind (proper_spillSlots _ _ hstack.2 hvalues) (fun slots k₁ h₁ hslots => ?_)
  have hall := List.forall_mem_append.2 ⟨Expr.lies_all_mono hstack.1 h₁, hslots⟩
  refine .bind (proper_setStack hall) (fun _ k₂ h₂ _ => .ite (fun _ => .pure (fun k hk v hv => ?_)) (fun _ => ?_))
  · obtain ⟨e, he, hvar⟩ := List.mem_filterMap.1 hv
    have hlies := (hslots e he).nodes
    cases e <;> cases hvar
    have hlt : v < k₁ := hlies (.var v) List.mem_cons_self
    exact Nat.lt_of_lt_of_le hlt (by omega)
  · exact .throw (hc.faults _ rfl)

/-! ## Branches and loops -/

omit hc in
theorem proper_inNested {x : Eval Unit} (hx : Proper c n x (fun _ _ => True)) :
    Proper c n (inNested x) (fun g k => g.Proper c k) := by
  intro m hm hproper
  have hrun := hx { m with frame := m.frame.nested } hm ⟨hproper.stack, .nil⟩
  simp only [inNested]
  cases hxm : x { m with frame := m.frame.nested } with
  | error e after =>
    rw [hxm] at hrun
    exact ⟨hrun.1, hproper.mono hrun.1, hrun.2.2⟩
  | ok _ after =>
    rw [hxm] at hrun
    exact ⟨hrun.1, hproper.mono hrun.1, hrun.2.1⟩

omit hc in
theorem proper_paramsTo (base : Nat) : ∀ (n depth count : Nat),
    Proper c n (paramsTo base depth count) (fun es k => ∀ e ∈ es, e.Lies c k)
  | _, _, 0 => .pure (fun _ _ => nofun)
  | _, depth, count + 1 => by
    unfold paramsTo
    refine .bind (proper_paramsTo base _ (depth + 1) count) (fun deeper k₁ h₁ hdeeper => ?_)
    refine .bind (proper_param _ _) (fun v k₂ h₂ hv => .pure (fun k hk => ?_))
    exact List.forall_mem_cons.2 ⟨.var (Nat.lt_of_lt_of_le hv hk), Expr.lies_all_mono hdeeper (by omega)⟩

omit hc in
theorem proper_fullView {g : Frame} (hg : ∀ e ∈ g.stack, e.Lies c n) (drawn : Nat) :
    Proper c n (fullView g drawn) (fun es k => ∀ e ∈ es, e.Lies c k) :=
  .bind (proper_paramsTo _ _ _ _) (fun _ _ h₁ hparams => .pure (fun _ hk =>
    List.forall_mem_append.2 ⟨Expr.lies_all_mono hg (Nat.le_trans h₁ hk), Expr.lies_all_mono hparams hk⟩))

/-- Slots that have been merged, and what the sides store for them. -/
structure Merged.Proper (c : Custom) (n : Nat) (g : Merged) : Prop where
  stack : ∀ e ∈ g.stack, e.Lies c n
  yes : Block.Proper n g.yes
  no : Block.Proper n g.no

omit hc in
theorem Merged.Proper.mono {k : Nat} {g : Merged} (h : g.Proper c n) (hk : n ≤ k) : g.Proper c k :=
  ⟨Expr.lies_all_mono h.stack hk, h.yes.mono hk, h.no.mono hk⟩

theorem proper_mergeSlot {yes no : Expr} {below : Merged} (hyes : yes.Lies c n) (hno : no.Lies c n)
    (hbelow : below.Proper c n) : Proper c n (mergeSlot yes no below) (fun g k => g.Proper c k) := by
  unfold mergeSlot
  refine .ite (fun _ => .pure (fun k hk => ?_)) (fun _ => .ite (fun _ => .throw (hc.faults _ rfl)) (fun _ => ?_))
  · have hlast := hbelow.mono hk
    exact ⟨List.forall_mem_cons.2 ⟨hyes.mono hk, hlast.stack⟩, hlast.yes, hlast.no⟩
  refine .bind (proper_tyOf _) (fun a k₁ h₁ _ => .bind (proper_tyOf _) (fun b k₂ h₂ _ => ?_))
  split
  · exact .throw (hc.faults _ rfl)
  · rename_i t _
    refine .bind (proper_check hc (hyes.mono (Nat.le_trans h₁ h₂)) t _) (fun yes k₃ h₃ hyes => ?_)
    refine .bind (proper_check hc (hno.mono (show _ ≤ k₃ by omega)) t _) (fun no k₄ h₄ hno => ?_)
    refine .bind (proper_newLocal t) (fun v k₅ h₅ hv => ?_)
    refine .bind (proper_emit (.bare hv)) (fun _ k₆ h₆ _ => .pure (fun k hk => ?_))
    have hlast := hbelow.mono (show _ ≤ k by omega)
    have hlt : v < k := Nat.lt_of_lt_of_le hv (by omega)
    exact ⟨List.forall_mem_cons.2 ⟨.var hlt, hlast.stack⟩, hlast.yes.append (hyes.store hlt (by omega)),
      hlast.no.append (hno.store hlt (by omega))⟩

theorem proper_mergeSlots : ∀ (n : Nat) {yes no : List Expr}, (∀ e ∈ yes, e.Lies c n) → (∀ e ∈ no, e.Lies c n) →
    Proper c n (mergeSlots yes no) (fun g k => g.Proper c k)
  | _, [], _, _, _ => .pure (fun _ _ => ⟨nofun, .nil, .nil⟩)
  | _, _ :: _, [], _, _ => .pure (fun _ _ => ⟨nofun, .nil, .nil⟩)
  | _, yes :: yeses, no :: nos, hyes, hno => by
    rw [List.forall_mem_cons] at hyes hno
    refine .bind (proper_mergeSlots _ hyes.2 hno.2) (fun below _ h₁ hbelow => ?_)
    exact proper_mergeSlot hc (hyes.1.mono h₁) (hno.1.mono h₁) hbelow

theorem proper_changedSlots : ∀ (n : Nat) {vs : List VarId} {es : List Expr}, (∀ v ∈ vs, v < n) → (∀ e ∈ es, e.Lies c n) →
    Proper c n (changedSlots vs es) (fun changed k => ∀ q ∈ changed, q.1 < k ∧ q.2.Taken c k)
  | _, [], _, _, _ => .pure (fun _ _ => nofun)
  | _, _ :: _, [], _, _ => .pure (fun _ _ => nofun)
  | _, v :: vs, e :: es, hvs, h => by
    rw [List.forall_mem_cons] at h hvs
    have hlater : ∀ {k k' : Nat} {below : List (VarId × Expr)}, (∀ q ∈ below, q.1 < k ∧ q.2.Taken c k) → k ≤ k' →
        ∀ q ∈ below, q.1 < k' ∧ q.2.Taken c k' :=
      fun hbelow hk q hq => ⟨Nat.lt_of_lt_of_le (hbelow q hq).1 hk, (hbelow q hq).2.mono hk⟩
    unfold changedSlots
    refine .bind (proper_changedSlots _ hvs.2 h.2) (fun below k₁ h₁ hbelow => ?_)
    refine .ite (fun _ => .pure (fun k hk => hlater hbelow hk)) (fun _ => ?_)
    refine .bind (proper_tyOf _) (fun t k₂ h₂ _ => ?_)
    refine .bind (proper_check hc (h.1.mono (Nat.le_trans h₁ h₂)) t _) (fun e k₃ h₃ he => .pure (fun k hk => ?_))
    have hv : v < k := Nat.lt_of_lt_of_le hvs.1 (by omega)
    exact List.forall_mem_append.2 ⟨hlater hbelow (by omega), List.forall_mem_singleton.2 ⟨hv, he.mono hk⟩⟩

omit hc in
theorem proper_temporaries : ∀ (n : Nat) {changed : List (VarId × Expr)}, (∀ q ∈ changed, q.1 < n ∧ q.2.Taken c n) →
    Proper c n (temporaries changed) (fun blocks k => Block.Proper k blocks.1 ∧ Block.Proper k blocks.2)
  | _, [], _ => .pure (fun _ _ => ⟨.nil, .nil⟩)
  | _, (v, e) :: rest, h => by
    rw [List.forall_mem_cons] at h
    unfold temporaries
    refine .bind (proper_tyOf _) (fun t k₁ h₁ _ => .bind (proper_newLocal t) (fun u k₂ h₂ hu => ?_))
    have hrest : ∀ q ∈ rest, q.1 < k₂ ∧ q.2.Taken c k₂ :=
      fun q hq => ⟨Nat.lt_of_lt_of_le (h.2 q hq).1 (by omega), (h.2 q hq).2.mono (by omega)⟩
    refine .bind (proper_temporaries _ hrest) (fun blocks k₃ h₃ hblocks => .pure (fun k hk => ?_))
    have hu : u < k := Nat.lt_of_lt_of_le hu (by omega)
    have hstore : Block.Proper k [.declare u (some e)] :=
      .declare hu (h.1.2.mono (show _ ≤ k by omega)).lies.nodes h.1.2.value
    have hread : (Expr.var u).Taken c k := ⟨.var hu, rfl⟩
    have hv : v < k := Nat.lt_of_lt_of_le h.1.1 (by omega)
    exact ⟨hstore.append (hblocks.1.mono hk), (hread.store hv (Nat.le_refl k)).append (hblocks.2.mono hk)⟩

omit hc in
theorem proper_updates {changed : List (VarId × Expr)} (h : ∀ q ∈ changed, q.1 < n ∧ q.2.Taken c n) :
    Proper c n (updates changed) (fun b k => Block.Proper k b) := by
  unfold updates
  split
  · rename_i v e
    obtain ⟨hv, he⟩ := h (v, e) List.mem_cons_self
    exact .pure (fun k hk => he.store (Nat.lt_of_lt_of_le hv hk) hk)
  · exact .bind (proper_temporaries _ h) (fun _ _ _ hblocks => .pure (fun _ hk => (hblocks.1.append hblocks.2).mono hk))

theorem proper_loopTest {run : Eval Unit} (hrun : Proper c n run (fun _ _ => True)) (start : List Expr) :
    Proper c n (loopTest run start) (fun r k => Block.Proper k r.1 ∧ r.2.Taken c k) := by
  rw [loopTest_eq]
  refine .bind (proper_inNested hrun) (fun g k₁ h₁ hg => .ite (fun _ => .throw (hc.faults _ rfl)) (fun _ => ?_))
  split
  · exact .throw (hc.faults _ rfl)
  · rename_i value rest hstack
    have hvalue := hg.stack value (by rw [hstack]; exact List.mem_cons_self)
    refine .ite (fun _ => .bind (proper_check hc hvalue .int _) (fun value k₂ h₂ hvalue => ?_))
      (fun _ => .throw (hc.faults _ rfl))
    refine .ite (fun _ => .pure (fun k hk => ?_)) (fun _ => .throw (hc.faults _ rfl))
    exact ⟨hg.code.mono (Nat.le_trans h₂ hk), hvalue.mono hk⟩

theorem proper_loopBody {run : Eval Unit} (hrun : Proper c n run (fun _ _ => True)) {vars : List VarId}
    (hvars : ∀ v ∈ vars, v < n) : Proper c n (loopBody run vars) (fun b k => Block.Proper k b) := by
  unfold loopBody
  refine .bind (proper_inNested hrun) (fun g k₁ h₁ hg => .ite (fun _ => .throw (hc.faults _ rfl)) (fun _ => ?_))
  refine .ite (fun _ => ?_) (fun _ => .throw (hc.faults _ rfl))
  have hvars₁ : ∀ v ∈ vars, v < k₁ := fun v hv => Nat.lt_of_lt_of_le (hvars v hv) h₁
  refine .bind (proper_changedSlots hc _ hvars₁ hg.stack) (fun changed k₂ h₂ hchanged => ?_)
  refine .bind (proper_updates hchanged) (fun code k₃ h₃ hcode => .pure (fun k hk => ?_))
  exact (hg.code.mono (by omega)).append (hcode.mono hk)

/-- What `if$` takes: the second procedure, the first one, and the condition. -/
def sides : Eval (Procedure × Procedure × Expr) := do
  let no ← popProcedure "if$"
  let yes ← popProcedure "if$"
  let condition ← popTyped .int "if$"
  return (no, yes, condition)

/-- What `while$` takes: the body and the condition, and the variables of the loop. -/
def loopStart : Eval (Procedure × Procedure × List VarId) := do
  let body ← popProcedure "while$"
  let condition ← popProcedure "while$"
  let vars ← spillAll "while$"
  return (body, condition, vars)

theorem proper_sides : Proper c n sides (fun r k => c.procedure r.1 ∧ c.procedure r.2.1 ∧ r.2.2.Taken c k) :=
  .bind (proper_popProcedure hc _) (fun _ _ _ hno => .bind (proper_popProcedure hc _) (fun _ _ _ hyes =>
    .bind (proper_popTyped hc _ _) (fun _ _ _ he => .pure (fun _ hk => ⟨hno, hyes, he.mono hk⟩))))

theorem proper_loopStart :
    Proper c n loopStart (fun r k => c.procedure r.1 ∧ c.procedure r.2.1 ∧ ∀ v ∈ r.2.2, v < k) :=
  .bind (proper_popProcedure hc _) (fun _ _ _ hbody => .bind (proper_popProcedure hc _) (fun _ _ _ hcondition =>
    .bind (proper_spillAll hc _) (fun _ _ _ hvars => .pure (fun _ hk =>
      ⟨hbody, hcondition, fun v hv => Nat.lt_of_lt_of_le (hvars v hv) hk⟩))))

omit hc in
/-- `if$`, from what it takes on. -/
theorem branch_eq (run : Procedure → Eval Unit) :
    branch run = (do
      let (no, yes, condition) ← sides
      runSides run yes no condition) := by
  simp only [branch, sides, runSides, bind_assoc, pure_bind]

omit hc in
/-- `while$`, from what it takes on. -/
theorem loop_eq (run : Procedure → Eval Unit) :
    loop run = (do
      let (body, condition, vars) ← loopStart
      let (setup, value) ← loopTest (run condition) (vars.map .var)
      let code ← loopBody (run body) vars
      emit (.loop setup value code)) := by
  simp only [loop, loopStart, bind_assoc, pure_bind]

theorem proper_branch {run : Procedure → Eval Unit}
    (hrun : ∀ n p, c.procedure p → Proper c n (run p) (fun _ _ => True)) : Proper c n (branch run) (fun _ _ => True) := by
  rw [branch_eq]
  refine .bind (proper_sides hc) (fun (no, yes, condition) k₀ _ ⟨hpno, hpyes, hcondition⟩ => ?_)
  refine .bind (proper_inNested (hrun _ yes hpyes)) (fun gy k₁ h₁ hy => ?_)
  refine .bind (proper_inNested (hrun _ no hpno)) (fun gn k₂ h₂ hn => ?_)
  refine .bind (proper_fullView (Expr.lies_all_mono hy.stack h₂) _) (fun yesView k₃ h₃ hyes => ?_)
  refine .bind (proper_fullView (Expr.lies_all_mono hn.stack h₃) _) (fun noView k₄ h₄ hno => ?_)
  refine .ite (fun _ => ?_) (fun _ => .throw (hc.faults _ rfl))
  refine .bind (proper_mergeSlots hc _ (Expr.lies_all_mono hyes h₄) hno) (fun merged k₅ h₅ hmerged => ?_)
  have hcondition := hcondition.mono (show k₀ ≤ k₅ by omega)
  have hcode : Block.Proper k₅ [.branch condition (gy.code ++ merged.yes) (gn.code ++ merged.no)] :=
    .branch hcondition.lies.nodes hcondition.operand ((hy.code.mono (by omega)).append hmerged.yes)
      ((hn.code.mono (by omega)).append hmerged.no)
  refine .bind (proper_emit hcode) (fun _ k₆ h₆ _ => ?_)
  exact .frame (f := fun g => { g with stack := merged.stack, drawn := g.drawn + _ })
    (fun _ _ hk hg => ⟨Expr.lies_all_mono hmerged.stack (Nat.le_trans h₆ hk), hg.code⟩)

theorem proper_loop {run : Procedure → Eval Unit}
    (hrun : ∀ n p, c.procedure p → Proper c n (run p) (fun _ _ => True)) : Proper c n (loop run) (fun _ _ => True) := by
  rw [loop_eq]
  refine .bind (proper_loopStart hc) (fun (body, condition, vars) k₀ _ ⟨hpbody, hpcondition, hvars⟩ => ?_)
  refine .bind (proper_loopTest hc (hrun _ condition hpcondition) _) (fun (setup, value) k₁ h₁ ⟨hsetup, hvalue⟩ => ?_)
  have hvars₁ : ∀ v ∈ vars, v < k₁ := fun v hv => Nat.lt_of_lt_of_le (hvars v hv) h₁
  refine .bind (proper_loopBody hc (hrun _ body hpbody) hvars₁) (fun code k₂ h₂ hcode => ?_)
  exact proper_emit (.loop (hsetup.mono h₂) (hvalue.mono h₂).lies.nodes hvalue.operand hcode)

/-! ## Whole bodies -/

theorem proper_callMethod {p method : String} {ts : List Ty} {t : Ty} (ht : t ≠ .generic) :
    Proper c n (callMethod p ts method t) (fun _ _ => True) :=
  .bind (proper_popArgs hc p _ ts) (fun _ _ _ hargs => proper_push (Expr.lies_call hargs ht))

theorem proper_callHelper {p : String} {ts : List Ty} {h : Helper} {t : Ty} (ht : t ≠ .generic) :
    Proper c n (callHelper p ts h t) (fun _ _ => True) :=
  .bind (proper_link h) (fun _ _ _ _ => proper_callMethod hc ht)

theorem proper_callWriter {p method : String} {ts : List Ty} : Proper c n (callWriter p ts method) (fun _ _ => True) :=
  .bind (proper_popArgs hc p _ ts) (fun _ _ _ hargs => proper_emit (.eval (Expr.nodes_call hargs) rfl))

theorem proper_operands {t : Ty} {p : String} {make : Expr → Expr → Expr}
    (hmake : ∀ k l r, Expr.Taken c k l → Expr.Taken c k r → (make l r).Lies c k) :
    Proper c n (do
      let right ← popTyped t p
      let left ← popTyped t p
      push (make left right)) (fun _ _ => True) :=
  .bind (proper_popTyped hc t p) (fun _ _ _ hr => .bind (proper_popTyped hc t p) (fun _ _ h₂ hl =>
    proper_push (hmake _ _ _ hl (hr.mono h₂))))

theorem proper_equal : Proper c n equal (fun _ _ => True) := by
  unfold equal
  refine .bind (proper_popTyped hc .generic _) (fun right k₁ _ hr => .bind (proper_tyOf _) (fun t k₂ h₂ _ => ?_))
  refine .bind (proper_popTyped hc t _) (fun left k₃ h₃ hl => .bind (proper_tyOf _) (fun t' k₄ h₄ _ => ?_))
  refine .bind (proper_check hc (hr.lies.mono (show k₁ ≤ k₄ by omega)) t' _) (fun right k₅ h₅ hr => ?_)
  exact proper_push (Expr.lies_compare (hl.mono (Nat.le_trans h₄ h₅)) hr)

theorem proper_storeTop {t : Ty} {target : Target} (htarget : ∀ v, target ≠ .var v) :
    Proper c n (storeTop target t) (fun _ _ => True) :=
  .bind (proper_popTyped hc t _) (fun _ _ _ he => .bind (proper_spillWhere _) (fun _ _ h₂ _ =>
    proper_emit (.assign (fun v hv => absurd hv (htarget v)) (he.mono h₂).lies.nodes he.operand)))

theorem proper_assign (d : Dictionary) : Proper c n (assign d) (fun _ _ => True) := by
  unfold assign
  refine .bind (proper_popAs _) (fun e _ _ _ => ?_)
  split
  · rename_i name _
    have hfault : ∀ e, assignable d name = .error e → c.fault e := by
      intro e he
      unfold assignable at he
      split at he <;> cases he <;> exact hc.faults _ rfl
    split
    · rename_i herror
      exact .throw (hfault _ herror)
    · rename_i target t hassign
      dsimp only
      split
      · exact .bind proper_touchEntry (fun _ _ _ _ => proper_storeTop hc (assignable_target hassign))
      · exact proper_storeTop hc (assignable_target hassign)
  · exact proper_mismatch hc _ _ _

theorem proper_missing : Proper c n missing (fun _ _ => True) := by
  unfold missing
  refine .bind (proper_popAs _) (fun e _ _ he => .bind (proper_check hc he .generic _) (fun e k₁ _ he => ?_))
  split
  · rename_i field
    refine .bind proper_touchEntry (fun _ k₂ _ _ => proper_push (Expr.lies_call ?_ nofun))
    exact List.forall_mem_singleton.2 ⟨.leaf rfl trivial ⟨rfl, rfl⟩ nofun, rfl⟩
  · refine .get (fun m hm _ => .ite (fun _ => ?_) (fun _ => proper_push (.leaf rfl trivial ⟨rfl, rfl⟩ nofun)))
    refine .bind (proper_link _) (fun _ k₂ h₂ _ => proper_push (Expr.lies_call ?_ nofun))
    exact List.forall_mem_singleton.2 (he.mono (Nat.le_trans hm h₂))

omit hc in
theorem proper_callType : Proper c n callType (fun _ _ => True) :=
  .bind (proper_link _) (fun _ _ _ _ => .bind (proper_spillWhere _) (fun _ _ _ _ => .bind proper_touchEntry (fun _ _ _ _ =>
    proper_emit (.eval (Expr.nodes_entry_call (c := c) nofun) rfl))))

omit hc in
theorem proper_duplicate : Proper c n duplicate (fun _ _ => True) :=
  .bind (proper_popAs _) (fun _ _ _ he => .bind (proper_push he) (fun _ _ h₂ _ => proper_push (he.mono h₂)))

omit hc in
theorem proper_swap : Proper c n swap (fun _ _ => True) :=
  .bind (proper_popAs _) (fun _ _ _ htop => .bind (proper_popAs _) (fun _ _ h₂ hbelow =>
    .bind (proper_push (htop.mono h₂)) (fun _ _ h₃ _ => proper_push (hbelow.mono h₃))))

omit hc in
theorem proper_invoke {s : Signature} {args : List Expr}
    (hnodes : ∀ x ∈ (Expr.call (.style s.method) args s.result true).nodes, x.Proper n) :
    Proper c n (invoke s args) (fun _ _ => True) := by
  refine .bind (proper_spillWhere _) (fun _ k₁ h₁ _ => .ite (fun _ => ?_) (fun _ => ?_))
  · exact proper_emit (.eval (fun x hx => (hnodes x hx).mono h₁) rfl)
  · refine .bind (proper_newLocal _) (fun v k₂ h₂ hv => ?_)
    refine .bind (proper_emit (.declare hv (fun x hx => (hnodes x hx).mono (by omega)) rfl)) (fun _ k₃ h₃ _ => ?_)
    exact proper_push (.var (Nat.lt_of_lt_of_le hv h₃))

theorem proper_callRoutine (name : String) (s : Signature) : Proper c n (callRoutine name s) (fun _ _ => True) := by
  rw [callRoutine_eq]
  refine .bind (proper_popArgs hc name _ s.params) (fun args k₁ _ hargs => .ite (fun _ => ?_) (fun _ => ?_))
  · refine .bind proper_touchEntry (fun _ k₂ h₂ _ => proper_invoke ?_)
    exact Expr.nodes_entry_call (fun e he => (hargs e he).mono h₂)
  · exact proper_invoke (Expr.nodes_call hargs)

section Runs

variable {d : Dictionary} {run : Procedure → Eval Unit}
  (hrun : ∀ n p, c.procedure p → Proper c n (run p) (fun _ _ => True))

include hrun

theorem proper_primitive (p : Primitive) : Proper c n (primitive d run p) (fun _ _ => True) := by
  cases p with
  | branch => exact proper_branch hc hrun
  | loop => exact proper_loop hc hrun
  | add | sub | concat => exact proper_operands hc (fun _ _ _ hl hr => Expr.lies_binary hl hr)
  | lt | gt => exact proper_operands hc (fun _ _ _ hl hr => Expr.lies_compare hl hr)
  | eq => exact proper_equal hc
  | assign => exact proper_assign hc d
  | callType => exact proper_callType
  | missing => exact proper_missing hc
  | clear => exact proper_clear
  | duplicate => exact proper_duplicate
  | swap => exact proper_swap
  | skip => exact .pure (fun _ _ => trivial)
  | quote | preamble => exact proper_push (.leaf rfl trivial ⟨rfl, rfl⟩ nofun)
  | cite | entryType =>
    exact .bind proper_touchEntry (fun _ _ _ _ => proper_push (.leaf rfl trivial ⟨rfl, rfl⟩ nofun))
  | pop | top => exact .bind (proper_popAs _) (fun _ _ _ _ => .pure (fun _ _ => trivial))
  | newline | warning | write => exact proper_callWriter hc
  | changeCase | intToStr | purify | width => exact proper_callMethod hc (by decide)
  | addPeriod | chrToInt | empty | formatName | intToChr | numNames | substring | textLength | textPrefix =>
    exact proper_callHelper hc (by decide)

theorem proper_name (name : String) : Proper c n (Eval.name d run name) (fun _ _ => True) := by
  unfold Eval.name
  have hleaf : ∀ {k : Nat} {e : Expr}, e.nodes = [e] → e.Proper k → e.IsOperand → (∀ s, e.ty s ≠ .generic) →
      Proper c k (push e) (fun _ _ => True) := fun hnodes hproper hoperand hty => proper_push (.leaf hnodes hproper hoperand hty)
  split
  · exact .throw (hc.faults _ rfl)
  · exact proper_primitive hc hrun _
  · exact proper_callRoutine hc _ _
  · exact .bind proper_touchEntry (fun _ _ _ _ => hleaf rfl trivial ⟨rfl, rfl⟩ nofun)
  · exact hleaf rfl trivial ⟨rfl, rfl⟩ nofun
  · exact hleaf rfl trivial ⟨rfl, rfl⟩ nofun
  · exact .bind proper_touchEntry (fun _ _ _ _ => hleaf rfl trivial ⟨rfl, rfl⟩ nofun)
  · exact .bind proper_touchEntry (fun _ _ _ _ => hleaf rfl trivial ⟨rfl, rfl⟩ nofun)
  · exact hleaf rfl trivial ⟨rfl, rfl⟩ nofun

theorem proper_term {t : Term} (ht : c.Admits t) : Proper c n (term d run t) (fun _ _ => True) := by
  unfold term
  refine .bind (.modify (fun _ => rfl) (fun _ => Nat.le_refl _)) (fun _ _ _ _ => ?_)
  cases t with
  | integer | string => exact proper_push (.leaf rfl trivial ⟨rfl, rfl⟩ nofun)
  | quoted name => exact proper_push (Expr.Lies.of_procedure (p := .named name) ht)
  | block ts span => exact proper_push (Expr.Lies.of_procedure (p := .group ⟨ts, span⟩) ht)
  | name name => exact proper_name hc hrun name
  | field | entryInteger | entryString => exact .throw ht

theorem proper_terms : ∀ (n : Nat) {ts : List Term}, (∀ t ∈ ts, c.Admits t) → Proper c n (terms d run ts) (fun _ _ => True)
  | _, [], _ => .pure (fun _ _ => trivial)
  | _, t :: ts, h => by
    rw [List.forall_mem_cons] at h
    exact .bind (proper_term hc hrun h.1) (fun _ _ _ _ => proper_terms _ h.2)

end Runs

/-- **Procedures stay proper**, however deeply they run each other. -/
theorem proper_procedure (d : Dictionary) : ∀ (depth n : Nat) {p : Procedure}, (∀ t ∈ p.terms, c.Admits t) →
    Proper c n (procedure d depth p) (fun _ _ => True)
  | 0, _, _, _ => .throw (hc.faults _ rfl)
  | depth + 1, _, .group _, h => proper_terms hc (fun n p hp => proper_procedure d depth n (hc.terms p hp)) _ h
  | depth + 1, _, .named name, _ => proper_name hc (fun n p hp => proper_procedure d depth n (hc.terms p hp)) name

/-! ## Methods and commands -/

omit hc in
theorem start_proper (linkage : Linkage) (log : Array Event) : (Machine.start linkage log).Proper c :=
  ⟨nofun, nofun⟩

omit hc in
theorem result_isValue {function : String} {s : Scope} {stack : List Expr} {value : Option Expr}
    (h : result function s stack = .ok value) : ∀ e ∈ value, e.isValue = true := by
  unfold result at h
  split at h
  · cases h
    exact nofun
  · split at h
    · cases h
      intro e he
      cases he
      assumption
    · cases h
  · cases h

theorem proper_routine (d : Dictionary) (depth : Nat) (function method : String) {body : Group}
    (hbody : ∀ t ∈ body.terms, c.Admits t) :
    Triple (fun m => m.cleared.Proper c) (routine d depth function method body) (fun r _ => r.Proper)
      c.fault := by
  have hrun : ∀ n p, c.procedure p → Proper c n (procedure d depth p) (fun _ _ => True) :=
    fun n p hp => proper_procedure hc d depth n (hc.terms p hp)
  refine .routine (proper_terms hc hrun 0 hbody).triple (fun m e _ he => ?_) (fun m value hproper hvalue => ?_)
  · unfold result at he
    split at he
    · cases he
    · split at he <;> cases he
      exact hc.faults _ rfl
    · cases he
      exact hc.faults _ rfl
  · have hsize := m.scope.size_named
    refine ⟨fun v hv => Scope.lt_of_mem_params hv, ?_, fun e he => ?_⟩
    · rw [hsize]
      exact hproper.code
    · have hlies := hproper.stack e (result_mem hvalue e he)
      rw [hsize]
      exact ⟨hlies.nodes, result_isValue hvalue e he, hlies.calm⟩

theorem proper_command (d : Dictionary) (depth : Nat) (mode : RunMode) (function : String) :
    Triple (fun m => m.cleared.Proper c) (command d depth mode function) (fun b _ => Block.Proper 0 b)
      c.fault := by
  have hrun : ∀ n p, c.procedure p → Proper c n (procedure d depth p) (fun _ _ => True) :=
    fun n p hp => proper_procedure hc d depth n (hc.terms p hp)
  have hname : Proper c 0 (name d (procedure d depth) function) (fun _ _ => True) := proper_name hc hrun function
  refine .command hname.triple (fun _ _ _ _ => hc.faults _ rfl) (fun m hproper hnone => ?_)
  have hcode : Block.Proper 0 m.frame.code := by
    have hcode := hproper.code
    rw [(violation?_none hnone).1] at hcode
    exact hcode
  have heach : ∀ reverse, Block.Proper 0 [.each reverse m.frame.code] := by
    intro reverse q hq
    rw [Stmt.actsAll_single, Stmt.acts, Stmt.actsAll_true] at hq
    obtain ⟨p, hp, rfl⟩ := List.mem_map.1 hq
    exact hcode p hp
  cases mode with
  | execute => exact hcode
  | iterate => exact heach false
  | reverse => exact heach true

end Lawful

end Eval
end Bibstyle
