import Bibstyle.Proofs.Triple
/-!
# Indifference — what a run does not look at

A run asks for helpers and tells what it does, and both go out of the machine: it never looks at which helpers are linked
already, nor at what was told before.  So its outcome is the same whatever they are, and so is all it asks for and tells, in
order; only whether a helper that is asked for has to be linked is decided outside.
-/
namespace Bibstyle

/-- **What lies outside of a run**: the helpers that are linked, and all that has been told. -/
structure Outside where
  linkage : Linkage
  log : Array Event

/-- **An event is heard outside**: a helper that is asked for is linked unless it is linked already, and told of only then. -/
def Outside.hear (o : Outside) : Event → Outside
  | .linking h => if o.linkage.has h then o else ⟨o.linkage.add h, o.log.push (.linking h)⟩
  | e => { o with log := o.log.push e }

/-- A machine with other things outside. -/
def Machine.facing (m : Machine) (o : Outside) : Machine :=
  { m with linkage := o.linkage, log := o.log }

/-- How a run ends that comes to an outcome, and what it leaves. -/
def ending {α σ : Type} (outcome : Except AnalysisFault α) (left : σ) : EStateM.Result AnalysisFault σ α :=
  match outcome with
  | .ok a => .ok a left
  | .error e => .error e left

namespace Eval

variable {α β : Type}

/-- **A run that does not look outside**: its outcome, the machine it leaves and all it has heard outside are the same
whatever lies there. -/
def Indifferent (x : Eval α) : Prop :=
  ∀ m : Machine, ∃ (outcome : Except AnalysisFault α) (m' : Machine) (events : List Event),
    ∀ o, x (m.facing o) = ending outcome (m'.facing (events.foldl Outside.hear o))

/-! ## Rules -/

theorem Indifferent.bind {x : Eval α} {f : α → Eval β} (hx : Indifferent x) (hf : ∀ a, Indifferent (f a)) :
    Indifferent (x >>= f) := by
  intro m
  obtain ⟨outcome, m₁, events, hfirst⟩ := hx m
  cases outcome with
  | error e => exact ⟨.error e, m₁, events, fun o => by rw [bind_apply, hfirst]; rfl⟩
  | ok a =>
    obtain ⟨outcome, m₂, more, hsecond⟩ := hf a m₁
    refine ⟨outcome, m₂, events ++ more, fun o => ?_⟩
    rw [bind_apply, hfirst, List.foldl_append]
    exact hsecond _

/-- A run that has nothing heard. -/
theorem Indifferent.quiet {x : Eval α} (h : ∀ m : Machine, ∃ (outcome : Except AnalysisFault α) (m' : Machine),
    ∀ o, x (m.facing o) = ending outcome (m'.facing o)) : Indifferent x := by
  intro m
  obtain ⟨outcome, m', hx⟩ := h m
  exact ⟨outcome, m', [], hx⟩

theorem Indifferent.pure (a : α) : Indifferent (pure a) :=
  .quiet fun m => ⟨.ok a, m, fun _ => rfl⟩

theorem Indifferent.throw (e : AnalysisFault) : Indifferent (throw e : Eval α) :=
  .quiet fun m => ⟨.error e, m, fun _ => rfl⟩

theorem Indifferent.ite {p : Prop} [Decidable p] {x y : Eval α} (hx : Indifferent x) (hy : Indifferent y) :
    Indifferent (if p then x else y) := by
  split
  · exact hx
  · exact hy

/-- Changing what lies inside. -/
theorem Indifferent.modify {f : Machine → Machine} (hf : ∀ m o, f (m.facing o) = (f m).facing o) : Indifferent (modify f) :=
  .quiet fun m => ⟨.ok (), f m, fun o => congrArg (EStateM.Result.ok ()) (hf m o)⟩

/-- Looking at what lies inside. -/
theorem Indifferent.get {f : Machine → Eval β} (hf : ∀ m o, f (m.facing o) = f m) (h : ∀ m, Indifferent (f m)) :
    Indifferent (get >>= f) := by
  intro m
  obtain ⟨outcome, m', events, hrun⟩ := h m m
  refine ⟨outcome, m', events, fun o => ?_⟩
  rw [← hrun o, ← hf m o]
  rfl

/-! ## Single operations -/

theorem indifferent_link (h : Helper) : Indifferent (link h) := by
  refine fun m => ⟨.ok (), m, [.linking h], fun o => ?_⟩
  change EStateM.Result.ok () _ = EStateM.Result.ok () (m.facing (if _ then _ else _))
  by_cases hhas : o.linkage.has h = true
  · simp [hhas, Machine.facing]
  · simp [hhas, Machine.facing]

theorem indifferent_evaluating (t : Term) :
    Indifferent (modify fun m => { m with log := m.log.push (.evaluating t) }) :=
  fun m => ⟨.ok (), m, [.evaluating t], fun _ => rfl⟩

theorem indifferent_param (depth : Nat) (t : Ty) : Indifferent (param depth t) :=
  .quiet fun m => ⟨.ok (m.scope.param depth t).1, { m with vars := .of (m.scope.param depth t).2 },
    fun o => param_apply depth t (m.facing o)⟩

theorem indifferent_newLocal (t : Ty) : Indifferent (newLocal t) :=
  .quiet fun m => ⟨.ok (m.scope.newLocal t).1, { m with vars := .of (m.scope.newLocal t).2 },
    fun o => newLocal_apply t (m.facing o)⟩

theorem indifferent_tyOf (e : Expr) : Indifferent (tyOf e) :=
  .get (fun _ _ => rfl) fun _ => .pure _

theorem indifferent_touchEntry : Indifferent touchEntry :=
  .modify fun _ _ => rfl

theorem indifferent_push (e : Expr) : Indifferent (push e) :=
  .modify fun _ _ => rfl

theorem indifferent_emit (t : Stmt) : Indifferent (emit t) :=
  .modify fun _ _ => rfl

theorem indifferent_clear : Indifferent clear :=
  .modify fun _ _ => rfl

theorem indifferent_setStack (stack : List Expr) : Indifferent (setStack stack) :=
  .modify fun _ _ => rfl

theorem indifferent_replaceStack (stack : List Expr) (drawn : Nat) : Indifferent (replaceStack stack drawn) :=
  .modify fun _ _ => rfl

theorem indifferent_popAs (t : Ty) : Indifferent (popAs t) := by
  refine .quiet fun m => ?_
  cases hstack : m.frame.stack with
  | nil =>
    let next := m.scope.param (m.frame.base + m.frame.drawn) t
    exact ⟨.ok (.var next.1), { m with frame := { m.frame with drawn := m.frame.drawn + 1 }, vars := .of next.2 },
      fun o => popAs_nil (m := m.facing o) hstack⟩
  | cons e rest =>
    exact ⟨.ok e, { m with frame := { m.frame with stack := rest } }, fun o => popAs_cons (m := m.facing o) hstack⟩

theorem indifferent_mismatch (p t : String) (e : Expr) : Indifferent (mismatch p t e : Eval α) :=
  .get (fun _ _ => rfl) fun _ => .throw _

theorem indifferent_check (e : Expr) (t : Ty) (p : String) : Indifferent (check e t p) := by
  unfold check
  refine .bind (indifferent_tyOf e) fun found => .ite (indifferent_mismatch _ _ _) ?_
  split
  · exact .bind (.modify fun _ _ => rfl) fun _ => .pure _
  · exact .pure _

theorem indifferent_popTyped (t : Ty) (p : String) : Indifferent (popTyped t p) :=
  .bind (indifferent_popAs t) fun e => indifferent_check e t p

theorem indifferent_popProcedure (p : String) : Indifferent (popProcedure p) := by
  unfold popProcedure
  refine .bind (indifferent_popAs _) fun e => ?_
  split
  · exact .pure _
  · exact .pure _
  · exact indifferent_mismatch _ _ _

theorem indifferent_popArgs (p : String) : ∀ ts : List Ty, Indifferent (popArgs p ts)
  | [] => .pure _
  | t :: ts => .bind (indifferent_popArgs p ts) fun _ => .bind (indifferent_popTyped t p) fun _ => .pure _

theorem indifferent_spillSlots (which : Expr → Bool) (es : List Expr) : Indifferent (spillSlots which es) := by
  induction es with
  | nil => exact .pure _
  | cons e below ih =>
    unfold spillSlots
    refine .bind ih fun _ => .ite ?_ (.pure _)
    exact .bind (indifferent_tyOf e) fun t => .bind (indifferent_newLocal t) fun v =>
      .bind (indifferent_emit _) fun _ => .pure _

theorem indifferent_spillWhere (changes : Expr → Bool) : Indifferent (spillWhere changes) :=
  .get (fun _ _ => rfl) fun _ => .bind (indifferent_spillSlots _ _) indifferent_setStack

theorem indifferent_spillAll (p : String) : Indifferent (spillAll p) :=
  .get (fun _ _ => rfl) fun _ => .bind (indifferent_spillSlots _ _) fun _ => .bind (indifferent_setStack _) fun _ =>
    .ite (.pure _) (.throw _)

/-! ## Branches and loops -/

theorem indifferent_inNested {x : Eval Unit} (hx : Indifferent x) : Indifferent (inNested x) := by
  intro m
  obtain ⟨outcome, m', events, hrun⟩ := hx { m with frame := m.frame.nested }
  have hstart : ∀ o, x { m.facing o with frame := (m.facing o).frame.nested } = _ := hrun
  cases outcome with
  | error e =>
    refine ⟨.error e, { m' with frame := m.frame }, events, fun o => ?_⟩
    simp only [inNested, hstart]
    rfl
  | ok =>
    refine ⟨.ok m'.frame, { m' with frame := m.frame }, events, fun o => ?_⟩
    simp only [inNested, hstart]
    rfl

theorem indifferent_paramsTo (base : Nat) : ∀ depth count : Nat, Indifferent (paramsTo base depth count)
  | _, 0 => .pure _
  | depth, count + 1 => .bind (indifferent_paramsTo base (depth + 1) count) fun _ =>
      .bind (indifferent_param _ _) fun _ => .pure _

theorem indifferent_fullView (f : Frame) (drawn : Nat) : Indifferent (fullView f drawn) :=
  .bind (indifferent_paramsTo _ _ _) fun _ => .pure _

theorem indifferent_mergeSlot (yes no : Expr) (below : Merged) : Indifferent (mergeSlot yes no below) := by
  unfold mergeSlot
  refine .ite (.pure _) (.ite (.throw _) (.bind (indifferent_tyOf _) fun a => .bind (indifferent_tyOf _) fun b => ?_))
  split
  · exact .throw _
  · exact .bind (indifferent_check _ _ _) fun _ => .bind (indifferent_check _ _ _) fun _ =>
      .bind (indifferent_newLocal _) fun _ => .bind (indifferent_emit _) fun _ => .pure _

theorem indifferent_mergeSlots : ∀ yes no : List Expr, Indifferent (mergeSlots yes no)
  | [], _ => .pure _
  | _ :: _, [] => .pure _
  | yes :: yeses, no :: nos => .bind (indifferent_mergeSlots yeses nos) (indifferent_mergeSlot yes no)

theorem indifferent_changedSlots : ∀ (vs : List VarId) (es : List Expr), Indifferent (changedSlots vs es)
  | [], _ => .pure _
  | _ :: _, [] => .pure _
  | v :: vs, e :: es => by
    unfold changedSlots
    refine .bind (indifferent_changedSlots vs es) fun _ => .ite (.pure _) ?_
    exact .bind (indifferent_tyOf _) fun t => .bind (indifferent_check e t _) fun _ => .pure _

theorem indifferent_temporaries : ∀ changed : List (VarId × Expr), Indifferent (temporaries changed)
  | [] => .pure _
  | (_, e) :: rest => .bind (indifferent_tyOf e) fun t => .bind (indifferent_newLocal t) fun _ =>
      .bind (indifferent_temporaries rest) fun _ => .pure _

theorem indifferent_updates (changed : List (VarId × Expr)) : Indifferent (updates changed) := by
  unfold updates
  split
  · exact .pure _
  · exact .bind (indifferent_temporaries _) fun _ => .pure _

theorem indifferent_loopTest {run : Eval Unit} (hrun : Indifferent run) (start : List Expr) :
    Indifferent (loopTest run start) := by
  rw [loopTest_eq]
  refine .bind (indifferent_inNested hrun) fun f => .ite (.throw _) ?_
  split
  · exact .throw _
  · exact .ite (.bind (indifferent_check _ _ _) fun _ => .ite (.pure _) (.throw _)) (.throw _)

theorem indifferent_loopBody {run : Eval Unit} (hrun : Indifferent run) (vars : List VarId) :
    Indifferent (loopBody run vars) :=
  .bind (indifferent_inNested hrun) fun _ => .ite (.throw _) (.ite
    (.bind (indifferent_changedSlots _ _) fun _ => .bind (indifferent_updates _) fun _ => .pure _) (.throw _))

/-! ## Primitives -/

theorem indifferent_callMethod (p : String) (ts : List Ty) (method : String) (t : Ty) :
    Indifferent (callMethod p ts method t) :=
  .bind (indifferent_popArgs p ts) fun _ => indifferent_push _

theorem indifferent_callHelper (p : String) (ts : List Ty) (h : Helper) (t : Ty) : Indifferent (callHelper p ts h t) :=
  .bind (indifferent_link h) fun _ => indifferent_callMethod p ts _ t

theorem indifferent_callWriter (p : String) (ts : List Ty) (method : String) : Indifferent (callWriter p ts method) :=
  .bind (indifferent_popArgs p ts) fun _ => indifferent_emit _

/-- Two operands, and what is made of them. -/
theorem indifferent_operands (t : Ty) (p : String) (make : Expr → Expr → Expr) :
    Indifferent (do
      let right ← popTyped t p
      let left ← popTyped t p
      push (make left right)) :=
  .bind (indifferent_popTyped t p) fun _ => .bind (indifferent_popTyped t p) fun _ => indifferent_push _

theorem indifferent_equal : Indifferent equal :=
  .bind (indifferent_popTyped _ _) fun _ => .bind (indifferent_tyOf _) fun _ => .bind (indifferent_popTyped _ _) fun _ =>
    .bind (indifferent_tyOf _) fun _ => .bind (indifferent_check _ _ _) fun _ => indifferent_push _

theorem indifferent_storeTop (target : Target) (t : Ty) : Indifferent (storeTop target t) :=
  .bind (indifferent_popTyped t _) fun _ => .bind (indifferent_spillWhere _) fun _ => indifferent_emit _

theorem indifferent_assign (d : Dictionary) : Indifferent (assign d) := by
  unfold assign
  refine .bind (indifferent_popAs _) fun e => ?_
  split
  · split
    · exact .throw _
    · dsimp only
      split
      · exact .bind indifferent_touchEntry fun _ => indifferent_storeTop _ _
      · exact indifferent_storeTop _ _
  · exact indifferent_mismatch _ _ _

theorem indifferent_missing : Indifferent missing := by
  unfold missing
  refine .bind (indifferent_popAs _) fun e => .bind (indifferent_check e _ _) fun e => ?_
  split
  · exact .bind indifferent_touchEntry fun _ => indifferent_push _
  · exact .get (fun _ _ => rfl) fun _ => .ite (.bind (indifferent_link _) fun _ => indifferent_push _) (indifferent_push _)

theorem indifferent_callType : Indifferent callType :=
  .bind (indifferent_link _) fun _ => .bind (indifferent_spillWhere _) fun _ => .bind indifferent_touchEntry fun _ =>
    indifferent_emit _

theorem indifferent_duplicate : Indifferent duplicate :=
  .bind (indifferent_popAs _) fun _ => .bind (indifferent_push _) fun _ => indifferent_push _

theorem indifferent_swap : Indifferent swap :=
  .bind (indifferent_popAs _) fun _ => .bind (indifferent_popAs _) fun _ => .bind (indifferent_push _) fun _ =>
    indifferent_push _

theorem indifferent_invoke (s : Signature) (args : List Expr) : Indifferent (invoke s args) := by
  refine .bind (indifferent_spillWhere _) fun _ => .ite (indifferent_emit _) ?_
  exact .bind (indifferent_newLocal _) fun _ => .bind (indifferent_emit _) fun _ => indifferent_push _

theorem indifferent_callRoutine (name : String) (s : Signature) : Indifferent (callRoutine name s) := by
  rw [callRoutine_eq]
  refine .bind (indifferent_popArgs name s.params) fun args => .ite ?_ (indifferent_invoke s args)
  exact .bind indifferent_touchEntry fun _ => indifferent_invoke s _

/-! ## Whole bodies -/

section Runs

variable {d : Dictionary} {run : Procedure → Eval Unit} (hrun : ∀ p, Indifferent (run p))

include hrun

theorem indifferent_branch : Indifferent (branch run) := by
  unfold branch
  refine .bind (indifferent_popProcedure _) fun no => .bind (indifferent_popProcedure _) fun yes => ?_
  refine .bind (indifferent_popTyped _ _) fun condition => ?_
  refine .bind (indifferent_inNested (hrun yes)) fun _ => .bind (indifferent_inNested (hrun no)) fun _ => ?_
  refine .bind (indifferent_fullView _ _) fun _ => .bind (indifferent_fullView _ _) fun _ => .ite ?_ (.throw _)
  exact .bind (indifferent_mergeSlots _ _) fun _ => .bind (indifferent_emit _) fun _ => indifferent_replaceStack _ _

theorem indifferent_loop : Indifferent (loop run) := by
  unfold loop
  refine .bind (indifferent_popProcedure _) fun body => .bind (indifferent_popProcedure _) fun condition => ?_
  refine .bind (indifferent_spillAll _) fun vars => .bind (indifferent_loopTest (hrun condition) _) fun _ => ?_
  exact .bind (indifferent_loopBody (hrun body) vars) fun _ => indifferent_emit _

theorem indifferent_primitive (p : Primitive) : Indifferent (primitive d run p) := by
  cases p with
  | branch => exact indifferent_branch hrun
  | loop => exact indifferent_loop hrun
  | add | sub | concat | lt | gt => exact indifferent_operands _ _ _
  | eq => exact indifferent_equal
  | assign => exact indifferent_assign d
  | callType => exact indifferent_callType
  | missing => exact indifferent_missing
  | clear => exact indifferent_clear
  | duplicate => exact indifferent_duplicate
  | swap => exact indifferent_swap
  | skip => exact .pure _
  | quote | preamble => exact indifferent_push _
  | cite | entryType => exact .bind indifferent_touchEntry fun _ => indifferent_push _
  | pop | top => exact .bind (indifferent_popAs _) fun _ => .pure _
  | newline | warning | write => exact indifferent_callWriter _ _ _
  | changeCase | intToStr | purify | width => exact indifferent_callMethod _ _ _ _
  | addPeriod | chrToInt | empty | formatName | intToChr | numNames | substring | textLength | textPrefix =>
    exact indifferent_callHelper _ _ _ _

theorem indifferent_name (n : String) : Indifferent (name d run n) := by
  have hread : ∀ e, Indifferent (do touchEntry; push e) := fun e => .bind indifferent_touchEntry fun _ => indifferent_push e
  unfold name
  split
  · exact .throw _
  · exact indifferent_primitive hrun _
  · exact indifferent_callRoutine _ _
  · exact hread _
  · exact indifferent_push _
  · exact indifferent_push _
  · exact hread _
  · exact hread _
  · exact indifferent_push _

theorem indifferent_term (t : Term) : Indifferent (term d run t) := by
  unfold term
  refine .bind (indifferent_evaluating t) fun _ => ?_
  cases t with
  | integer | string | quoted | block => exact indifferent_push _
  | name n => exact indifferent_name hrun n
  | field | entryInteger | entryString => exact .throw _

theorem indifferent_terms : ∀ ts : List Term, Indifferent (terms d run ts)
  | [] => .pure _
  | t :: ts => .bind (indifferent_term hrun t) fun _ => indifferent_terms ts

end Runs

theorem indifferent_procedure (d : Dictionary) : ∀ (depth : Nat) (p : Procedure), Indifferent (procedure d depth p)
  | 0, _ => .throw _
  | depth + 1, .group g => indifferent_terms (indifferent_procedure d depth) g.terms
  | depth + 1, .named n => indifferent_name (indifferent_procedure d depth) n

/-- **A function is compiled without a look outside.** -/
theorem indifferent_routine (d : Dictionary) (depth : Nat) (function method : String) (body : Group) :
    Indifferent (routine d depth function method body) := by
  unfold routine
  refine .bind (.modify fun _ _ => rfl) fun _ => ?_
  refine .bind (indifferent_terms (indifferent_procedure d depth) body.terms) fun _ => ?_
  refine .bind (.modify fun _ _ => rfl) fun _ => .get (fun _ _ => rfl) fun m => ?_
  split
  · exact .throw _
  · exact .bind (.quiet fun m => ⟨.ok m.scope, m.cleared, fun _ => rfl⟩) fun _ => .pure _

end Eval
end Bibstyle
