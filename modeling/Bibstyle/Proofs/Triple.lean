import Bibstyle.Machine.Body
import Bibstyle.Proofs.Variables
/-!
# Triple — reasoning about symbolic runs

A triple says what holds after a run that ends, and which faults a run may have, if something holds before it.  Triples
of small runs put together give triples of bigger ones, so that a property of all runs needs a proof only for the few
operations that touch the machine.
-/
namespace Bibstyle
namespace Eval

variable {α β : Type}

/-- **If `P` holds before a run, then `Q` holds after it, or `E` of its fault.** -/
def Triple (P : Machine → Prop) (x : Eval α) (Q : α → Machine → Prop) (E : AnalysisFault → Prop) : Prop :=
  ∀ m, P m → match x m with
    | .ok a m' => Q a m'
    | .error e _ => E e

/-! ## Runs opened -/

theorem bind_apply (x : Eval α) (f : α → Eval β) (m : Machine) :
    (x >>= f) m = match x m with
      | .ok a m' => f a m'
      | .error e m' => .error e m' := by
  simp only [bind, EStateM.bind]
  cases x m <;> rfl

theorem bind_ok {x : Eval α} {f : α → Eval β} {m m' : Machine} {b : β} :
    (x >>= f) m = .ok b m' ↔ ∃ a m₁, x m = .ok a m₁ ∧ f a m₁ = .ok b m' := by
  rw [bind_apply]
  constructor
  · intro h
    cases hx : x m with
    | ok a m₁ => rw [hx] at h; exact ⟨a, m₁, rfl, h⟩
    | error e m₁ => rw [hx] at h; cases h
  · rintro ⟨a, m₁, hx, hf⟩
    rw [hx]
    exact hf

theorem pure_ok {a b : α} {m m' : Machine} : (pure a : Eval α) m = .ok b m' ↔ b = a ∧ m' = m := by
  constructor
  · rintro ⟨⟩; exact ⟨rfl, rfl⟩
  · rintro ⟨rfl, rfl⟩; rfl

theorem throw_ok {e : AnalysisFault} {a : α} {m m' : Machine} : ¬ (throw e : Eval α) m = .ok a m' := by
  rintro ⟨⟩

theorem tyOf_ok {e : Expr} {t : Ty} {m m' : Machine} : tyOf e m = .ok t m' ↔ t = e.ty m.scope ∧ m' = m := by
  constructor
  · rintro ⟨⟩; exact ⟨rfl, rfl⟩
  · rintro ⟨rfl, rfl⟩; rfl

theorem inNested_ok {x : Eval Unit} {m m' : Machine} {g : Frame} :
    inNested x m = .ok g m' ↔
      ∃ m₁, x { m with frame := m.frame.nested } = .ok () m₁ ∧ g = m₁.frame ∧ m' = { m₁ with frame := m.frame } := by
  unfold inNested
  cases hx : x { m with frame := m.frame.nested } with
  | ok a m₁ =>
    constructor
    · rintro ⟨⟩; exact ⟨m₁, rfl, rfl, rfl⟩
    · rintro ⟨_, ⟨⟩, rfl, rfl⟩; rfl
  | error e m₁ =>
    constructor
    · rintro ⟨⟩
    · rintro ⟨_, ⟨⟩, _⟩

/-- A run that was tried: it ends, with a value that passes the check. -/
theorem exists_value_of_check {x : Eval α} {m : Machine} {p : α → Bool} (h : (EStateM.run' x m).any p = true) :
    ∃ a m', x m = .ok a m' ∧ p a = true := by
  delta EStateM.run' EStateM.run at h
  cases hx : x m with
  | error e m' => rw [hx] at h; cases h
  | ok a m' => rw [hx] at h; exact ⟨a, m', rfl, h⟩

/-- A run that was tried: it ends, in a state that passes the check. -/
theorem exists_ok_of_check {x : Eval α} {m : Machine} {p : Machine → Bool}
    (h : (EStateM.run' (x >>= fun _ => get) m).any p = true) : ∃ a m', x m = .ok a m' ∧ p m' = true := by
  obtain ⟨m₁, m₂, hrun, hp⟩ := exists_value_of_check h
  obtain ⟨a, m', hx, hget⟩ := bind_ok.1 hrun
  cases hget
  exact ⟨a, _, hx, hp⟩

/-! ## Triples of bigger runs -/

section Rules

variable {P P' : Machine → Prop} {Q : α → Machine → Prop} {R : β → Machine → Prop} {E : AnalysisFault → Prop}

theorem Triple.bind {x : Eval α} {f : α → Eval β} (hx : Triple P x Q E) (hf : ∀ a, Triple (Q a) (f a) R E) :
    Triple P (x >>= f) R E := by
  intro m hm
  have h := hx m hm
  rw [bind_apply]
  cases hxm : x m with
  | ok a m' => rw [hxm] at h; exact hf a m' h
  | error e m' => rw [hxm] at h; exact h

theorem Triple.pure {a : α} (h : ∀ m, P m → Q a m) : Triple P (pure a) Q E :=
  h

theorem Triple.throw {e : AnalysisFault} (h : ∀ m, P m → E e) : Triple P (throw e : Eval α) Q E :=
  h

theorem Triple.modify {f : Machine → Machine} {Q : Unit → Machine → Prop} (h : ∀ m, P m → Q () (f m)) :
    Triple P (modify f) Q E :=
  h

theorem Triple.get : Triple P get (fun a m => a = m ∧ P m) E :=
  fun _ hm => ⟨rfl, hm⟩

theorem Triple.mismatch {p t : String} {e : Expr} (h : ∀ found, E (.mismatch p t found)) :
    Triple P (mismatch p t e : Eval α) Q E :=
  .bind (Q := fun _ _ => True) (fun _ _ => trivial) (fun _ => .throw (fun _ _ => h _))

theorem Triple.pre {x : Eval α} (h : Triple P x Q E) (hP : ∀ m, P' m → P m) : Triple P' x Q E :=
  fun m hm => h m (hP m hm)

theorem Triple.post {x : Eval α} {Q' : α → Machine → Prop} (h : Triple P x Q E) (hQ : ∀ a m, Q a m → Q' a m) :
    Triple P x Q' E := by
  intro m hm
  have hends := h m hm
  cases hx : x m with
  | ok a m' => rw [hx] at hends; exact hQ a m' hends
  | error e m' => rw [hx] at hends; exact hends

theorem Triple.and {x : Eval α} {Q' : α → Machine → Prop} (h : Triple P x Q E) (h' : Triple P' x Q' E) :
    Triple (fun m => P m ∧ P' m) x (fun a m => Q a m ∧ Q' a m) E := by
  intro m hm
  have hq := h m hm.1
  have hq' := h' m hm.2
  cases hx : x m with
  | ok a m' => rw [hx] at hq hq'; exact ⟨hq, hq'⟩
  | error e m' => rw [hx] at hq; exact hq

/-- A run may be looked at one machine at a time. -/
theorem Triple.pointwise {x : Eval α} (h : ∀ m, P m → Triple (· = m) x Q E) : Triple P x Q E :=
  fun m hm => h m hm m rfl

theorem Triple.ok {x : Eval α} {m m' : Machine} {a : α} (h : Triple P x Q E) (hm : P m) (hx : x m = .ok a m') : Q a m' := by
  have hends := h m hm
  rw [hx] at hends
  exact hends

theorem Triple.error {x : Eval α} {m m' : Machine} {e : AnalysisFault} (h : Triple P x Q E) (hm : P m)
    (hx : x m = .error e m') : E e := by
  have hends := h m hm
  rw [hx] at hends
  exact hends

theorem Triple.ite {c : Prop} [Decidable c] {x y : Eval α} (hx : c → Triple P x Q E) (hy : ¬ c → Triple P y Q E) :
    Triple P (if c then x else y) Q E := by
  by_cases hc : c
  · rw [if_pos hc]; exact hx hc
  · rw [if_neg hc]; exact hy hc

end Rules

/-! ## Variables -/

theorem param_apply (depth : Nat) (t : Ty) (m : Machine) :
    param depth t m = .ok (m.scope.param depth t).1 { m with vars := .of (m.scope.param depth t).2 } := by
  have hparam : param depth t m = .ok (m.vars.param depth t).1 { m with vars := (m.vars.param depth t).2 } := rfl
  rw [hparam, Variables.param_eq]

theorem Triple.param {depth : Nat} {t : Ty} {P : Machine → Prop} {Q : VarId → Machine → Prop} {E : AnalysisFault → Prop}
    (h : ∀ m, P m → Q (m.scope.param depth t).1 { m with vars := .of (m.scope.param depth t).2 }) :
    Triple P (param depth t) Q E := by
  intro m hm
  rw [param_apply]
  exact h m hm

theorem newLocal_apply (t : Ty) (m : Machine) :
    newLocal t m = .ok (m.scope.newLocal t).1 { m with vars := .of (m.scope.newLocal t).2 } := by
  have hlocal : newLocal t m = .ok (m.vars.newLocal t).1 { m with vars := (m.vars.newLocal t).2 } := rfl
  rw [hlocal, Variables.newLocal_eq]

theorem cleared_ready (vs : Variables) (linkage : Linkage) (log : Array Event) :
    (Machine.ready vs linkage log).cleared = .start linkage log :=
  rfl

/-- **A run to which the variables that are there make no difference**: it forgets them first. -/
def Resets (x : Eval α) : Prop :=
  ∀ vs m, x { m with vars := vs } = x m

theorem resets_routine (d : Dictionary) (depth : Nat) (function method : String) (body : Group) :
    Resets (routine d depth function method body) :=
  fun _ _ => rfl

theorem Resets.ready {x : Eval α} (h : Resets x) (vs : Variables) (linkage : Linkage) (log : Array Event) :
    x (.ready vs linkage log) = x (.start linkage log) :=
  h vs (.start linkage log)

/-! ## Taking values -/

theorem popAs_cons {t : Ty} {m : Machine} {e : Expr} {rest : List Expr} (h : m.frame.stack = e :: rest) :
    popAs t m = .ok e { m with frame := { m.frame with stack := rest } } := by
  have hget : (get : Eval Machine) m = .ok m m := rfl
  rw [popAs, bind_apply, hget]
  dsimp only
  rw [h]
  rfl

theorem popAs_nil {t : Ty} {m : Machine} (h : m.frame.stack = []) :
    popAs t m = .ok (.var (m.scope.param (m.frame.base + m.frame.drawn) t).1)
      { m with
        frame := { m.frame with drawn := m.frame.drawn + 1 }
        vars := .of (m.scope.param (m.frame.base + m.frame.drawn) t).2 } := by
  have hget : (get : Eval Machine) m = .ok m m := rfl
  rw [popAs, bind_apply, hget]
  dsimp only
  rw [h]
  change (param (m.frame.base + m.frame.drawn) t >>= fun v => pure (Expr.var v) : Eval Expr)
    { m with frame := ⟨[], m.frame.code, m.frame.base, m.frame.drawn + 1⟩ } = _
  rw [bind_apply, param_apply]
  rfl

/-! ## Spilling -/

/-- The values at the bottom of a stack, and what lies above them, are the stack. -/
theorem take_append_values (stack : List Expr) :
    stack.take (stack.length - (stack.reverse.takeWhile Expr.isValue).reverse.length) ++
      (stack.reverse.takeWhile Expr.isValue).reverse = stack := by
  have hsplit := List.takeWhile_append_dropWhile (p := Expr.isValue) (l := stack.reverse)
  have hrev : (stack.reverse.dropWhile Expr.isValue).reverse ++ (stack.reverse.takeWhile Expr.isValue).reverse = stack := by
    rw [← List.reverse_append, hsplit, List.reverse_reverse]
  generalize (stack.reverse.dropWhile Expr.isValue).reverse = above at hrev
  generalize (stack.reverse.takeWhile Expr.isValue).reverse = below at hrev
  subst hrev
  simp

/-! ## Parts of bigger runs -/

/-- No name stands for a variable of the method. -/
theorem assignable_target {d : Dictionary} {name : String} {target : Target} {t : Ty}
    (h : assignable d name = .ok (target, t)) : ∀ x, target ≠ .var x := by
  unfold assignable at h
  split at h <;> cases h <;> exact nofun

/-- `:=`, once it has its target. -/
def storeTop (target : Target) (t : Ty) : Eval Unit := do
  let value ← popTyped t ":="
  spillWhere (·.reads target)
  emit (.assign target value)

/-- A call of a function of the style, once it has its arguments. -/
def invoke (s : Signature) (args : List Expr) : Eval Unit := do
  spillWhere Expr.readsState
  let call := Expr.call (.style s.method) args s.result true
  if s.result = .void then emit (.eval call)
  else
    let v ← newLocal s.result
    emit (.declare v (some call))
    push (.var v)

theorem callRoutine_eq (n : String) (s : Signature) : callRoutine n s = (do
    let args ← popArgs n s.params
    if s.usesEntry then do
      touchEntry
      invoke s (.entry :: args)
    else invoke s args) := by
  unfold callRoutine
  cases s.usesEntry <;> rfl

/-- `if$`, once it has its operands. -/
def runSides (run : Procedure → Eval Unit) (yes no : Procedure) (condition : Expr) : Eval Unit := do
  let yesFrame ← inNested (run yes)
  let noFrame ← inNested (run no)
  let drawn := max yesFrame.drawn noFrame.drawn
  let yesView ← fullView yesFrame drawn
  let noView ← fullView noFrame drawn
  if yesView.length = noView.length then
    let merged ← mergeSlots yesView noView
    emit (.branch condition (yesFrame.code ++ merged.yes) (noFrame.code ++ merged.no))
    replaceStack merged.stack drawn
  else throw (.unbalanced "if$")

/-- The test of a loop: a stack that is higher by one value has a top. -/
theorem loopTest_eq (x : Eval Unit) (start : List Expr) : loopTest x start = (do
    let f ← inNested x
    if 0 < f.drawn then throw (.unsupported .conditionDraws)
    else match f.stack with
      | [] => throw (.unsupported .conditionDepth)
      | value :: rest =>
        if rest.length = start.length then
          let value ← check value .int "while$"
          if rest = start then return (f.code, value)
          else throw (.unsupported .conditionChangesStack)
        else throw (.unsupported .conditionDepth)) := by
  unfold loopTest
  congr 1
  funext f
  rcases hstack : f.stack with _ | ⟨value, rest⟩
  · rfl
  · simp only [List.length_cons, Nat.add_right_cancel_iff]

/-! ## Results -/

theorem result_mem {function : String} {s : Scope} {stack : List Expr} {value : Option Expr}
    (h : result function s stack = .ok value) : ∀ e ∈ value, e ∈ stack := by
  unfold result at h
  split at h
  · cases h
    exact fun e he => by cases he
  · split at h
    · cases h
      exact fun e he => by rw [Option.mem_some_iff.1 he]; exact List.mem_cons_self
    · cases h
  · cases h

/-! ## Bodies and commands -/

/-- **A body is run without variables**, and what it leaves is named; a method takes the variables with it, and a body that
leaves what cannot be returned keeps them. -/
theorem routine_apply (d : Dictionary) (depth : Nat) (function method : String) (body : Group) (m : Machine) :
    routine d depth function method body m =
      match terms d (procedure d depth) body.terms m.cleared with
      | .error e m₁ => .error e m₁
      | .ok _ m₁ =>
        match result function m₁.scope.named m₁.frame.stack with
        | .error e => .error e { m₁ with vars := .of m₁.scope.named }
        | .ok value =>
          .ok ⟨function, method, m₁.scope.named.params, m₁.usesEntry, m₁.frame.code, value, m₁.scope.named⟩
            m₁.cleared := by
  have hreset : reset m = .ok () m.cleared := rfl
  rw [routine, bind_apply, hreset]
  dsimp only
  rw [bind_apply]
  cases terms d (procedure d depth) body.terms m.cleared with
  | error e m₁ => rfl
  | ok _ m₁ =>
    have hnamed : (modify (fun m => { m with vars := m.vars.named }) : Eval Unit) m₁ =
        .ok () { m₁ with vars := .of m₁.scope.named } := by
      rw [← Variables.named_eq]
      rfl
    have hget : ∀ m, (get : Eval Machine) m = .ok m m := fun _ => rfl
    dsimp only
    rw [bind_apply, hnamed]
    dsimp only
    rw [bind_apply, hget]
    dsimp only
    change (match result function m₁.scope.named m₁.frame.stack with
      | .error e => throw e
      | .ok value => _ : Eval Routine) _ = _
    cases result function m₁.scope.named m₁.frame.stack <;> rfl

/-- What a method is made of, when its body is done. -/
theorem routine_ok {d : Dictionary} {depth : Nat} {n method : String} {body : Group} {vars : Variables} {linkage : Linkage}
    {log : Array Event} {m' : Machine} {r : Routine}
    (h : routine d depth n method body (.ready vars linkage log) = .ok r m') : ∃ m₁ value,
      terms d (procedure d depth) body.terms (.start linkage log) = .ok () m₁ ∧
      result n m₁.scope.named m₁.frame.stack = .ok value ∧
      r = ⟨n, method, m₁.scope.named.params, m₁.usesEntry, m₁.frame.code, value, m₁.scope.named⟩ ∧
      m' = m₁.cleared := by
  rw [routine_apply, cleared_ready] at h
  cases hterms : terms d (procedure d depth) body.terms (.start linkage log) with
  | error e m₁ => rw [hterms] at h; cases h
  | ok _ m₁ =>
    rw [hterms] at h
    dsimp only at h
    cases hresult : result n m₁.scope.named m₁.frame.stack with
    | error e => rw [hresult] at h; cases h
    | ok value => rw [hresult] at h; cases h; exact ⟨m₁, value, rfl, hresult, rfl, rfl⟩

/-- **A method is what its body leaves**, and its faults are those of the body or of what cannot be returned. -/
theorem Triple.routine {d : Dictionary} {depth : Nat} {function method : String} {body : Group} {P Q : Machine → Prop}
    {R : Routine → Machine → Prop} {E : AnalysisFault → Prop}
    (hterms : Triple P (terms d (procedure d depth) body.terms) (fun _ => Q) E)
    (hfault : ∀ m e, Q m → result function m.scope.named m.frame.stack = .error e → E e)
    (hmethod : ∀ m value, Q m → result function m.scope.named m.frame.stack = .ok value →
      R ⟨function, method, m.scope.named.params, m.usesEntry, m.frame.code, value, m.scope.named⟩ m.cleared) :
    Triple (fun m => P m.cleared) (routine d depth function method body) R E := by
  intro m hm
  have hends := hterms _ hm
  rw [routine_apply]
  cases hbody : terms d (procedure d depth) body.terms m.cleared with
  | error e m₁ => rw [hbody] at hends; exact hends
  | ok _ m₁ =>
    rw [hbody] at hends
    dsimp only
    cases hresult : result function m₁.scope.named m₁.frame.stack with
    | error e => exact hfault m₁ e hends hresult
    | ok value => exact hmethod m₁ value hends hresult

/-- What a command does with the code of what it runs. -/
def performs : RunMode → Block → Block
  | .execute, b => b
  | .iterate, b => [.each false b]
  | .reverse, b => [.each true b]

/-- **A command is run without variables**, and its code must not have made any. -/
theorem command_apply (d : Dictionary) (depth : Nat) (mode : RunMode) (f : String) (m : Machine) :
    command d depth mode f m =
      match name d (procedure d depth) f m.cleared with
      | .error e m₁ => .error e m₁
      | .ok _ m₁ =>
        match violation? mode m₁ with
        | some v => .error (.contract mode f v) m₁
        | none => .ok (performs mode m₁.frame.code) m₁ := by
  have hreset : reset m = .ok () m.cleared := rfl
  rw [command, bind_apply, hreset]
  dsimp only
  rw [bind_apply]
  cases name d (procedure d depth) f m.cleared with
  | error e m₁ => rfl
  | ok _ m₁ =>
    have hget : (get : Eval Machine) m₁ = .ok m₁ m₁ := rfl
    dsimp only
    rw [bind_apply, hget]
    dsimp only
    cases violation? mode m₁ with
    | some v => rfl
    | none => cases mode <;> rfl

theorem command_ok {d : Dictionary} {depth : Nat} {mode : RunMode} {f : String} {vars : Variables} {linkage : Linkage}
    {log : Array Event} {m₁ : Machine} {code : Block} (h : command d depth mode f (.ready vars linkage log) = .ok code m₁) :
    name d (procedure d depth) f (.start linkage log) = .ok () m₁ ∧ violation? mode m₁ = none ∧
      code = performs mode m₁.frame.code := by
  rw [command_apply, cleared_ready] at h
  cases hname : name d (procedure d depth) f (.start linkage log) with
  | error e m₂ => rw [hname] at h; cases h
  | ok _ m₂ =>
    rw [hname] at h
    dsimp only at h
    cases hv : violation? mode m₂ with
    | some v => rw [hv] at h; cases h
    | none => rw [hv] at h; cases h; exact ⟨rfl, hv, rfl⟩

theorem Triple.command {d : Dictionary} {depth : Nat} {mode : RunMode} {f : String} {P Q : Machine → Prop}
    {R : Block → Machine → Prop} {E : AnalysisFault → Prop} (hname : Triple P (name d (procedure d depth) f) (fun _ => Q) E)
    (hfault : ∀ m v, Q m → violation? mode m = some v → E (.contract mode f v))
    (hcode : ∀ m, Q m → violation? mode m = none → R (performs mode m.frame.code) m) :
    Triple (fun m => P m.cleared) (command d depth mode f) R E := by
  intro m hm
  have hends := hname _ hm
  rw [command_apply]
  cases hrun : name d (procedure d depth) f m.cleared with
  | error e m₁ => rw [hrun] at hends; exact hends
  | ok _ m₁ =>
    rw [hrun] at hends
    dsimp only
    cases hv : violation? mode m₁ with
    | some v => exact hfault m₁ v hends hv
    | none => exact hcode m₁ hends hv

end Eval
end Bibstyle
