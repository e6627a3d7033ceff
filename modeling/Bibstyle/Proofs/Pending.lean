import Bibstyle.Proofs.Actions
import Bibstyle.Proofs.Drawing
import Bibstyle.Proofs.Storing
/-!
# Pending — values that wait on the stack while variables change

An assignment, a call of a function of the style and the call of an entry's handler change variables that values on the
stack may read.  Such a value is stored first, so a slot is worth afterwards what it was worth before, and what is assigned
or handed over is evaluated before anything changes.  A function may do to the world what it likes: only the variables of
the method are out of its reach.
-/
namespace Bibstyle

/-! ## Operands -/

/-- **A stack gives operands, and the rest is pending**; parameters stand for what the stack did not hold. -/
def Yields (s : Scope) (stack operands pending : List Expr) : Prop :=
  ∃ drawn : List VarId, operands ++ pending = stack ++ drawn.map .var ∧ (drawn ≠ [] → pending = []) ∧ ∀ x ∈ drawn, s.IsParam x

theorem Yields.mono {s s' : Scope} {stack operands pending : List Expr} (h : Yields s stack operands pending) (hs : s.Grows s') :
    Yields s' stack operands pending := by
  obtain ⟨drawn, hsplit, hempty, hparams⟩ := h
  exact ⟨drawn, hsplit, hempty, fun x hx => hs.isParam (hparams x hx)⟩

theorem Yields.trans {s s' : Scope} {stack a mid b rest : List Expr} (h : Yields s stack a mid) (hs : s.Grows s')
    (h' : Yields s' mid b rest) : Yields s' stack (a ++ b) rest := by
  obtain ⟨ds, hsplit, hempty, hparams⟩ := h.mono hs
  obtain ⟨ds', hsplit', hempty', hparams'⟩ := h'
  refine ⟨ds ++ ds', ?_, fun hne => ?_, List.forall_mem_append.2 ⟨hparams, hparams'⟩⟩
  · rw [List.append_assoc, hsplit', ← List.append_assoc, hsplit, List.append_assoc, List.map_append]
  · by_cases hds' : ds' = []
    · -- nothing more was drawn, so the rest is what was left already
      have hmid := hempty (fun hds => hne (by rw [hds, hds']; rfl))
      rw [hmid, hds', List.map_nil, List.append_nil] at hsplit'
      exact (List.append_eq_nil_iff.1 hsplit').2
    · exact hempty' hds'

/-- **Operands are taken** by a run that does nothing else. -/
structure Machine.Takes (m : Machine) (operands : List Expr) (m' : Machine) : Prop where
  yields : Yields m'.scope m.frame.stack operands m'.frame.stack
  code : m'.frame.code = m.frame.code
  grows : m.scope.Grows m'.scope

namespace Machine.Takes

variable {m m₁ m' : Machine} {a b operands : List Expr}

theorem nil (hframe : m'.frame = m.frame) (hs : m.scope.Grows m'.scope) : m.Takes [] m' :=
  ⟨⟨[], by rw [hframe, List.nil_append, List.map_nil, List.append_nil], absurd rfl, List.forall_mem_nil _⟩, by rw [hframe], hs⟩

theorem touch (h : m.Takes operands m') : m.Takes operands { m' with usesEntry := true } :=
  ⟨h.yields, h.code, h.grows⟩

theorem trans (h : m.Takes a m₁) (h' : m₁.Takes b m') : m.Takes (a ++ b) m' :=
  ⟨h.yields.trans h'.grows h'.yields, h'.code.trans h.code, h.grows.trans h'.grows⟩

end Machine.Takes

theorem Scope.IsParam.lt {s : Scope} {x : VarId} (h : s.IsParam x) : x < s.vars.size :=
  Scope.lt_of_mem_params (Scope.mem_params.2 h)

/-- What is taken, and what is left, can wait as long as what was there. -/
theorem Machine.Takes.waits {m m' : Machine} {operands : List Expr} (h : m.Takes operands m')
    (hm : ∀ e ∈ m.frame.stack, e.Waits m.scope.vars.size) : ∀ e ∈ operands ++ m'.frame.stack, e.Waits m'.scope.vars.size := by
  obtain ⟨drawn, hsplit, -, hparams⟩ := h.yields
  rw [hsplit]
  refine List.forall_mem_append.2 ⟨fun e he => (hm e he).mono h.grows.size_le, fun e he => ?_⟩
  obtain ⟨x, hx, rfl⟩ := List.mem_map.1 he
  exact .var (hparams x hx).lt

namespace Eval

theorem popAs_takes {t : Ty} {m m' : Machine} {e : Expr} (h : popAs t m = .ok e m') : m.Takes [e] m' := by
  have hgrows := (steady_popAs t m e m' h).grown.grows
  cases hstack : m.frame.stack with
  | nil =>
    rw [popAs_nil hstack] at h
    obtain ⟨⟩ := h
    refine ⟨⟨[_], ?_, fun _ => hstack, List.forall_mem_singleton.2 ⟨_, m.scope.origin?_param _ t⟩⟩, rfl, hgrows⟩
    rw [hstack]
    rfl
  | cons top rest =>
    rw [popAs_cons hstack] at h
    obtain ⟨⟩ := h
    refine ⟨⟨[], ?_, absurd rfl, List.forall_mem_nil _⟩, rfl, hgrows⟩
    rw [hstack, List.map_nil, List.append_nil]
    rfl

theorem check_takes {e a : Expr} {t : Ty} {p : String} {m m' : Machine} (h : check e t p m = .ok a m') :
    a = e ∧ m.Takes [] m' := by
  obtain ⟨⟨rfl, -⟩, hframe, hgrows⟩ := (check_at (f := m.frame) (s := m.scope) e t p).ok ⟨rfl, .refl _⟩ h
  exact ⟨rfl, .nil hframe hgrows⟩

theorem popTyped_takes {t : Ty} {p : String} {m m' : Machine} {e : Expr} (h : popTyped t p m = .ok e m') : m.Takes [e] m' := by
  obtain ⟨a, m₁, hpop, hcheck⟩ := bind_ok.1 h
  obtain ⟨rfl, htakes⟩ := check_takes hcheck
  exact (popAs_takes hpop).trans htakes

/-- There is an operand for each type, and the last one is on top. -/
theorem popArgs_takes {p : String} {ts : List Ty} {m m' : Machine} {args : List Expr} (h : popArgs p ts m = .ok args m') :
    args.length = ts.length ∧ m.Takes args.reverse m' := by
  induction ts generalizing args m' with
  | nil =>
    obtain ⟨rfl, rfl⟩ := pure_ok.1 h
    exact ⟨rfl, .nil rfl (.refl _)⟩
  | cons t ts ih =>
    obtain ⟨rest, m₁, hrest, hpop⟩ := bind_ok.1 h
    obtain ⟨e, m₂, he, hreturn⟩ := bind_ok.1 hpop
    obtain ⟨rfl, rfl⟩ := pure_ok.1 hreturn
    obtain ⟨hlength, htakes⟩ := ih hrest
    rw [List.reverse_cons]
    exact ⟨congrArg (· + 1) hlength, htakes.trans (popTyped_takes he)⟩

end Eval

/-! ## Deeds -/

/-- **What changes the world**: a value is stored, or a method is called. -/
inductive Deed where
  | store (target : Target) (value : Expr)
  | call (callee : Callee) (args : List Expr)

namespace Deed

/-- The expressions that are evaluated for a deed. -/
def operands : Deed → List Expr
  | store _ value => [value]
  | call _ args => args

/-- Whether an expression reads what a deed may change. -/
def disturbs : Deed → Expr → Bool
  | store target _ => Expr.reads target
  | call _ _ => Expr.readsState

/-- **A deed is done in a state**: all its operands are evaluated there, a value comes of it, and the world is another one.
The value that is stored comes of a store; what comes of a call, and the world after it, is up to the runtime. -/
def Does (rt : Runtime) (ent : Option Entry) (s : Store) (v : Value) (w : World) : Deed → Prop
  | store target value =>
    value.Gives rt ent s.locals s.world v s.world ∧ (s.assign? ent v target).map (·.world) = some w
  | call callee args => ∃ vs, Expr.GivesAll rt ent s.locals args s.world vs s.world ∧ rt.effect callee vs s.world v w

/-- **The statement of a deed**, with the variable that what comes of it is put in. -/
inductive Written : Deed → Option VarId → Stmt → Prop where
  | store {target : Target} {value : Expr} (h : ∀ x, target ≠ .var x) : Written (store target value) none (.assign target value)
  | call {callee : Callee} {args : List Expr} {t : Ty} : Written (call callee args) none (.eval (.call callee args t true))
  | result {callee : Callee} {args : List Expr} {t : Ty} {x : VarId} :
    Written (call callee args) (some x) (.declare x (some (.call callee args t true)))

variable {rt : Runtime} {ent : Option Entry} {deed : Deed} {s s' : Store} {v : Value} {w : World}

theorem Does.congr (h : deed.Does rt ent s v w) (hworld : s'.world = s.world)
    (hlocals : ∀ e ∈ deed.operands, ∀ x ∈ e.vars, s'.locals x = s.locals x) : deed.Does rt ent s' v w := by
  cases deed with
  | store target value =>
    obtain ⟨hvalue, hstore⟩ := h
    refine ⟨?_, ?_⟩
    · rw [hworld]
      exact hvalue.congr_locals (hlocals value List.mem_cons_self)
    · rw [← hstore]
      cases target with
      | var | global => simp only [Store.assign?, Option.map_some, hworld]
      | entryVar => simp only [Store.assign?, Option.map_map, Function.comp_def, hworld]
  | call callee args =>
    obtain ⟨vs, hargs, heffect⟩ := h
    have hargs' := hargs.congr_locals (fun x hx => by
      obtain ⟨e, he, hx⟩ := List.mem_flatMap.1 hx
      exact hlocals e he x hx)
    exact ⟨vs, by rw [hworld]; exact hargs', by rw [hworld]; exact heffect⟩

/-- A method is called. -/
theorem gives_call {callee : Callee} {args : List Expr} {t : Ty} (hpure : ∀ e ∈ args, e.isPure = true) :
    (Expr.call callee args t true).Gives rt ent s.locals s.world v w ↔ (call callee args).Does rt ent s v w := by
  constructor
  · rintro ⟨vs, w₁, hargs, heffect⟩
    obtain rfl := hargs.world_eq ((Expr.allPure_iff args).2 hpure)
    exact ⟨vs, hargs, heffect⟩
  · rintro ⟨vs, hargs, heffect⟩
    exact ⟨vs, s.world, hargs, heffect⟩

/-- **The statement does the deed**, and sets no variable of the method but that of the result. -/
theorem Written.runs_iff {result : Option VarId} {t : Stmt} (h : deed.Written result t)
    (hpure : ∀ e ∈ deed.operands, e.isPure = true) :
    Runs rt (.stmt t) ent s s' ↔
      ∃ v w, deed.Does rt ent s v w ∧ s' = ⟨result.elim s.locals (fun x => s.locals.set x (some v)), w⟩ := by
  cases h with
  | @store target value htarget =>
    have hlocals : ∀ {s s' : Store} {v : Value}, s.assign? ent v target = some s' → s'.locals = s.locals :=
      fun h => funext (fun x => Store.locals_of_assign? h (by cases target <;> simp_all [Target.vars]))
    constructor
    · intro hruns
      cases hruns with
      | @assign _ _ _ _ _ v w₁ hvalue hstore =>
        obtain rfl := hvalue.world_eq (hpure value List.mem_cons_self)
        exact ⟨v, s'.world, ⟨hvalue, congrArg (Option.map Store.world) hstore⟩, by rw [Option.elim_none, ← hlocals hstore]⟩
    · rintro ⟨v, w, ⟨hvalue, hstore⟩, rfl⟩
      obtain ⟨s', hs', rfl⟩ := Option.map_eq_some_iff.1 hstore
      have hstate : (⟨s.locals, s'.world⟩ : Store) = s' := by rw [← hlocals hs']
      rw [Option.elim_none, hstate]
      exact .assign hvalue hs'
  | call =>
    constructor
    · intro hruns
      cases hruns with
      | eval h => exact ⟨_, _, (gives_call hpure).1 h, rfl⟩
    · rintro ⟨v, w, h, rfl⟩
      exact .eval ((gives_call hpure).2 h)
  | result =>
    constructor
    · intro hruns
      cases hruns with
      | init h => exact ⟨_, _, (gives_call hpure).1 h, rfl⟩
    · rintro ⟨v, w, h, rfl⟩
      exact .init ((gives_call hpure).2 h)

/-- What a deed does not disturb reads nothing that it changes. -/
theorem Does.worth_eq {result : Option VarId} {t : Stmt} {e x : Expr} {ρ : Locals} (h : deed.Does rt ent s v w)
    (ht : deed.Written result t) (he : deed.disturbs e = false) (hx : x ∈ e.nodes) (hstate : x.isStateRead = true) :
    x.worth rt ent ρ w = x.worth rt ent ρ s.world := by
  cases ht with
  | @store target value htarget =>
    obtain ⟨-, hstore⟩ := h
    have hread : Expr.isRead target x = false := by simpa using List.any_eq_false.1 he x hx
    have hassign : Store.assign? ⟨ρ, s.world⟩ ent v target = some ⟨ρ, w⟩ := by
      cases target with
      | var y => exact absurd rfl (htarget y)
      | global n => exact congrArg some (congrArg (Store.mk ρ) (Option.some.inj hstore))
      | entryVar n =>
        cases ent with
        | none => cases hstore
        | some entry => exact congrArg some (congrArg (Store.mk ρ) (Option.some.inj hstore))
    exact Activation.worth_of_assign? hassign hstate hread
  | call | result => exact absurd hstate (List.any_eq_false.1 he x hx)

/-- What a deed can disturb is no variable of the method, and no procedure. -/
theorem Written.undisturbed {result : Option VarId} {t : Stmt} {e : Expr} (ht : deed.Written result t)
    (h : Eval.isComposite e = true → deed.disturbs e = false) : deed.disturbs e = false := by
  cases e with
  | var | quoted | block =>
    cases ht with
    | @store target value htarget =>
      cases target with
      | var y => exact absurd rfl (htarget y)
      | global | entryVar => rfl
    | call | result => rfl
  | _ => exact h rfl

/-! ## What waits -/

/-- **Code does a deed and leaves what is pending as it was.**  Whenever it runs, the deed is done in the state before it, the
result is put where it belongs, the first `n` variables of the method are kept, and each slot is worth what it was worth
before.  And it runs whenever the deed can be done and all pending values that it would disturb are worth something. -/
structure Settles (deed : Deed) (result : Option VarId) (n : Nat) (pending slots : List Expr) (new : Block) : Prop where
  done : ∀ rt ent s s', Runs rt (.block new) ent s s' → ∃ v, deed.Does rt ent s v s'.world ∧
    (∀ x ∈ result, s'.locals x = some v) ∧ (∀ x, x < n → s'.locals x = s.locals x) ∧
    List.Forall₂ (SameWorth rt ent s s') pending slots
  runs : ∀ rt ent s v w, deed.Does rt ent s v w →
    (∀ e ∈ pending, e.isValue = true → deed.disturbs e = true → ∃ u, e.Gives rt ent s.locals s.world u s.world) →
    ∃ s', Runs rt (.block new) ent s s' ∧ s'.world = w

section Spilled

variable {result : Option VarId} {n k : Nat} {pending slots : List Expr} {b : Block} {t : Stmt}

/-- Pending values are stored, and then the deed is done. -/
theorem Written.done (ht : deed.Written result t) (hstored : Stored n pending b slots k) (hpending : ∀ e ∈ pending, e.Waits n)
    (hoperands : ∀ e ∈ deed.operands, e.Waits n) (hleft : ∀ e ∈ slots, deed.disturbs e = false)
    (hresult : ∀ x ∈ result, k ≤ x) (hruns : Runs rt (.block (b ++ [t])) ent s s') :
    ∃ v, deed.Does rt ent s v s'.world ∧ (∀ x ∈ result, s'.locals x = some v) ∧ (∀ x, x < n → s'.locals x = s.locals x) ∧
      List.Forall₂ (SameWorth rt ent s s') pending slots := by
  obtain ⟨s₁, hstores, hlast⟩ := hruns.of_append
  obtain ⟨hworld, hlocals, hsame⟩ := hstored.keeps hpending hstores
  obtain ⟨v, w, hdoes, rfl⟩ := (ht.runs_iff (fun e he => (hoperands e he).pure)).1 hlast.of_single
  have hbefore : deed.Does rt ent s v w :=
    hdoes.congr hworld.symm (fun e he x hx => (hlocals x (.inl ((hoperands e he).known x hx))).symm)
  have hold : ∀ x, x < k → (result.elim s₁.locals (fun y => s₁.locals.set y (some v))) x = s₁.locals x := by
    intro x hx
    cases result with
    | none => rfl
    | some y => exact Locals.set_ne (Nat.ne_of_lt (Nat.lt_of_lt_of_le hx (hresult y rfl)))
  refine ⟨v, hbefore, ?_, fun x hx => ?_, List.forall₂_iff_zip.2 ⟨hsame.length_eq, fun {e slot} hq => ?_⟩⟩
  · intro x hx
    rw [Option.mem_def.1 hx]
    exact Locals.set_self _ _ _
  · exact (hold x (Nat.lt_of_lt_of_le hx hstored.le)).trans (hlocals x (.inl hx))
  · have hslot := (List.of_mem_zip hq).2
    have hwaits := hstored.waits hpending slot hslot
    refine ((List.forall₂_iff_zip.1 hsame).2 hq).trans (.of_state hwaits.pure (fun x hx => hold x (hwaits.known x hx)) ?_)
    intro x hx hstate
    refine (hdoes.worth_eq ht (hleft slot hslot) hx hstate).trans ?_
    cases x with
    | global | entryVar => rfl
    | _ => cases hstate

theorem Written.exists_run (ht : deed.Written result t) (hstored : Stored n pending b slots k)
    (hpending : ∀ e ∈ pending, e.Waits n) (hoperands : ∀ e ∈ deed.operands, e.Waits n)
    (hworth : ∀ q ∈ pending.zip slots, q.2 ≠ q.1 → ∃ u, q.1.Gives rt ent s.locals s.world u s.world)
    (hdoes : deed.Does rt ent s v w) : ∃ s', Runs rt (.block (b ++ [t])) ent s s' ∧ s'.world = w := by
  obtain ⟨s₁, hstores⟩ := hstored.exists_run hpending hworth
  obtain ⟨hworld, hlocals, -⟩ := hstored.keeps hpending hstores
  have hlater := hdoes.congr hworld (fun e he x hx => hlocals x (.inl ((hoperands e he).known x hx)))
  have hlast := (ht.runs_iff (fun e he => (hoperands e he).pure)).2 ⟨v, w, hlater, rfl⟩
  exact ⟨_, hstores.append (.single hlast), rfl⟩

end Spilled

/-- **A deed that is compiled after a spill leaves what is pending as it was.** -/
theorem Written.settles {result : Option VarId} {t : Stmt} {operands : List Expr} {m m₁ m₂ : Machine} (ht : deed.Written result t)
    (hm : ∀ e ∈ m.frame.stack, e.Waits m.scope.vars.size) (htakes : m.Takes operands m₁)
    (hoperands : ∀ e ∈ deed.operands, e ∈ operands ∨ e = .entry) (hspill : Eval.spillWhere deed.disturbs m₁ = .ok () m₂)
    (hresult : ∀ x ∈ result, m₂.scope.vars.size ≤ x) :
    ∃ new, m₂.frame.code ++ [t] = m.frame.code ++ new ∧
      deed.Settles result m.scope.vars.size m₁.frame.stack m₂.frame.stack new := by
  obtain ⟨b, hstored, hframe, hleft, hpicked⟩ := Eval.spillWhere_stored hspill
  have hwaits := List.forall_mem_append.1 (htakes.waits hm)
  have hvalues : ∀ e ∈ deed.operands, e.Waits m₁.scope.vars.size := by
    intro e he
    rcases hoperands e he with he | rfl
    · exact hwaits.1 e he
    · exact ⟨rfl, List.forall_mem_nil _⟩
  have hquiet : ∀ e ∈ m₂.frame.stack, deed.disturbs e = false := fun e he => ht.undisturbed (hleft e he)
  refine ⟨b ++ [t], by rw [hframe, htakes.code, List.append_assoc], fun rt ent s s' hruns => ?_, fun rt ent s v w hdoes hworth => ?_⟩
  · obtain ⟨v, hdoes, hv, hlocals, hsame⟩ := ht.done hstored hwaits.2 hvalues hquiet hresult hruns
    exact ⟨v, hdoes, hv, fun x hx => hlocals x (Nat.lt_of_lt_of_le hx htakes.grows.size_le), hsame⟩
  · refine ht.exists_run hstored hwaits.2 hvalues (fun q hq hne => ?_) hdoes
    obtain ⟨hvalue, hdisturbs⟩ := hpicked q hq hne
    exact hworth q.1 (List.of_mem_zip hq).1 hvalue hdisturbs

end Deed

namespace Eval

/-- **The deed of a primitive**, by the operands that it takes, and whether it leaves a result.  `:=` takes the name of a
variable and a value, a call of a function takes its arguments, the last on top, and `call.type$` takes nothing. -/
inductive Undertakes (d : Dictionary) : Eval Unit → List Expr → Deed → Bool → Prop where
  | assign {name : String} {target : Target} {t : Ty} {value : Expr} (h : assignable d name = .ok (target, t)) :
    Undertakes d (assign d) [.quoted name, value] (.store target value) false
  | routine {name : String} {s : Signature} {args : List Expr} (h : args.length = s.params.length) :
    Undertakes d (callRoutine name s) args.reverse
      (.call (.style s.method) (if s.usesEntry then .entry :: args else args)) (s.result != .void)
  | handler : Undertakes d callType [] (.call (.runtime Helper.callType.name) [.entry]) false

/-- **A primitive undertakes a deed and leaves what is pending as it was.** -/
structure LeavesPending (d : Dictionary) (x : Eval Unit) (m m' : Machine) (operands pending : List Expr) (deed : Deed)
    (result : Option VarId) (slots : List Expr) (new : Block) : Prop where
  undertakes : Undertakes d x operands deed result.isSome
  yields : Yields m'.scope m.frame.stack operands pending
  stack : m'.frame.stack = (result.map .var).toList ++ slots
  code : m'.frame.code = m.frame.code ++ new
  settles : deed.Settles result m.scope.vars.size pending slots new

theorem mismatch_ok {α : Type} {p t : String} {e : Expr} {a : α} {m m' : Machine} :
    ¬ (mismatch p t e : Eval α) m = .ok a m' := by
  rintro ⟨⟩

/-- `:=`, from the taking of the value on. -/
theorem storeTop_leaves {d : Dictionary} {name : String} {target : Target} {t : Ty} {m m₁ m' : Machine}
    (hm : ∀ e ∈ m.frame.stack, e.Waits m.scope.vars.size) (htop : m.Takes [.quoted name] m₁)
    (hassign : assignable d name = .ok (target, t))
    (h : storeTop target t m₁ = .ok () m') :
    ∃ operands pending deed result slots new, LeavesPending d (assign d) m m' operands pending deed result slots new := by
  obtain ⟨value, m₂, hvalue, hrest⟩ := bind_ok.1 h
  obtain ⟨_, m₃, hspill, hemit⟩ := bind_ok.1 hrest
  obtain ⟨⟩ := hemit
  have htakes := htop.trans (popTyped_takes hvalue)
  have ht : (Deed.store target value).Written none (.assign target value) := .store (assignable_target hassign)
  obtain ⟨new, hcode, hsettles⟩ := ht.settles hm htakes (List.forall_mem_singleton.2 (.inl (by simp))) hspill
    (fun x hx => by cases hx)
  have hgrows : m₂.scope.Grows m₃.scope := (steady_spillWhere _ _ _ _ hspill).grown.grows
  exact ⟨_, m₂.frame.stack, _, none, m₃.frame.stack, new, .assign hassign, htakes.yields.mono hgrows, rfl, hcode, hsettles⟩

theorem assign_leaves {d : Dictionary} {m m' : Machine} (hm : ∀ e ∈ m.frame.stack, e.Waits m.scope.vars.size)
    (h : assign d m = .ok () m') :
    ∃ operands pending deed result slots new, LeavesPending d (assign d) m m' operands pending deed result slots new := by
  unfold assign at h
  obtain ⟨top, m₁, hpop, hrest⟩ := bind_ok.1 h
  have htop := popAs_takes hpop
  split at hrest
  · rename_i name
    cases hassign : assignable d name with
    | error e =>
      rw [hassign] at hrest
      exact absurd hrest throw_ok
    | ok r =>
      obtain ⟨target, t⟩ := r
      rw [hassign] at hrest
      dsimp only at hrest
      split at hrest
      · obtain ⟨_, m₂, htouch, hstore⟩ := bind_ok.1 hrest
        obtain ⟨⟩ := htouch
        exact storeTop_leaves hm htop.touch hassign hstore
      · exact storeTop_leaves hm htop hassign hrest
  · exact absurd hrest mismatch_ok

theorem link_ok {helper : Helper} {m m' : Machine} (h : link helper m = .ok () m') : m'.frame = m.frame ∧ m'.scope = m.scope := by
  obtain ⟨⟩ := h
  dsimp only
  split <;> exact ⟨rfl, rfl⟩

theorem callType_leaves (d : Dictionary) {m m' : Machine} (hm : ∀ e ∈ m.frame.stack, e.Waits m.scope.vars.size)
    (h : callType m = .ok () m') :
    ∃ operands pending deed result slots new, LeavesPending d callType m m' operands pending deed result slots new := by
  unfold callType at h
  obtain ⟨_, m₁, hlink, hrest⟩ := bind_ok.1 h
  obtain ⟨_, m₂, hspill, hrest⟩ := bind_ok.1 hrest
  obtain ⟨_, m₃, htouch, hemit⟩ := bind_ok.1 hrest
  obtain ⟨⟩ := htouch
  obtain ⟨⟩ := hemit
  have hlinked := link_ok hlink
  have htakes : m.Takes [] m₁ := .nil hlinked.1 (by rw [hlinked.2]; exact .refl _)
  have ht : (Deed.call (.runtime Helper.callType.name) [.entry]).Written none
      (.eval (.effectCall Helper.callType.name [.entry])) := .call
  obtain ⟨new, hcode, hsettles⟩ := ht.settles hm htakes (List.forall_mem_singleton.2 (.inr rfl)) hspill
    (fun x hx => by cases hx)
  refine ⟨[], m.frame.stack, _, none, m₂.frame.stack, new, .handler, ?_, rfl, hcode, ?_⟩
  · exact ⟨[], by rw [List.map_nil, List.append_nil]; rfl, absurd rfl, List.forall_mem_nil _⟩
  · rw [← hlinked.1]
    exact hsettles

/-- A call, from the spilling on. -/
theorem invoke_leaves {d : Dictionary} {name : String} {s : Signature} {args given : List Expr} {m m₁ m' : Machine}
    (hm : ∀ e ∈ m.frame.stack, e.Waits m.scope.vars.size) (hlength : args.length = s.params.length)
    (htakes : m.Takes args.reverse m₁) (hgiven : given = if s.usesEntry then .entry :: args else args)
    (h : invoke s given m₁ = .ok () m') :
    ∃ operands pending deed result slots new, LeavesPending d (callRoutine name s) m m' operands pending deed result slots new := by
  obtain ⟨_, m₂, hspill, hrest⟩ := bind_ok.1 h
  have hoperands : ∀ e ∈ (Deed.call (.style s.method) given).operands, e ∈ args.reverse ∨ e = .entry := by
    intro e he
    change e ∈ given at he
    rw [hgiven] at he
    split at he
    · exact (List.mem_cons.1 he).symm.imp_left List.mem_reverse.2
    · exact .inl (List.mem_reverse.2 he)
  have hundertakes : Undertakes d (callRoutine name s) args.reverse (.call (.style s.method) given) (s.result != .void) := by
    rw [hgiven]
    exact .routine hlength
  have hyields := htakes.yields.mono (steady_spillWhere _ _ _ _ hspill).grown.grows
  split at hrest
  · rename_i hvoid
    obtain ⟨⟩ := hrest
    obtain ⟨new, hcode, hsettles⟩ := (Deed.Written.call (t := s.result)).settles hm htakes hoperands hspill (fun x hx => by cases hx)
    rw [hvoid] at hundertakes
    exact ⟨args.reverse, m₁.frame.stack, _, none, m₂.frame.stack, new, hundertakes, hyields, rfl, hcode, hsettles⟩
  · rename_i hresult
    obtain ⟨v, m₃, hv, hrest⟩ := bind_ok.1 hrest
    obtain ⟨rfl, -, hframe⟩ := newLocal_ok hv
    obtain ⟨_, m₄, hemit, hpush⟩ := bind_ok.1 hrest
    obtain ⟨⟩ := hemit
    obtain ⟨⟩ := hpush
    obtain ⟨new, hcode, hsettles⟩ := (Deed.Written.result (t := s.result) (x := m₂.scope.vars.size)).settles hm htakes hoperands
      hspill (fun x hx => by cases hx; exact Nat.le_refl _)
    have hyields' := hyields.mono (steady_newLocal _ _ _ _ hv).grown.grows
    rw [bne_iff_ne.2 hresult] at hundertakes
    refine ⟨args.reverse, m₁.frame.stack, _, some m₂.scope.vars.size, m₂.frame.stack, new, hundertakes, hyields', ?_, ?_, hsettles⟩
    · simp only [hframe]
      rfl
    · simp only [hframe]
      exact hcode

theorem callRoutine_leaves {d : Dictionary} {name : String} {s : Signature} {m m' : Machine}
    (hm : ∀ e ∈ m.frame.stack, e.Waits m.scope.vars.size) (h : callRoutine name s m = .ok () m') :
    ∃ operands pending deed result slots new, LeavesPending d (callRoutine name s) m m' operands pending deed result slots new := by
  rw [callRoutine_eq] at h
  obtain ⟨args, m₁, hargs, hrest⟩ := bind_ok.1 h
  obtain ⟨hlength, htakes⟩ := popArgs_takes hargs
  split at hrest
  · rename_i hentry
    obtain ⟨_, m₂, htouch, hcall⟩ := bind_ok.1 hrest
    obtain ⟨⟩ := htouch
    exact invoke_leaves hm hlength htakes.touch (if_pos hentry).symm hcall
  · rename_i hentry
    exact invoke_leaves hm hlength htakes (if_neg hentry).symm hrest

/-- **Pending values keep their meaning.**  `:=`, a call of any function of the style and `call.type$` only add statements to the
code.  In every run of these, whatever the runtime says that a call does to the world, the value assigned and the arguments
handed over are evaluated in the state before them, and every slot that was not taken is worth afterwards what it was worth
before.  They run to their end whenever the assignment or the call can be done and the values it would disturb are worth
something. -/
theorem pending_kept (d : Dictionary) {x : Eval Unit}
    (hx : x = assign d ∨ (∃ name s, x = callRoutine name s) ∨ x = callType) {m m' : Machine}
    (hm : ∀ e ∈ m.frame.stack, e.Waits m.scope.vars.size) (h : x m = .ok () m') :
    ∃ operands pending deed result slots new, LeavesPending d x m m' operands pending deed result slots new := by
  obtain rfl | ⟨name, s, rfl⟩ | rfl := hx
  · exact assign_leaves hm h
  · exact callRoutine_leaves hm h
  · exact callType_leaves d hm h

/-- A count and a note of what it was are on the stack, and the count is to be one more. -/
def counted : Machine :=
  { Machine.start .empty #[] with
    frame := ⟨[.quoted "count", .binary .add (.global "count" .int) (.int 1), .global "count" .int], [], 0, 0⟩ }

def countNames : Dictionary :=
  ⟨[("count", .globalInteger "count")]⟩

theorem pending_kept_count :
    (∀ e ∈ counted.frame.stack, e.Waits counted.scope.vars.size) ∧ ∃ m', assign countNames counted = .ok () m' ∧
      m'.frame.stack = [.var 0] ∧ ∃ operands pending deed result slots new,
        LeavesPending countNames (assign countNames) counted m' operands pending deed result slots new := by
  have hwaits : ∀ e ∈ counted.frame.stack, e.Waits counted.scope.vars.size := by
    have hall : counted.frame.stack.all (fun e => e.isPure && e.vars.isEmpty) = true := by decide
    intro e he
    obtain ⟨hpure, hvars⟩ := (Bool.and_eq_true _ _).mp (List.all_eq_true.1 hall e he)
    rw [List.isEmpty_iff] at hvars
    exact ⟨hpure, by rw [hvars]; exact List.forall_mem_nil _⟩
  have hchecked : (EStateM.run' (assign countNames >>= fun _ => get) counted).any
      (fun m' => decide (m'.frame.stack = [.var 0])) = true := by decide +kernel
  obtain ⟨_, m', h, hstack⟩ := exists_ok_of_check hchecked
  exact ⟨hwaits, m', h, of_decide_eq_true hstack, pending_kept countNames (.inl rfl) hwaits h⟩

end Eval
end Bibstyle
