import Bibstyle.Proofs.Arguments
import Bibstyle.Proofs.ControlFlow
import Bibstyle.Proofs.Typing
/-!
# Bodies — whole bodies, and methods that call each other

A body is run by the style in the order in which it is compiled, so that what each of its names does puts together what the
body does.  A function that is called runs its body on the caller's stack; its method gets the arguments it once drew from
there and gives back what the body left.  That a call does what the style does thus rests on the same fact about a shorter
run.
-/
namespace Bibstyle

open StackMachine (Item State Program Task)

namespace Activation

/-! ## Calls -/

section Calls

variable {c : Activation} {rt : Runtime} {style : Program} {rs : List Routine} {ent : Option Entry} {s s' : State}

/-- Where all that reads the state has been stored, the world may change in any way. -/
theorem Stands.change {held : List (Expr × Item)} {st : List Item} {σ σ' : World} {m : Machine} {ρ : Locals} {w w' : World}
    (h : c.Stands held ⟨st, σ⟩ m ρ w) (hstored : ∀ e ∈ m.frame.stack, (Eval.isComposite e && e.readsState) = false)
    (hw : Matches c.dictionary σ' w') : c.Stands [] ⟨st, σ'⟩ m ρ w' := by
  have hdropped : c.Stands [] ⟨st, σ⟩ m ρ w := h.weaken (List.nil_subset _)
  refine hdropped.other_world hw (fun e he x hx hstate => ?_)
  rcases he with he | he
  · have hreads : e.readsState = true := List.any_eq_true.2 ⟨x, hx, hstate⟩
    have hcomposite : Eval.isComposite e = true := by
      cases e with
      | var | quoted | block => cases hreads
      | _ => rfl
    have hkept := hstored e he
    rw [hcomposite, hreads] at hkept
    cases hkept
  · cases he

/-- **A call does to the stack and the world what the function does**; its result goes into a local. -/
theorem sim_invoke {sig : Signature} {held : List (Expr × Item)} {st : List Item} {args : List Expr} {vs : List Value}
    (hgives : ∀ m ρ w, c.Stands held ⟨st, s.world⟩ m ρ w → Expr.GivesAll c.runtime c.entry ρ args w vs w)
    (hreturns : ∀ w, Matches c.dictionary s.world w → ∃ v w', s'.stack = v.toList.map .value ++ st ∧
      c.runtime.effect (.style sig.method) vs w (v.getD .missing) w' ∧ Matches c.dictionary s'.world w' ∧
      (sig.result = .void ↔ v = none)) :
    c.Sim (Eval.invoke sig args) (c.Stands held ⟨st, s.world⟩) (fun _ => c.Stands [] s') := by
  refine .bind (sim_spillWhere Expr.readsState) (fun _ => ?_)
  dsimp only
  split
  · rename_i hvoid
    refine sim_emit (fun m ρ w h => ?_)
    obtain ⟨v, w', hstack, heffect, hw', hnone⟩ := hreturns w h.2.world
    obtain rfl := hnone.1 hvoid
    refine ⟨ρ, w', .eval ⟨vs, w, hgives m ρ w h.2, heffect⟩, .refl, ?_⟩
    have hs' : c.Stands [] ⟨st, s'.world⟩ m ρ w' := h.2.change h.1 hw'
    have heta : s' = ⟨st, s'.world⟩ := by rw [← show s'.stack = st from hstack]
    rw [heta]
    exact hs'.move rfl rfl (.refl _) .refl
  · rename_i hvoid
    refine sim_store (Q := fun v m ρ w => ∃ i, s'.stack = i :: st ∧ c.Stands [(.var v, i)] ⟨st, s'.world⟩ m ρ w) ?_ (fun v => ?_)
    · intro m m' ρ w x h hstack hreach hgrows hnew hlocal hkeeps
      obtain ⟨v, w', hitems, heffect, hw', hnone⟩ := hreturns w h.2.world
      obtain ⟨v, rfl⟩ := Option.ne_none_iff_exists'.1 (fun h => hvoid (hnone.2 h))
      refine ⟨v, w', ⟨vs, w, hgives m ρ w h.2, heffect⟩, .value v, hitems, ?_⟩
      have hs' : c.Stands [] ⟨st, s'.world⟩ m' (ρ.set x (some v)) w' := (h.2.change h.1 hw').move hstack hreach hgrows (hkeeps _)
      refine hs'.value rfl (fun y hy => ?_) ⟨if_pos rfl, rfl⟩
      rw [List.mem_singleton.1 hy, hlocal]
      exact nofun
    · have hitem : Nonempty Item := ⟨.value .missing⟩
      refine .exists (fun i => .given (Eval.steady_push _) (fun hi => ?_))
      have heta : s' = ⟨i :: st, s'.world⟩ := by rw [← hi]
      rw [heta]
      exact sim_push

end Calls
end Activation

theorem Routine.Completes.none_iff {rt : Runtime} {r : Routine} {ent : Option Entry} {s : Store} {v : Option Value} {w : World}
    (h : r.Completes rt ent s v w) : r.result = none ↔ v = none := by
  obtain ⟨s', -, hresult⟩ := h
  cases hr : r.result with
  | none =>
    rw [hr] at hresult
    exact ⟨fun _ => hresult.1, fun _ => rfl⟩
  | some e =>
    rw [hr] at hresult
    obtain ⟨x, -, rfl⟩ := hresult
    exact ⟨nofun, nofun⟩

/-- **A method does what its function does** from one state of the style to another: given the topmost values of the stack,
it ends, returns what the function leaves in their place, and changes the world as the function does. -/
def Routine.Answers (r : Routine) (rt : Runtime) (style : Program) (rs : List Routine) (ent : Option Entry) (s s' : State) : Prop :=
  ∀ (args : List Value) (st : List Item) (w : World), (r.usesEntry = true → ent.isSome = true) →
    args.length = r.params.length → s.stack = args.reverse.map .value ++ st → Matches style.dictionary s.world w →
    ∃ v w', s'.stack = v.toList.map .value ++ st ∧
      r.Completes (rt.linked rs) (if r.usesEntry then ent else none) ⟨r.bind args, w⟩ v w' ∧ Matches style.dictionary s'.world w'

namespace Activation

section Calls

variable {c : Activation} {rt : Runtime} {style : Program} {rs : List Routine} {ent : Option Entry} {s s' : State}

/-- **A function is called as the style calls it.** -/
theorem sim_callRoutine (hserves : c.Serves rt style rs ent) {n : String} {sig : Signature} {r : Routine}
    (hfind : rs.find? (·.method == sig.method) = some r) (hsig : r.signature = sig) (hsolid : r.Solid)
    (hanswers : r.Answers rt style rs ent s s') : c.Sim (Eval.callRoutine n sig) (c.Stands [] s) (fun _ => c.Stands [] s') := by
  have huses : sig.usesEntry = r.usesEntry := by rw [← hsig]; rfl
  rw [Eval.callRoutine_eq]
  refine .bind (sim_popArgs hserves.supplied n sig.params) (fun es => .exists (fun q => .given ?_ (fun hq => ?_)))
  · exact .ite (.bind Eval.steady_touchEntry (fun _ => Eval.steady_invoke sig _)) (Eval.steady_invoke sig _)
  obtain ⟨vs, st⟩ := q
  obtain ⟨hstack, hvs, hes⟩ := hq
  have hlength : vs.length = r.params.length := by
    rw [hvs, ← hsig]
    exact List.length_map _
  have hall : ∀ {m ρ w}, c.Stands (es.zip (vs.map .value) ++ []) ⟨st, s.world⟩ m ρ w →
      Expr.GivesAll c.runtime c.entry ρ es w vs w := fun hs =>
    (Denotes.all (hes.trans hvs.symm) (fun q hq => hs.held q (List.mem_append_left _ hq))).1
  -- what the method is handed besides its arguments
  have hreturns : ∀ handed ent', (r.usesEntry = true → ent.isSome = true) → (if r.usesEntry then ent else none) = ent' →
      r.received? handed = some (ent', vs) → ∀ w, Matches c.dictionary s.world w → ∃ v w', s'.stack = v.toList.map .value ++ st ∧
      c.runtime.effect (.style sig.method) handed w (v.getD .missing) w' ∧ Matches c.dictionary s'.world w' ∧
      (sig.result = .void ↔ v = none) := by
    intro handed ent' hpresent hent hhanded w hw
    rw [hserves.dictionary] at hw ⊢
    obtain ⟨v, w', hstack', hcompletes, hw'⟩ := hanswers vs st w hpresent hlength hstack hw
    rw [hent] at hcompletes
    refine ⟨v, w', hstack', ?_, hw', ?_⟩
    · rw [hserves.runtime]
      exact Runtime.linked_style hfind ⟨ent', vs, v, hhanded, hlength, hcompletes, rfl⟩
    · rw [← hsig, hsolid.result]
      exact hcompletes.none_iff
  split
  · rename_i hentry
    rw [huses] at hentry
    refine .bind sim_touchEntry (fun _ => .given (Eval.steady_invoke sig _) (fun hc => ?_))
    obtain ⟨hce, hsome⟩ := hserves.entry hc
    obtain ⟨e, he⟩ := Option.isSome_iff_exists.1 hsome
    refine sim_invoke (fun m ρ w hs => ⟨.entry e, w, vs, ⟨?_, rfl⟩, hall hs, rfl⟩)
      (hreturns (.entry e :: vs) (some e) (fun _ => hsome) ?_ ?_)
    · rw [Expr.worth, hce, he]
      rfl
    · rw [if_pos hentry, he]
    · rw [Routine.received?, if_pos hentry]
  · rename_i hentry
    rw [huses] at hentry
    exact sim_invoke (fun m ρ w hs => hall hs) (hreturns vs none (fun h => absurd h hentry) (if_neg hentry) (if_neg hentry))

end Calls
end Activation
/-! ## Methods -/

section Methods

variable {rt : Runtime} {style : Program} {rs : List Routine} {ent : Option Entry} {s s' : State}

/-- A machine that began with nothing has one parameter for each value it has drawn. -/
theorem Eval.Steady.covers {α : Type} {x : Eval α} (hx : Eval.Steady x) {linkage : Linkage} {log : Array Event} {a : α}
    {m : Machine} (h : x (.start linkage log) = .ok a m) : m.scope.named.Covers m.frame.reach := by
  have hgrown := (hx _ _ _ h).grown
  have hempty : ∀ v d, (Machine.start linkage log).scope.origin? v ≠ some (.param d) := by
    intro v d hv
    simp [Machine.start, Machine.ready, Variables.empty, Scope.origin?, Scope.get?, Scope.empty] at hv
  refine ⟨fun v d hv => ?_, fun d hd => ?_, fun v v' d hv hv' => ?_⟩
  · rw [Scope.origin?_named] at hv
    exact (hgrown.shallow v d hv).resolve_left (hempty v d)
  · simp only [Scope.origin?_named]
    exact (hgrown.reached d hd).resolve_left (Nat.not_lt_zero d)
  · rw [Scope.origin?_named] at hv hv'
    exact hgrown.distinct (fun v _ d hv => absurd hv (hempty v d)) v v' d hv hv'

/-- What lies on the stack when a body is done is what its method returns. -/
theorem Activation.Stands.completes {c : Activation} {n : String} {sc : Scope} {value : Option Expr} {m : Machine} {ρ : Locals}
    {w : World} {b : Block} {store : Store} (hs : c.Stands [] s' m ρ w) (hresult : Eval.result n sc m.frame.stack = .ok value)
    (hruns : Runs c.runtime (.block b) c.entry store ⟨ρ, w⟩) :
    ∃ v : Option Value, s'.stack = v.toList.map .value ++ c.rest m.frame.reach ∧
      Block.Completes c.runtime b value c.entry store v w := by
  obtain ⟨slots, hslots, hitems, hdenotes⟩ := hs.slots
  unfold Eval.result at hresult
  split at hresult
  · rename_i hstack
    cases hresult
    rw [hstack, List.map_eq_nil_iff] at hslots
    rw [hslots] at hitems
    exact ⟨none, hitems, _, hruns, rfl, rfl⟩
  · rename_i e hstack
    split at hresult
    · rename_i hvalue
      cases hresult
      rw [hstack] at hslots
      obtain ⟨q, rest, rfl, rfl, hrest⟩ := List.map_eq_cons_iff.1 hslots
      obtain rfl := List.map_eq_nil_iff.1 hrest
      obtain ⟨x, hx, -, hgives⟩ := (hdenotes q List.mem_cons_self).of_isValue hvalue
      refine ⟨some x, ?_, _, hruns, x, hgives, rfl⟩
      rw [hitems, List.map_singleton, hx]
      rfl
    · cases hresult
  · cases hresult

/-- **A compiled method does what the body does**, if what the body has been compiled to does so. -/
theorem routine_answers {dict : Dictionary} {depth : Nat} {n method : String} {body : Group} {vars : Variables}
    {linkage : Linkage} {log : Array Event} {r : Routine} {m : Machine}
    (h : Eval.routine dict depth n method body (.ready vars linkage log) = .ok r m)
    (hbody : ∀ c : Activation, c.Serves rt style rs ent →
      c.Sim (Eval.terms dict (Eval.procedure dict depth) body.terms) (c.Stands [] s) (fun _ => c.Stands [] s')) :
    r.Answers rt style rs ent s s' := by
  intro args st w hpresent hargs hstack hw
  obtain ⟨m₁, value, hterms, hresult, rfl, -⟩ := Eval.routine_ok h
  have hsteady := Eval.steady_terms (Eval.steady_procedure dict depth) dict body.terms
  have hcovers := hsteady.covers hterms
  dsimp only at hpresent hargs ⊢
  have hreach : args.length = m₁.frame.reach := hargs.trans hcovers.length_params
  -- the method as it runs with these arguments
  let c : Activation := {
    runtime := rt.linked rs
    dictionary := style.dictionary
    entry := if m₁.usesEntry then ent else none
    scope := m₁.scope.named
    usesEntry := m₁.usesEntry
    args := args.reverse
    below := st }
  have hsupplied : c.Supplied := by
    intro v d hv
    rw [show c.args.length = m₁.frame.reach from List.length_reverse.trans hreach]
    exact hcovers.shallow v d hv
  have hserves : c.Serves rt style rs ent := ⟨rfl, rfl, hsupplied, fun he => ⟨if_pos he, hpresent he⟩⟩
  have hforesees : c.Foresees m₁ := ⟨.of_eq (Scope.origin?_named m₁.scope), id⟩
  have hstart : c.Stands [] s (.start linkage log) (Routine.bind ⟨n, method, m₁.scope.named.params, m₁.usesEntry, m₁.frame.code, value,
      m₁.scope.named⟩ args) w := by
    refine ⟨hw, fun v d hv => Routine.bind_param hcovers rfl hreach hv, ⟨[], rfl, ?_, nofun⟩, nofun⟩
    exact hstack
  obtain ⟨new, ρ', w', hcode, hruns, -, hs'⟩ := (hbody c hserves).2 _ _ _ hterms hforesees _ w hstart
  have hbody' : m₁.frame.code = new := hcode
  rw [← hbody'] at hruns
  obtain ⟨v, hstack', hcompletes⟩ := hs'.completes hresult hruns
  have hrest : c.rest m₁.frame.reach = st := by
    rw [Activation.rest, List.drop_of_length_le (by rw [← hreach]; exact Nat.le_of_eq List.length_reverse)]
    rfl
  rw [hrest] at hstack'
  exact ⟨v, w', hstack', hcompletes, hs'.world⟩

end Methods

/-! ## Programs -/

/-- **A method has been compiled from the body of a function**, when the style knew no more than it does now. -/
structure Routine.CompiledFrom (r : Routine) (d : Dictionary) (n : String) (body : Group) : Prop where
  solid : r.Solid
  source : ∃ dict depth vars linkage log m, dict.Within d ∧
    Eval.routine dict depth n r.method body (.ready vars linkage log) = .ok r m

/-- **A program has been compiled from a style**: different globals have different identifiers, and each function of the style
has its method. -/
structure Compiled (style : Program) (rs : List Routine) : Prop where
  apart : style.dictionary.Apart
  routine : ∀ n sig body, style.dictionary.get? n = some (.routine sig) → style.bodies.lookup n = some body →
    ∃ r, rs.find? (·.method == sig.method) = some r ∧ r.signature = sig ∧ r.CompiledFrom style.dictionary n body

/-- **What is compiled for a task does what the task does**, in any method of the program and however much the style knew. -/
def Simulates (rt : Runtime) (style : Program) (rs : List Routine) (ent : Option Entry) (t : Task) (s s' : State) : Prop :=
  ∀ (c : Activation) (dict : Dictionary) (depth : Nat), c.Serves rt style rs ent → dict.Within style.dictionary →
    match t with
    | .terms ts => c.Sim (Eval.terms dict (Eval.procedure dict depth) ts) (c.Stands [] s) (fun _ => c.Stands [] s')
    | .name n => c.Sim (Eval.name dict (Eval.procedure dict depth) n) (c.Stands [] s) (fun _ => c.Stands [] s')
    | .procedure p => c.Sim (Eval.procedure dict depth p) (c.Stands [] s) (fun _ => c.Stands [] s')
    | .loop condition body => c.SimLoop (Eval.procedure dict depth) condition body s s'

section Programs

variable {rt : Runtime} {style : Program} {rs : List Routine} {ent : Option Entry} {s s' : State}

/-- A name that a smaller dictionary knows means there what it means. -/
theorem Activation.sim_name {c : Activation} {dict : Dictionary} {run : Procedure → Eval Unit} {n : String} {meaning : Meaning}
    {P : Machine → Locals → World → Prop} {Q : Unit → Machine → Locals → World → Prop}
    (hwithin : dict.Within style.dictionary) (hn : style.dictionary.get? n = some meaning)
    (h : dict.get? n = some meaning → c.Sim (Eval.name dict run n) P Q) : c.Sim (Eval.name dict run n) P Q := by
  cases hget : dict.get? n with
  | none =>
    unfold Eval.name
    rw [hget]
    exact .throw
  | some found => exact h (hget.trans ((hwithin n found hget).symm.trans hn))

theorem Activation.sim_primitive {c : Activation} {dict : Dictionary} {run : Procedure → Eval Unit} {n : String} {p : Primitive}
    {P : Machine → Locals → World → Prop} {Q : Unit → Machine → Locals → World → Prop}
    (hwithin : dict.Within style.dictionary) (hn : style.dictionary.get? n = some (.primitive p))
    (h : c.Sim (Eval.primitive dict run p) P Q) : c.Sim (Eval.name dict run n) P Q := by
  refine sim_name hwithin hn (fun hget => ?_)
  unfold Eval.name
  rw [hget]
  exact h

theorem Activation.sim_read {c : Activation} (hserves : c.Serves rt style rs ent) {dict : Dictionary} {run : Procedure → Eval Unit}
    (hwithin : dict.Within style.dictionary) {n : String} {meaning : Meaning} {v : Value} {st : List Item} {σ : World}
    (hn : style.dictionary.get? n = some meaning) (hv : StackMachine.read? rt ent σ n meaning = some v) :
    c.Sim (Eval.name dict run n) (c.Stands [] ⟨st, σ⟩) (fun _ => c.Stands [] ⟨.value v :: st, σ⟩) := by
  refine sim_name hwithin hn (fun hget => ?_)
  unfold Eval.name
  rw [hget]
  have hfield : ∀ e : Expr, e.isPure = true → e.vars = [] → (∀ ρ w, c.usesEntry = true → Matches c.dictionary σ w →
      e.Gives c.runtime c.entry ρ w v w) →
      c.Sim (Eval.touchEntry >>= fun _ => Eval.push e) (c.Stands [] ⟨st, σ⟩) (fun _ => c.Stands [] ⟨.value v :: st, σ⟩) := by
    intro e hpure hvars hgives
    refine .bind sim_touchEntry (fun _ => sim_leave (fun m ρ w hs => hs.2.value hpure ?_ (hgives ρ w hs.1 hs.2.world)))
    rw [hvars]
    exact List.forall_mem_nil _
  have hglobal : ∀ id t, style.dictionary.globalId? n = some id → σ.globals n = v →
      c.Sim (Eval.push (.global id t)) (c.Stands [] ⟨st, σ⟩) (fun _ => c.Stands [] ⟨.value v :: st, σ⟩) := by
    intro id t hid hσ
    refine sim_leave (fun m ρ w hs => hs.value rfl (List.forall_mem_nil _) ⟨?_, rfl⟩)
    have hworld := hs.world
    rw [hserves.dictionary] at hworld
    rw [Expr.worth, hworld.globals n id hid]
    exact congrArg some hσ
  cases meaning with
  | primitive p => cases hv
  | routine sig => cases hv
  | field =>
    refine hfield (.field n) rfl rfl (fun ρ w hc hw => ⟨?_, rfl⟩)
    rw [Expr.worth, (hserves.entry hc).1, hserves.runtime]
    exact hv
  | globalInteger id => exact hglobal id .int (by rw [Dictionary.globalId?, hn]) (Option.some.inj hv)
  | globalString id => exact hglobal id .string (by rw [Dictionary.globalId?, hn]) (Option.some.inj hv)
  | entryInteger =>
    refine hfield (.entryVar n .int) rfl rfl (fun ρ w hc hw => ⟨?_, rfl⟩)
    rw [Expr.worth, (hserves.entry hc).1, hw.entryVars]
    exact hv
  | entryString =>
    refine hfield (.entryVar n .string) rfl rfl (fun ρ w hc hw => ⟨?_, rfl⟩)
    rw [Expr.worth, (hserves.entry hc).1, hw.entryVars]
    exact hv
  | constant k =>
    cases hv
    exact sim_leave (fun m ρ w hs => hs.value rfl (List.forall_mem_nil _) ⟨rfl, rfl⟩)

namespace Activation

variable {c : Activation} {dict : Dictionary} {run : Procedure → Eval Unit}

theorem sim_term {t : Term} {x : Eval Unit} {P : Machine → Locals → World → Prop} {Q : Unit → Machine → Locals → World → Prop}
    (hlog : ∀ m ρ w, P m ρ w → P { m with log := m.log.push (.evaluating t) } ρ w) (hx : c.Sim x P Q) :
    c.Sim (modify (fun m => { m with log := m.log.push (.evaluating t) }) >>= fun _ => x) P Q :=
  .bind (.modify (.modify (fun _ => ⟨rfl, id, .refl _ _⟩)) (fun _ => rfl) (fun m ρ w _ hP => hlog m ρ w hP)) (fun _ => hx)

/-- **A literal lies on the symbolic stack as it lies on the stack.** -/
theorem sim_literal {t : Term} {i : Item} (ht : StackMachine.literal? t = some i) :
    c.Sim (Eval.term dict run t) (c.Stands [] s) (fun _ => c.Stands [] ⟨i :: s.stack, s.world⟩) := by
  have hlog : ∀ m ρ w, c.Stands [] s m ρ w → c.Stands [] s { m with log := m.log.push (.evaluating t) } ρ w :=
    fun m ρ w hs => hs.move rfl rfl (.refl _) .refl
  cases t with
  | integer | string =>
    cases ht
    exact sim_term hlog (sim_leave (fun m ρ w hs => hs.value rfl nofun ⟨rfl, rfl⟩))
  | quoted n =>
    cases ht
    refine sim_term hlog (sim_leave (fun m ρ w hs => hs.hold (fun q hq => ?_)))
    rw [List.mem_singleton.1 hq]
    exact .procedure (.named n)
  | block ts span =>
    cases ht
    refine sim_term hlog (sim_leave (fun m ρ w hs => hs.hold (fun q hq => ?_)))
    rw [List.mem_singleton.1 hq]
    exact .procedure (.group ⟨ts, span⟩)
  | name | field | entryInteger | entryString => cases ht

end Activation

/-- **Generated code does what the style does.** -/
theorem runs_simulates (hstyle : Compiled style rs) {t : Task} (h : StackMachine.Runs rt style ent t s s') :
    Simulates rt style rs ent t s s' := by
  induction h with
  | nil => exact fun c dict depth hserves hwithin => .pure (fun m ρ w hs => hs)
  | push ht h ih => exact fun c dict depth hserves hwithin => .bind (Activation.sim_literal ht) (fun _ => ih c dict depth hserves hwithin)
  | run hn h ihn ih =>
    intro c dict depth hserves hwithin
    refine .bind (Activation.sim_term (fun m ρ w hs => ?_) (ihn c dict depth hserves hwithin)) (fun _ => ih c dict depth hserves hwithin)
    exact hs.move rfl rfl (.refl _) .refl
  | group h ih =>
    intro c dict depth hserves hwithin
    cases depth with
    | zero => exact .throw
    | succ depth => exact ih c dict depth hserves hwithin
  | named h ih =>
    intro c dict depth hserves hwithin
    cases depth with
    | zero => exact .throw
    | succ depth => exact ih c dict depth hserves hwithin
  | read hn h => exact fun c dict depth hserves hwithin => Activation.sim_read hserves hwithin hn h
  | act hn h =>
    exact fun c dict depth hserves hwithin =>
      Activation.sim_primitive hwithin hn (Activation.sim_acts hserves hwithin hstyle.apart h)
  | call hn hb h ih =>
    intro c dict depth hserves hwithin
    obtain ⟨r, hfind, hsig, hsolid, dict', depth', vars, linkage, log, m, hwithin', hroutine⟩ := hstyle.routine _ _ _ hn hb
    refine Activation.sim_name hwithin hn (fun hget => ?_)
    unfold Eval.name
    rw [hget]
    refine Activation.sim_callRoutine hserves hfind hsig hsolid (routine_answers hroutine (fun c' hserves' => ?_))
    exact ih c' dict' depth' hserves' hwithin'
  | yes hn hk h ih =>
    intro c dict depth hserves hwithin
    refine Activation.sim_primitive hwithin hn (Activation.sim_branch hserves.supplied (Eval.steady_procedure dict depth) ?_)
    rw [if_pos hk]
    exact ih c dict depth hserves hwithin
  | no hn hk h ih =>
    intro c dict depth hserves hwithin
    refine Activation.sim_primitive hwithin hn (Activation.sim_branch hserves.supplied (Eval.steady_procedure dict depth) ?_)
    rw [if_neg hk]
    exact ih c dict depth hserves hwithin
  | loop hn h ih =>
    exact fun c dict depth hserves hwithin => Activation.sim_primitive hwithin hn
      (Activation.sim_loop hserves.supplied (Eval.steady_procedure dict depth) (ih c dict depth hserves hwithin))
  | done h hk ih =>
    exact fun c dict depth hserves hwithin =>
      Activation.simLoop_done (Eval.steady_procedure dict depth) hk (ih c dict depth hserves hwithin)
  | again h hk hb hr ih ihb ihr =>
    exact fun c dict depth hserves hwithin => Activation.simLoop_again (Eval.steady_procedure dict depth) hk
      (ih c dict depth hserves hwithin) (ihb c dict depth hserves hwithin) (ihr c dict depth hserves hwithin)

/-- **Every method of a compiled program does what its function does.** -/
theorem Routine.CompiledFrom.answers {r : Routine} {n : String} {body : Group} (hr : r.CompiledFrom style.dictionary n body)
    (hstyle : Compiled style rs) (h : StackMachine.Runs rt style ent (.terms body.terms) s s') : r.Answers rt style rs ent s s' := by
  obtain ⟨dict, depth, vars, linkage, log, m, hwithin, hroutine⟩ := hr.source
  exact routine_answers hroutine (fun c hserves => runs_simulates hstyle h c dict depth hserves hwithin)

end Programs

end Bibstyle
