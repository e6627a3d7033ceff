import Bibstyle.Proofs.Lockstep
import Bibstyle.Proofs.Making
import Bibstyle.Proofs.Sessions
/-!
# Closedness — a script refers to nothing that it lacks

Whatever a session has been given, the script it stands for is closed.  Functions call functions that were defined before
them, so calls do not go in circles, and they pass what the callee takes.  Globals have been declared, helpers are linked
with their imports, and the entry is mentioned only where there is one.

A body is compiled with what the dictionary says, so the dictionary has to say no more than the session holds.  Code that was
closed once stays closed, because a session only adds: a step that fails may leave a global that no name means, or a helper
that nothing calls, but it takes nothing away.
-/
namespace Bibstyle

/-- **What code can refer to.** -/
structure Surroundings where
  routines : List Routine
  globals : List (String × Ty)
  linkage : Linkage
  /-- Whether there is an entry. -/
  entry : Bool

/-- **A node that refers only to what is there**, looked at without what is below it. -/
def Expr.Closed (c : Surroundings) : Expr → Prop
  | .global id t => (id, t) ∈ c.globals
  | .field _ | .entryVar _ _ | .entry => c.entry = true
  | .verbatim text _ => text ∈ entryTexts → c.entry = true
  | .call (.style f) args _ _ =>
    ∃ r ∈ c.routines, r.method = f ∧
      ∃ rest, args = r.signature.handed ++ rest ∧ rest.length = r.params.length ∧ .entry ∉ rest
  | .call (.runtime f) _ _ _ =>
    (∀ h : Helper, h.name = f → h ∈ c.linkage.helpers ∧ ∀ i ∈ h.imports, i ∈ c.linkage.imports) ∧
      (f = "entry.isMissing" → c.entry = true)
  | _ => True

/-- **An act that refers only to what is there.** -/
structure Act.Closed (c : Surroundings) (a : Act) : Prop where
  nodes : ∀ e, a.expr? = some e → ∀ x ∈ e.nodes, x.Closed c
  target : match a with
    | .assign (.global id) _ => ∃ t, (id, t) ∈ c.globals
    | .assign (.entryVar _) _ => c.entry = true
    | _ => True

structure Routine.Closed (c : Surroundings) (r : Routine) : Prop where
  body : ∀ q ∈ Stmt.actsAll false r.body, q.2.Closed c
  result : ∀ e, r.result = some e → ∀ x ∈ e.nodes, x.Closed c

/-- **A closed script.**  Methods have names of their own, a method refers to methods before it, and what the script does
when it runs may refer to all of them; there is an entry in what is done for entries. -/
structure Session.Closed (s : Session) : Prop where
  methods : (s.routines.map (·.method)).Nodup
  routines : ∀ before r after, s.routines = before ++ r :: after → r.Closed ⟨before, s.globals, s.linkage, r.usesEntry⟩
  run : ∀ q ∈ Stmt.actsAll false s.run, q.2.Closed ⟨s.routines, s.globals, s.linkage, q.1⟩

/-! ## More to refer to -/

/-- The second has all that the first has. -/
structure Surroundings.Within (c c' : Surroundings) : Prop where
  routines : ∀ r ∈ c.routines, r ∈ c'.routines
  globals : ∀ g ∈ c.globals, g ∈ c'.globals
  linkage : c.linkage.Within c'.linkage
  entry : c.entry = true → c'.entry = true

section Within

variable {c c' : Surroundings}

theorem Expr.Closed.within {x : Expr} (h : x.Closed c) (hc : c.Within c') : x.Closed c' := by
  cases x with
  | global => exact hc.globals _ h
  | field | entryVar | entry => exact hc.entry h
  | verbatim => exact fun ht => hc.entry (h ht)
  | call callee =>
    cases callee with
    | style =>
      obtain ⟨r, hr, hrest⟩ := h
      exact ⟨r, hc.routines r hr, hrest⟩
    | runtime =>
      refine ⟨fun x hx => ?_, fun hf => hc.entry (h.2 hf)⟩
      obtain ⟨hlinked, himports⟩ := h.1 x hx
      exact ⟨hc.linkage.helpers x hlinked, fun i hi => hc.linkage.imports i (himports i hi)⟩
  | _ => trivial

theorem Act.Closed.within {a : Act} (h : a.Closed c) (hc : c.Within c') : a.Closed c' := by
  refine ⟨fun e he x hx => (h.nodes e he x hx).within hc, ?_⟩
  have htarget := h.target
  cases a with
  | eval | declare | test => trivial
  | assign target =>
    cases target with
    | var => trivial
    | global =>
      obtain ⟨t, ht⟩ := htarget
      exact ⟨t, hc.globals _ ht⟩
    | entryVar => exact hc.entry htarget

theorem Routine.Closed.within {r : Routine} (h : r.Closed c) (hc : c.Within c') : r.Closed c' :=
  ⟨fun q hq => (h.body q hq).within hc, fun e he x hx => (h.result e he x hx).within hc⟩

end Within

/-! ## Code that has been made -/

/-- **All that a dictionary says is there.** -/
structure Surroundings.Covers (c : Surroundings) (d : Dictionary) : Prop where
  declared : ∀ id t, d.Global id t → (id, t) ∈ c.globals
  defined : ∀ n sig, d.get? n = some (.routine sig) → ∃ r ∈ c.routines, r.signature = sig
  supplied : c.linkage.Supplied

section Covers

variable {c : Surroundings} {d : Dictionary} {scope : Scope}

theorem Expr.Made.closed {x : Expr} (h : x.Made d (.knowing scope c.linkage c.entry)) (hc : c.Covers d) : x.Closed c := by
  cases x with
  | global id t => exact hc.declared id t h
  | field | entryVar | entry => exact h
  | verbatim => exact h.2
  | call callee args =>
    cases callee with
    | style f =>
      obtain ⟨n, sig, rest, hn, hf, hargs, hrest⟩ := h
      obtain ⟨r, hr, rfl⟩ := hc.defined n sig hn
      refine ⟨r, hr, hf, rest, hargs, ?_, fun hentry => ?_⟩
      · simpa [Routine.signature] using hrest.length_eq.symm
      · have hflip : List.Forall₂ (fun e t => e ≠ .entry ∧ e.Has scope t) rest r.signature.params := hrest.flip
        exact ((List.forall₂_and_left _ _).1 hflip).1 _ hentry rfl
    | runtime f => exact ⟨fun x hx => ⟨h.2.1 x hx, hc.supplied x (h.2.1 x hx)⟩, h.2.2⟩
  | _ => trivial

theorem Act.Made.closed {a : Act} (h : a.Made d (.knowing scope c.linkage c.entry)) (hc : c.Covers d) : a.Closed c := by
  refine ⟨fun e he x hx => (h.nodes e he x hx).closed hc, ?_⟩
  have hfits := h.fits
  cases a with
  | eval | declare | test => trivial
  | assign target =>
    cases target with
    | var => trivial
    | global id => exact ⟨_, hc.declared id _ hfits⟩
    | entryVar => exact hfits.2

theorem Routine.Made.closed {r : Routine} {l : Linkage} {rs : List Routine} {globals : List (String × Ty)} (h : r.Made d l)
    (hc : Surroundings.Covers ⟨rs, globals, l, r.usesEntry⟩ d) : r.Closed ⟨rs, globals, l, r.usesEntry⟩ :=
  ⟨fun q hq => (h.body q hq).closed hc, fun e he x hx => (h.result e he x hx).closed hc⟩

end Covers

/-! ## Sessions that hold what they say -/

/-- **A session whose script is closed**, and whose dictionary says no more than it holds. -/
structure Session.Linked (s : Session) : Prop extends s.Closed where
  identifiers : s.identifiers.Apart
  names : ∀ r ∈ s.routines, s.identifiers.assigned.lookup r.name = some r.method ∧
    s.dictionary.get? r.name = some (.routine r.signature)
  declared : ∀ id t, s.dictionary.Global id t → (id, t) ∈ s.globals
  defined : ∀ n sig, s.dictionary.get? n = some (.routine sig) → ∃ r ∈ s.routines, r.signature = sig
  supplied : s.linkage.Supplied

namespace Session.Linked

variable {s : Session}

theorem covers (h : s.Linked) (entry : Bool) : Surroundings.Covers ⟨s.routines, s.globals, s.linkage, entry⟩ s.dictionary :=
  ⟨h.declared, h.defined, h.supplied⟩

theorem link (h : s.Linked) {l : Linkage} (hl : s.linkage.Within l) (vars : Variables) (log : Array Event) :
    Session.Linked { s with vars := vars, linkage := l, log := log } where
  methods := h.methods
  routines before r after heq := (h.routines before r after heq).within ⟨fun _ h => h, fun _ h => h, hl, id⟩
  run q hq := (h.run q hq).within ⟨fun _ h => h, fun _ h => h, hl, id⟩
  identifiers := h.identifiers
  names := h.names
  declared := h.declared
  defined := h.defined
  supplied := hl.supplied h.supplied

theorem assign (h : s.Linked) (n : String) : Session.Linked { s with identifiers := (s.identifiers.assign n).2 } :=
  { h with
    identifiers := h.identifiers.assign n
    names := fun r hr => ⟨Identifiers.lookup_assign_old n (h.names r hr).1, (h.names r hr).2⟩ }

theorem addGlobal (h : s.Linked) (id : String) (t : Ty) : Session.Linked { s with globals := s.globals ++ [(id, t)] } where
  methods := h.methods
  routines before r after heq :=
    (h.routines before r after heq).within ⟨fun _ h => h, fun _ h => List.mem_append_left _ h, .refl _, fun h => h⟩
  run q hq := (h.run q hq).within ⟨fun _ h => h, fun _ h => List.mem_append_left _ h, .refl _, fun h => h⟩
  identifiers := h.identifiers
  names := h.names
  declared id' t' hd := List.mem_append_left _ (h.declared id' t' hd)
  defined := h.defined
  supplied := h.supplied

theorem extendRun (h : s.Linked) {code : Block}
    (hcode : ∀ q ∈ Stmt.actsAll false code, q.2.Closed ⟨s.routines, s.globals, s.linkage, q.1⟩) :
    Session.Linked { s with run := s.run ++ code } :=
  { h with
    run := fun q hq => by
      rw [Stmt.actsAll_append, List.mem_append] at hq
      exact hq.elim (h.run q) (hcode q) }

/-- What a name that is no function may be declared to mean. -/
def Fits (s : Session) (m : Meaning) : Prop :=
  (∀ sig, m ≠ .routine sig) ∧ ∀ id t, m.global? = some (id, t) → (id, t) ∈ s.globals

theorem declare (h : s.Linked) {n : String} (hn : s.dictionary.get? n = none) {m : Meaning} (hm : Fits s m) :
    Session.Linked { s with dictionary := s.dictionary.extend n m } := by
  refine { h with names := fun r hr => ⟨(h.names r hr).1, ?_⟩, declared := fun id t hglobal => ?_, defined := fun k sig hk => ?_ }
  · exact Dictionary.within_extend hn m _ _ (h.names r hr).2
  · obtain ⟨k, found, hk, hfound⟩ := hglobal
    rw [Dictionary.get?_extend hn] at hk
    split at hk
    · cases hk
      exact hm.2 id t hfound
    · exact h.declared id t ⟨k, found, hk, hfound⟩
  · rw [Dictionary.get?_extend hn] at hk
    split at hk
    · exact absurd (Option.some.inj hk) (hm.1 sig)
    · exact h.defined k sig hk

/-- **A function is defined**: its method may refer to all methods before it. -/
theorem define (h : s.Linked) {r : Routine} (hn : s.dictionary.get? r.name = none)
    (hid : s.identifiers.assigned.lookup r.name = some r.method) (hr : r.Made s.dictionary s.linkage) :
    Session.Linked { s with
      dictionary := s.dictionary.extend r.name (.routine r.signature)
      routines := s.routines ++ [r] } where
  methods := by
    -- an identifier stands for one name, and the name of the new function meant nothing before
    have hfresh : ∀ r' ∈ s.routines, r'.method ≠ r.method := by
      intro r' hr' hmethod
      obtain ⟨hid', hmeans⟩ := h.names r' hr'
      rw [hmethod] at hid'
      rw [h.identifiers.unique _ _ _ hid' hid, hn] at hmeans
      cases hmeans
    rw [List.map_append, List.nodup_append]
    refine ⟨h.methods, List.nodup_singleton _, fun a ha b hb => ?_⟩
    obtain ⟨r', hr', rfl⟩ := List.mem_map.1 ha
    rw [List.mem_singleton.1 hb]
    exact hfresh r' hr'
  routines before r' after heq := by
    -- either this is the new method, and all others are before it, or it was there before
    rcases List.eq_nil_or_concat after with rfl | ⟨init, last, rfl⟩
    · obtain ⟨rfl, hlast⟩ := List.append_inj' heq rfl
      cases hlast
      exact hr.closed (h.covers r.usesEntry)
    · rw [List.concat_eq_append, ← List.cons_append, ← List.append_assoc] at heq
      exact h.routines before r' init (List.append_inj' heq rfl).1
  run q hq := (h.run q hq).within ⟨fun _ h => List.mem_append_left _ h, fun _ h => h, .refl _, fun h => h⟩
  identifiers := h.identifiers
  names r' hr' := by
    rcases List.mem_append.1 hr' with hr' | hr'
    · exact ⟨(h.names r' hr').1, Dictionary.within_extend hn _ _ _ (h.names r' hr').2⟩
    · rw [List.mem_singleton.1 hr']
      exact ⟨hid, by rw [Dictionary.get?_extend hn, if_pos rfl]⟩
  declared id t hglobal := by
    obtain ⟨k, found, hk, hfound⟩ := hglobal
    rw [Dictionary.get?_extend hn] at hk
    split at hk
    · cases hk
      cases hfound
    · exact h.declared id t ⟨k, found, hk, hfound⟩
  defined k sig hk := by
    rw [Dictionary.get?_extend hn] at hk
    split at hk
    · cases hk
      exact ⟨r, List.mem_append_right _ List.mem_cons_self, rfl⟩
    · obtain ⟨r', hr', hsig⟩ := h.defined k sig hk
      exact ⟨r', List.mem_append_left _ hr', hsig⟩
  supplied := h.supplied

end Session.Linked

/-! ## Steps -/

namespace Step

open Session (Linked)

theorem tell_linked (e : Event) : Triple Linked (tell e) (fun _ s => s.Linked) Linked :=
  .modify (fun _ h => { h with })

theorem requireNew_linked (n : String) : Triple Linked (requireNew n) (fun _ s => s.Linked) Linked := by
  unfold requireNew
  refine .bind .get (fun s₀ => ?_)
  split
  · exact .throw (fun _ h => h.2)
  · exact .pure (fun _ h => h.2)

theorem identifier_linked (n : String) :
    Triple Linked (identifier n) (fun id s => s.Linked ∧ s.identifiers.assigned.lookup n = some id) Linked :=
  fun s h => ⟨h.assign n, s.identifiers.lookup_assign n⟩

theorem newGlobal_linked (t : Ty) (n : String) :
    Triple Linked (newGlobal t n) (fun id s => s.Linked ∧ (id, t) ∈ s.globals) Linked := by
  unfold newGlobal
  refine .bind (identifier_linked n) (fun id => ?_)
  refine .bind (Q := fun _ s => s.Linked ∧ (id, t) ∈ s.globals) (.modify (fun s h => ?_)) (fun _ => .pure (fun _ h => h))
  exact ⟨h.1.addGlobal id t, List.mem_append_right _ List.mem_cons_self⟩

theorem declareAll_linked {make : String → Step Meaning}
    (hmake : ∀ n, Triple Linked (make n) (fun m s => s.Linked ∧ Linked.Fits s m) Linked) :
    ∀ ts : List Term, Triple Linked (declareAll make ts) (fun _ s => s.Linked) Linked
  | [] => .pure (fun _ h => h)
  | t :: ts => by
    unfold declareAll
    split
    · exact .throw (fun _ h => h)
    · rename_i n _
      refine .bind (requireNew_linked n) (fun _ => .bind (hmake n) (fun m => ?_))
      refine .bind (declare_triple (fun _ h => h.1) (fun s h hn => ?_)) (fun _ => declareAll_linked hmake ts)
      exact h.1.declare hn h.2

/-- **What a run makes anew** is made with what was linked by then; if it fails, what it has linked stays. -/
theorem evaluate_linked {α : Type} {s₀ : Session} (h : s₀.Linked) {run : Eval α} {Q : α → Machine → Prop}
    (hrun : Eval.MakesAnew run Q s₀.linkage) :
    Triple (· = s₀) (evaluate run)
      (fun a s => ∃ m, s = { s₀ with vars := m.vars, linkage := m.linkage, log := m.log } ∧ s.Linked ∧ Q a m) Linked := by
  intro s hs
  subst hs
  have hmakes := hrun s.vars s.log
  unfold evaluate
  cases hresult : run (.ready s.vars s.linkage s.log) with
  | error e m =>
    rw [hresult] at hmakes
    exact h.link hmakes m.vars m.log
  | ok a m =>
    rw [hresult] at hmakes
    exact ⟨m, rfl, h.link hmakes.1 m.vars m.log, hmakes.2⟩

theorem define_linked {n : String} {r : Routine} (hname : r.name = n) :
    Triple (fun s => s.Linked ∧ s.identifiers.assigned.lookup n = some r.method ∧ r.Made s.dictionary s.linkage) (do
      declare n (.routine r.signature)
      modify (fun s => { s with routines := s.routines ++ [r] }))
      (fun _ s => s.Linked) Linked := by
  refine .bind (declare_triple (Q := fun s => Linked { s with routines := s.routines ++ [r] }) (fun _ h => h.1)
    (fun s h hn => ?_)) (fun _ => .modify (fun _ h => h))
  subst hname
  exact h.1.define hn h.2.1 h.2.2

theorem function_linked (n : String) (body : Group) : Triple Linked (function n body) (fun _ s => s.Linked) Linked := by
  unfold function
  refine .bind (requireNew_linked n) (fun _ => .bind (identifier_linked n) (fun method => ?_))
  refine .bind .get (fun s₀ => .pointwise (fun s hs => ?_))
  obtain ⟨rfl, hs, hid⟩ := hs
  refine .bind (evaluate_linked hs (Eval.makes_routine _ n method body _)) (fun compiled => .pointwise (fun s hs => ?_))
  obtain ⟨m, rfl, hs, ⟨rfl, rfl⟩, hmade⟩ := hs
  -- reduced or not, the method has been made
  have hr : Routine.Made s₀.dictionary m.linkage (if s₀.options.optimize then compiled.reduce else compiled) ∧
      (if s₀.options.optimize then compiled.reduce else compiled).name = compiled.name ∧
      (if s₀.options.optimize then compiled.reduce else compiled).method = compiled.method := by
    split
    · exact ⟨hmade.reduce, rfl, rfl⟩
    · exact ⟨hmade, rfl, rfl⟩
  dsimp only
  generalize (if s₀.options.optimize then compiled.reduce else compiled) = r at hr ⊢
  obtain ⟨hmade, hname, hmethod⟩ := hr
  rw [← hmethod] at hid
  let Ready : Session → Prop := fun s =>
    s.Linked ∧ s.identifiers.assigned.lookup compiled.name = some r.method ∧ r.Made s.dictionary s.linkage
  refine .bind (Q := fun _ => Ready) (.modify (fun s h => ?_)) (fun _ => ?_)
  · rw [h]
    exact ⟨{ hs with }, hid, hmade⟩
  split
  · exact .bind (Q := fun _ => Ready) (.modify (fun s h => ⟨{ h.1 with }, h.2⟩)) (fun _ => define_linked hname)
  · exact define_linked hname

/-- **A session stays closed**, whether a command succeeds or fails. -/
theorem command_linked (c : Command) : Triple Linked (command c) (fun _ s => s.Linked) Linked := by
  have hplain : ∀ m : Meaning, (∀ s, Linked.Fits s m) → ∀ ts,
      Triple Linked (declareAll (fun _ => return m) ts) (fun _ s => s.Linked) Linked :=
    fun m hm => declareAll_linked (fun _ => .pure (fun s h => ⟨h, hm s⟩))
  have hglobal : ∀ (t : Ty) (make : String → Meaning),
      (∀ s : Session, ∀ id, (id, t) ∈ s.globals → Linked.Fits s (make id)) → ∀ ts,
      Triple Linked (declareAll (fun n => return make (← newGlobal t n)) ts) (fun _ s => s.Linked) Linked :=
    fun t make hm => declareAll_linked (fun n => .bind (newGlobal_linked t n) (fun id => .pure (fun s h => ⟨h.1, hm s id h.2⟩)))
  have hextend : ∀ code : Block, (∀ c, ∀ q ∈ Stmt.actsAll false code, q.2.Closed c) →
      Triple Linked (modify (fun s => { s with run := s.run ++ code })) (fun _ s => s.Linked) Linked :=
    fun code hcode => .modify (fun s h => h.extendRun (fun q hq => hcode _ q hq))
  cases c with
  | function n body span => exact function_linked n body
  | entry fields integers strings span =>
    refine .bind (tell_linked _) (fun _ => .bind (hplain .field (fun _ => ⟨nofun, nofun⟩) _) (fun _ => ?_))
    exact .bind (hplain .entryInteger (fun _ => ⟨nofun, nofun⟩) _) (fun _ => hplain .entryString (fun _ => ⟨nofun, nofun⟩) _)
  | integers names span => exact hglobal .int .globalInteger (fun s id h => ⟨nofun, fun _ _ heq => by cases heq; exact h⟩) _
  | strings names span => exact hglobal .string .globalString (fun s id h => ⟨nofun, fun _ _ heq => by cases heq; exact h⟩) _
  | abbreviation n value span => exact .bind (tell_linked _) (fun _ => .modify (fun _ h => { h with }))
  | run mode n span =>
    refine .bind (tell_linked _) (fun _ => .bind .get (fun s₀ => .pointwise (fun s hs => ?_)))
    obtain ⟨rfl, hs⟩ := hs
    refine .bind (evaluate_linked hs (Eval.makes_command _ mode n _)) (fun code => .modify (fun s hs => ?_))
    obtain ⟨m, rfl, hs, hcode⟩ := hs
    exact hs.extendRun (fun q hq => (hcode q hq).closed (hs.covers q.1))
  | read => exact hextend _ (fun _ => nofun)
  | sort =>
    refine hextend _ (fun c => List.forall_mem_singleton.2 ⟨fun e he x hx => ?_, trivial⟩)
    cases he
    rw [List.mem_singleton.1 hx]
    exact ⟨fun h hh => absurd hh (h.name_ne (by decide)), nofun⟩

end Step

/-! ## Whole sessions -/

namespace Session

theorem linked_new (sourceName : String) (o : Options) : (new sourceName o).Linked := by
  have hcoherent := coherent_new sourceName o
  refine ⟨⟨.nil, fun before r after heq => ?_, nofun⟩, hcoherent.identifiers, nofun, fun id t hglobal => ?_,
    fun n sig hn => ?_, nofun⟩
  · exact absurd heq.symm (List.append_ne_nil_of_right_ne_nil _ (List.cons_ne_nil _ _))
  · obtain ⟨n, m, hn, hm⟩ := hglobal
    have hlookup : (new sourceName o).identifiers.assigned.lookup n = some id := by
      refine hcoherent.globals n id ?_
      unfold Dictionary.globalId?
      rw [show Dictionary.initial.get? n = some m from hn]
      cases m <;> cases hm <;> rfl
    cases hlookup
  · obtain ⟨r, hr, -⟩ := hcoherent.routines n sig hn
    cases hr

theorem Reachable.linked {s : Session} {defs : List (String × Group)} (h : s.Reachable defs) : s.Linked := by
  induction h with
  | new sourceName o => exact linked_new sourceName o
  | note comments log h ih => exact { ih with }
  | @command s s' defs c h hc ih =>
    have hstep := Step.command_linked c s ih
    rw [hc] at hstep
    exact hstep
  | @fault s s' defs c e h hc ih =>
    have hstep := Step.command_linked c s ih
    rw [hc] at hstep
    exact hstep

/-- An input leads from one of these sessions to another, whether it fails or not. -/
theorem Reachable.take {s : Session} {defs : List (String × Group)} (h : s.Reachable defs) (i : Input) :
    ∃ defs', (after (Session.take i s)).Reachable defs' := by
  cases i with
  | source text =>
    have hread := h.readSource text
    change ∃ defs', (after (Session.readSource text s)).Reachable defs'
    cases hresult : Session.readSource text s <;> rw [hresult] at hread <;> exact hread
  | command c =>
    change ∃ defs', (after (EStateM.adaptExcept Fault.analysis (Step.command c) s)).Reachable defs'
    unfold EStateM.adaptExcept
    cases hc : Step.command c s with
    | ok _ s' => exact ⟨_, h.command hc⟩
    | error e s' => exact ⟨_, h.fault hc⟩

/-- **The session after some inputs**; it goes on after one that fails. -/
def afterAll (inputs : List Input) (s : Session) : Session :=
  inputs.foldl (fun s i => after (take i s)) s

theorem Reachable.afterAll : ∀ (inputs : List Input) {s : Session} {defs : List (String × Group)}, s.Reachable defs →
    ∃ defs', (Session.afterAll inputs s).Reachable defs'
  | [], _, defs, h => ⟨defs, h⟩
  | i :: is, _, _, h => by
    obtain ⟨defs', h'⟩ := h.take i
    exact afterAll is h'

/-- **The generated program is closed**, whatever sources and commands a session has been given, in whatever order, whichever
of them failed, and whether methods are reduced or not. -/
theorem afterAll_closed (sourceName : String) (o : Options) (inputs : List Input) :
    (afterAll inputs (new sourceName o)).Closed := by
  obtain ⟨defs, h⟩ := Reachable.afterAll inputs (.new sourceName o)
  exact h.linked.toClosed

end Session
end Bibstyle
