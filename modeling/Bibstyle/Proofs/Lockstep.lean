import Mathlib.Data.List.Forall2
import Bibstyle.Proofs.Acts
import Bibstyle.Session.Basic
/-!
# Lockstep — sessions with and without the reduction

Whether a session reduces its methods cannot be told from anything but their code.  A function is compiled with the
signatures of the functions before it, and the reduction changes no signature: it keeps the type of a result.  So two
sessions that are given the same inputs, and differ only in whether they reduce, go in lockstep: each input succeeds or
fails with the same fault in both, and all that they know stays the same.
-/
namespace Bibstyle

/-! ## Methods that differ in their code -/

/-- **Two methods that only their code tells apart.** -/
structure Routine.Alike (r r' : Routine) : Prop where
  name : r.name = r'.name
  method : r.method = r'.method
  params : r.params = r'.params
  usesEntry : r.usesEntry = r'.usesEntry
  scope : r.scope = r'.scope
  returnType : r.returnType = r'.returnType

namespace Routine

theorem Alike.signature_eq {r r' : Routine} (h : r.Alike r') : r.signature = r'.signature := by
  simp only [signature, h.method, h.params, h.usesEntry, h.scope, h.returnType]

theorem Alike.refl (r : Routine) : r.Alike r :=
  ⟨rfl, rfl, rfl, rfl, rfl, rfl⟩

theorem Alike.symm {r r' : Routine} (h : r.Alike r') : r'.Alike r :=
  ⟨h.name.symm, h.method.symm, h.params.symm, h.usesEntry.symm, h.scope.symm, h.returnType.symm⟩

theorem reduce_alike (r : Routine) : r.reduce.Alike r :=
  ⟨rfl, rfl, rfl, rfl, rfl, congrArg Signature.result r.signature_reduce⟩

/-- Whether each of two sessions reduces it or not, a method comes out alike. -/
theorem alike_of_reduce (r : Routine) (b b' : Bool) :
    Alike (if b then r.reduce else r) (if b' then r.reduce else r) := by
  cases b <;> cases b'
  · exact .refl r
  · exact r.reduce_alike.symm
  · exact r.reduce_alike
  · exact .refl r.reduce

end Routine

namespace Session

/-! ## Inputs -/

/-- **What a session can be given**: a source, or a single command. -/
inductive Input where
  | source (text : String)
  | command (c : Command)

def take : Input → EStateM Fault Session Unit
  | .source text => readSource text
  | .command c => (Step.command c).adaptExcept .analysis

/-- The session after a step, whether it failed or not. -/
def after {ε α : Type} : EStateM.Result ε Session α → Session
  | .ok _ s | .error _ s => s

/-- **What comes of each of some inputs**; a session goes on after one that fails. -/
def takeAll : List Input → Session → List (EStateM.Result Fault Session Unit)
  | [], _ => []
  | i :: is, s => take i s :: takeAll is (after (take i s))

/-! ## Sessions that differ in their code -/

/-- **Two sessions that know the same**: they may differ in whether they reduce, and in the code of their methods. -/
structure Alike (s s' : Session) : Prop where
  options : s'.options = { s.options with optimize := s'.options.optimize }
  sourceName : s.sourceName = s'.sourceName
  comments : s.comments = s'.comments
  dictionary : s.dictionary = s'.dictionary
  linkage : s.linkage = s'.linkage
  vars : s.vars = s'.vars
  identifiers : s.identifiers = s'.identifiers
  routines : List.Forall₂ Routine.Alike s.routines s'.routines
  handlers : s.handlers = s'.handlers
  globals : s.globals = s'.globals
  abbreviations : s.abbreviations = s'.abbreviations
  run : s.run = s'.run
  log : s.log = s'.log

theorem Alike.depth {s s' : Session} (h : s.Alike s') : s.options.depth = s'.options.depth := by
  rw [h.options]

/-- **Two steps end the same way**, in sessions that know the same. -/
inductive Agree {ε α : Type} : EStateM.Result ε Session α → EStateM.Result ε Session α → Prop where
  | ok (a : α) {s s' : Session} (h : s.Alike s') : Agree (.ok a s) (.ok a s')
  | error (e : ε) {s s' : Session} (h : s.Alike s') : Agree (.error e s) (.error e s')

theorem Agree.after {ε α : Type} {x y : EStateM.Result ε Session α} (h : Agree x y) : (after x).Alike (Session.after y) := by
  cases h <;> assumption

/-- **Two steps go in lockstep.** -/
def Lockstep {ε α : Type} (x y : EStateM ε Session α) : Prop :=
  ∀ s s', s.Alike s' → Agree (x s) (y s')

section Rules

variable {ε ε' α β : Type}

theorem Lockstep.bind {x y : EStateM ε Session α} {f g : α → EStateM ε Session β} (hx : Lockstep x y)
    (hf : ∀ a, Lockstep (f a) (g a)) : Lockstep (x >>= f) (y >>= g) := by
  intro s s' h
  have hxy := hx s s' h
  simp only [Bind.bind, EStateM.bind]
  generalize x s = r at hxy
  generalize y s' = r' at hxy
  cases hxy with
  | ok a h => exact hf a _ _ h
  | error e h => exact .error e h

theorem Lockstep.pure (a : α) : Lockstep (pure a : EStateM ε Session α) (pure a) :=
  fun _ _ h => .ok a h

theorem Lockstep.throw (e : ε) : Lockstep (throw e : EStateM ε Session α) (throw e) :=
  fun _ _ h => .error e h

theorem Lockstep.modify {f g : Session → Session} (h : ∀ s s', s.Alike s' → (f s).Alike (g s')) :
    Lockstep (modify f : EStateM ε Session Unit) (modify g) :=
  fun s s' hs => .ok () (h s s' hs)

theorem Lockstep.get {f g : Session → EStateM ε Session β} (h : ∀ s s', s.Alike s' → Lockstep (f s) (g s')) :
    Lockstep (get >>= f) (get >>= g) :=
  fun s s' hs => h s s' hs s s' hs

theorem Lockstep.adaptExcept {x y : EStateM ε Session α} (hx : Lockstep x y) (f : ε → ε') :
    Lockstep (x.adaptExcept f) (y.adaptExcept f) := by
  intro s s' h
  have hxy := hx s s' h
  unfold EStateM.adaptExcept
  generalize x s = r at hxy
  generalize y s' = r' at hxy
  cases hxy with
  | ok a h => exact .ok a h
  | error e h => exact .error (f e) h

end Rules

/-! ## Commands -/

theorem lockstep_tell (e : Event) : Lockstep (Step.tell e) (Step.tell e) :=
  .modify (fun _ _ h => { h with log := by rw [h.log] })

theorem lockstep_identifier (n : String) : Lockstep (Step.identifier n) (Step.identifier n) := by
  intro s s' h
  change Agree (.ok (s.identifiers.assign n).1 { s with identifiers := (s.identifiers.assign n).2 })
    (.ok (s'.identifiers.assign n).1 { s' with identifiers := (s'.identifiers.assign n).2 })
  rw [h.identifiers]
  exact .ok _ { h with identifiers := rfl }

theorem lockstep_requireNew (n : String) : Lockstep (Step.requireNew n) (Step.requireNew n) := by
  refine .get (fun s s' h => ?_)
  rw [h.dictionary]
  split
  · exact .throw _
  · exact .pure ()

theorem lockstep_declare (n : String) (m : Meaning) : Lockstep (Step.declare n m) (Step.declare n m) := by
  intro s s' h
  have hget : ∀ s, (EStateM.get s : EStateM.Result AnalysisFault Session Session) = .ok s s := fun _ => rfl
  simp only [Step.declare, Bind.bind, EStateM.bind, MonadState.get, getThe, MonadStateOf.get, hget, h.dictionary]
  cases s'.dictionary.declare n m with
  | error e => exact .error e h
  | ok d => exact .ok () { h with dictionary := rfl }

theorem lockstep_declareAll {make : String → Step Meaning} (hmake : ∀ n, Lockstep (make n) (make n)) :
    ∀ ts : List Term, Lockstep (Step.declareAll make ts) (Step.declareAll make ts)
  | [] => .pure ()
  | t :: ts => by
    unfold Step.declareAll
    split
    · exact .throw _
    · exact .bind (lockstep_requireNew _) (fun _ => .bind (hmake _) (fun _ => .bind (lockstep_declare _ _) (fun _ =>
        lockstep_declareAll hmake ts)))

theorem lockstep_newGlobal (t : Ty) (n : String) : Lockstep (Step.newGlobal t n) (Step.newGlobal t n) :=
  .bind (lockstep_identifier n) (fun _ => .bind (.modify (fun _ _ h => { h with globals := by rw [h.globals] })) (fun _ =>
    .pure _))

/-- A machine that starts with the same ends with the same. -/
theorem lockstep_evaluate {α : Type} (run : Eval α) : Lockstep (Step.evaluate run) (Step.evaluate run) := by
  intro s s' h
  unfold Step.evaluate
  rw [h.vars, h.linkage, h.log]
  cases run (.ready s'.vars s'.linkage s'.log) with
  | ok a m => exact .ok a { h with vars := rfl, linkage := rfl, log := rfl }
  | error e m => exact .error e { h with vars := rfl, linkage := rfl, log := rfl }

/-- **Alike methods are defined alike**: what a session learns of a method is its signature. -/
theorem lockstep_define (n : String) {r r' : Routine} (hr : r.Alike r') :
    Lockstep (do
      Step.tell (.function n r.signature)
      if r.signature.isHandler then
        modify (fun s => { s with handlers := insertByName n r.signature.method s.handlers })
      Step.declare n (.routine r.signature)
      modify (fun s => { s with routines := s.routines ++ [r] }))
    (do
      Step.tell (.function n r'.signature)
      if r'.signature.isHandler then
        modify (fun s => { s with handlers := insertByName n r'.signature.method s.handlers })
      Step.declare n (.routine r'.signature)
      modify (fun s => { s with routines := s.routines ++ [r'] })) := by
  have hlast : Lockstep (do
      Step.declare n (.routine r'.signature)
      modify (fun s => { s with routines := s.routines ++ [r] }))
    (do
      Step.declare n (.routine r'.signature)
      modify (fun s => { s with routines := s.routines ++ [r'] })) :=
    .bind (lockstep_declare n _) (fun _ => .modify (fun s s' h => { h with
      routines := List.rel_append h.routines (.cons hr .nil) }))
  rw [hr.signature_eq]
  refine .bind (lockstep_tell _) (fun _ => ?_)
  split
  · exact .bind (.modify (fun s s' h => { h with handlers := by rw [h.handlers] })) (fun _ => hlast)
  · exact hlast

theorem lockstep_function (n : String) (body : Group) : Lockstep (Step.function n body) (Step.function n body) := by
  unfold Step.function
  refine .bind (lockstep_requireNew n) (fun _ => .bind (lockstep_identifier n) (fun method => .get (fun s s' h => ?_)))
  rw [h.dictionary, h.depth]
  exact .bind (lockstep_evaluate _) (fun compiled => lockstep_define n (compiled.alike_of_reduce _ _))

/-- **Every command goes in lockstep.** -/
theorem lockstep_command (c : Command) : Lockstep (Step.command c) (Step.command c) := by
  have hplain : ∀ (m : Meaning) (ts : List Term),
      Lockstep (Step.declareAll (fun _ => return m) ts) (Step.declareAll (fun _ => return m) ts) :=
    fun m => lockstep_declareAll (fun _ => .pure m)
  have hglobal : ∀ (t : Ty) (make : String → Meaning) (ts : List Term),
      Lockstep (Step.declareAll (fun n => return make (← Step.newGlobal t n)) ts)
        (Step.declareAll (fun n => return make (← Step.newGlobal t n)) ts) :=
    fun t make => lockstep_declareAll (fun n => .bind (lockstep_newGlobal t n) (fun _ => .pure _))
  have hrun : ∀ code : Block, Lockstep (modify (fun s => { s with run := s.run ++ code }) : Step Unit)
      (modify (fun s => { s with run := s.run ++ code })) :=
    fun code => .modify (fun s s' h => { h with run := by rw [h.run] })
  cases c with
  | entry fields integers strings span =>
    exact .bind (lockstep_tell _) (fun _ => .bind (hplain .field _) (fun _ => .bind (hplain .entryInteger _) (fun _ =>
      hplain .entryString _)))
  | function n body span => exact lockstep_function n body
  | integers names span => exact hglobal .int .globalInteger _
  | strings names span => exact hglobal .string .globalString _
  | abbreviation n value span =>
    exact .bind (lockstep_tell _) (fun _ => .modify (fun s s' h => { h with abbreviations := by rw [h.abbreviations] }))
  | run mode n span =>
    refine .bind (lockstep_tell _) (fun _ => .get (fun s s' h => ?_))
    rw [h.dictionary, h.depth]
    exact .bind (lockstep_evaluate _) hrun
  | read | sort => exact hrun _

theorem lockstep_commands : ∀ cs : List Command, Lockstep (Step.commands cs) (Step.commands cs)
  | [] => .pure ()
  | c :: cs => .bind (lockstep_command c) (fun _ => lockstep_commands cs)

theorem lockstep_readSource (source : String) : Lockstep (readSource source) (readSource source) := by
  have hlog : ∀ e : Event, Lockstep (modify (fun s => { s with log := s.log.push e }) : EStateM Fault Session Unit)
      (modify (fun s => { s with log := s.log.push e })) :=
    fun e => .modify (fun _ _ h => { h with log := by rw [h.log] })
  unfold readSource
  refine .bind (.modify (fun _ _ h => { h with comments := rfl, log := by rw [h.log, h.sourceName] })) (fun _ => ?_)
  refine .get (fun s s' h => ?_)
  rw [h.sourceName]
  split
  · exact .throw _
  · refine .bind (hlog _) (fun _ => ?_)
    split
    · exact .throw _
    · exact .bind (hlog _) (fun _ => (lockstep_commands _).adaptExcept _)

theorem lockstep_take (i : Input) : Lockstep (take i) (take i) := by
  cases i with
  | source text => exact lockstep_readSource text
  | command c => exact (lockstep_command c).adaptExcept _

theorem lockstep_takeAll : ∀ (inputs : List Input) {s s' : Session}, s.Alike s' →
    List.Forall₂ Agree (takeAll inputs s) (takeAll inputs s')
  | [], _, _, _ => .nil
  | i :: is, s, s', h =>
    have hstep : Agree (take i s) (take i s') := lockstep_take i s s' h
    .cons hstep (lockstep_takeAll is hstep.after)

theorem new_alike (sourceName : String) (o : Options) (b b' : Bool) :
    (new sourceName { o with optimize := b }).Alike (new sourceName { o with optimize := b' }) where
  options := rfl
  sourceName := rfl
  comments := rfl
  dictionary := rfl
  linkage := rfl
  vars := rfl
  identifiers := rfl
  routines := .nil
  handlers := rfl
  globals := rfl
  abbreviations := rfl
  run := rfl
  log := rfl

/-- **The reduction changes nothing but code.**  Whatever two sessions are given that differ only in whether they reduce,
every input ends the same way in both, and after it they know the same and have methods with the same signatures and
variables. -/
theorem reduction_changes_code_only (sourceName : String) (o : Options) (inputs : List Input) :
    List.Forall₂ Agree (takeAll inputs (new sourceName { o with optimize := true }))
      (takeAll inputs (new sourceName { o with optimize := false })) :=
  lockstep_takeAll inputs (new_alike sourceName o true false)

end Session
end Bibstyle
