import Mathlib.Logic.Relation
import Bibstyle.Proofs.Closedness
/-!
# Changes — all that a command does to a session

A session changes in few ways: an identifier is given, a name is declared, a global or a function comes about together with
its name, and code is added to what the script runs.  Every command, whether it succeeds or fails, is some of these changes
one after another (`command_leads`), so whatever each of them keeps, every session keeps.
-/
namespace Bibstyle

/-! ## Steps, opened -/

namespace Step

theorem requireNew_apply (n : String) (s : Session) :
    requireNew n s = if s.dictionary.contains n then .error (.redefinition n) s else .ok () s := by
  change (if s.dictionary.contains n then throw (.redefinition n) else pure () : Step Unit) s = _
  split <;> rfl

theorem declare_apply (n : String) (m : Meaning) (s : Session) :
    declare n m s = if s.dictionary.contains n then .error (.redefinition n) s
      else .ok () { s with dictionary := s.dictionary.extend n m } := by
  have hget : (EStateM.get s : EStateM.Result AnalysisFault Session Session) = .ok s s := rfl
  simp only [declare, Bind.bind, EStateM.bind, MonadState.get, getThe, MonadStateOf.get, hget, Dictionary.declare]
  split <;> rfl

/-- The session after a function has been defined. -/
def defined (r : Routine) (s : Session) : Session :=
  { s with
    handlers := if r.signature.isHandler then Session.insertByName r.name r.method s.handlers else s.handlers
    dictionary := s.dictionary.extend r.name (.routine r.signature)
    routines := s.routines ++ [r] }

/-- A function that is new is defined without a fault. -/
theorem define_apply {r : Routine} {s : Session} (hn : s.dictionary.contains r.name = false) :
    (do
      tell (.function r.name r.signature)
      if r.signature.isHandler then
        modify (fun s => { s with handlers := Session.insertByName r.name r.signature.method s.handlers })
      declare r.name (.routine r.signature)
      modify (fun s => { s with routines := s.routines ++ [r] }) : Step Unit) s =
      .ok () (defined r { s with log := s.log.push (.function r.name r.signature) }) := by
  have hlast : ∀ s' : Session, s'.dictionary.contains r.name = false →
      (do
        declare r.name (.routine r.signature)
        modify (fun s => { s with routines := s.routines ++ [r] }) : Step Unit) s' =
        .ok () { s' with
          dictionary := s'.dictionary.extend r.name (.routine r.signature)
          routines := s'.routines ++ [r] } := by
    intro s' hn'
    simp only [Bind.bind, EStateM.bind, declare_apply, hn', Bool.false_eq_true, if_false]
    rfl
  cases hhandler : r.signature.isHandler with
  | true =>
    refine (hlast { s with
      log := s.log.push (.function r.name r.signature)
      handlers := Session.insertByName r.name r.method s.handlers } hn).trans ?_
    simp only [defined, hhandler, if_true]
  | false =>
    refine (hlast { s with log := s.log.push (.function r.name r.signature) } hn).trans ?_
    simp only [defined, hhandler, Bool.false_eq_true, if_false]

/-- **Defining a function, opened.**  A name that has a meaning changes nothing; a body that fails leaves its variables and
its mark on the linkage and the log, and its name has an identifier from then on. -/
theorem function_apply (n : String) (body : Group) (s : Session) :
    function n body s =
      if s.dictionary.contains n then .error (.redefinition n) s
      else
        let s' := { s with identifiers := (s.identifiers.assign n).2 }
        match Eval.routine s.dictionary s.options.depth n (s.identifiers.assign n).1 body (.ready s.vars s.linkage s.log) with
        | .error e m => .error e { s' with vars := m.vars, linkage := m.linkage, log := m.log }
        | .ok compiled m =>
          let r := if s.options.optimize then compiled.reduce else compiled
          .ok () (defined r { s' with
            vars := m.vars
            linkage := m.linkage
            log := m.log.push (.function n r.signature) }) := by
  simp only [function, Bind.bind, EStateM.bind, requireNew_apply]
  by_cases hn : s.dictionary.contains n = true
  · rw [if_pos hn, if_pos hn]
  rw [if_neg hn, if_neg hn]
  dsimp only [identifier, modifyGet, MonadStateOf.modifyGet, EStateM.modifyGet, get, getThe, MonadStateOf.get, EStateM.get,
    evaluate]
  cases hrun : Eval.routine s.dictionary s.options.depth n (s.identifiers.assign n).1 body (.ready s.vars s.linkage s.log) with
  | error e m => rfl
  | ok compiled m =>
    have hname : (if s.options.optimize then compiled.reduce else compiled).name = n := by
      obtain ⟨m₁, value, -, -, rfl, -⟩ := Eval.routine_ok hrun
      split <;> rfl
    dsimp only
    generalize (if s.options.optimize then compiled.reduce else compiled) = r at hname ⊢
    subst hname
    exact define_apply (by simpa using hn)

theorem run_apply (mode : RunMode) (f : String) (span : Span) (s : Session) :
    run mode f span s =
      match Eval.command s.dictionary s.options.depth mode f (.ready s.vars s.linkage (s.log.push (.command span mode f))) with
      | .error e m => .error e { s with vars := m.vars, linkage := m.linkage, log := m.log }
      | .ok code m => .ok () { s with vars := m.vars, linkage := m.linkage, log := m.log, run := s.run ++ code } := by
  change (evaluate (Eval.command s.dictionary s.options.depth mode f) >>= fun code =>
    modify (fun s => { s with run := s.run ++ code }) : Step Unit) { s with log := s.log.push (.command span mode f) } = _
  simp only [Bind.bind, EStateM.bind, evaluate]
  cases Eval.command s.dictionary s.options.depth mode f (.ready s.vars s.linkage (s.log.push (.command span mode f))) <;> rfl

end Step

/-! ## Changes -/

/-- The signature of a function. -/
def Meaning.signature? : Meaning → Option Signature
  | routine sig => some sig
  | _ => none

namespace Session

/-- A method has been compiled in a session. -/
def Compiles (s : Session) (r : Routine) : Prop :=
  ∃ method body vars linkage log compiled m,
    Eval.routine s.dictionary s.options.depth r.name method body (.ready vars linkage log) = .ok compiled m ∧
      (r = compiled ∨ r = compiled.reduce)

/-- Code that a session may add to what the script runs. -/
def Runs (s : Session) (code : Block) : Prop :=
  code = [.comment "READ"] ∨ code = [.eval (.effectCall "bibDB.sort" [])] ∨
    ∃ mode n vars linkage log m, Eval.command s.dictionary s.options.depth mode n (.ready vars linkage log) = .ok code m

/-- **The ways a session changes.** -/
inductive Change (s : Session) : Session → Prop where
  | note (comments : List String) (vars : Variables) (linkage : Linkage) (log : Array Event) :
    Change s { s with comments := comments, vars := vars, linkage := linkage, log := log }
  | assign (n : String) : Change s { s with identifiers := (s.identifiers.assign n).2 }
  | declare {n : String} {m : Meaning} (hn : s.dictionary.get? n = none) (hroutine : m.signature? = none)
    (hglobal : m.global? = none) : Change s { s with dictionary := s.dictionary.extend n m }
  | global {n : String} {m : Meaning} {t : Ty} (hn : s.dictionary.get? n = none)
    (hm : m.global? = some ((s.identifiers.assign n).1, t)) :
    Change s { s with
      identifiers := (s.identifiers.assign n).2
      globals := s.globals ++ [((s.identifiers.assign n).1, t)]
      dictionary := s.dictionary.extend n m }
  | define {r : Routine} (hn : s.dictionary.get? r.name = none)
    (hid : s.identifiers.assigned.lookup r.name = some r.method) (hr : s.Compiles r) : Change s (Step.defined r s)
  | run {code : Block} (hcode : s.Runs code) : Change s { s with run := s.run ++ code }

/-- **A session becomes another** by some changes. -/
abbrev Leads : Session → Session → Prop :=
  Relation.ReflTransGen Change

/-- What every change keeps, a session keeps. -/
theorem Leads.keeps {P : Session → Prop} (hstep : ∀ {s s'}, s.Change s' → P s → P s') {s s' : Session} (h : s.Leads s')
    (hs : P s) : P s' := by
  induction h with
  | refl => exact hs
  | tail _ hchange ih => exact hstep hchange ih

theorem leads_note (s : Session) (vars : Variables) (linkage : Linkage) (log : Array Event) :
    s.Leads { s with vars := vars, linkage := linkage, log := log } :=
  .single (.note s.comments vars linkage log)

/-- The abbreviations after a command. -/
def abbreviated (c : Command) (known : List (String × String)) : List (String × String) :=
  match c with
  | .abbreviation n value _ => replaceOrAppend n value known
  | _ => known

end Session

namespace Step

open Session (Leads Change after)

theorem get?_of_not_contains {d : Dictionary} {n : String} (h : ¬ d.contains n = true) : d.get? n = none := by
  simpa [Dictionary.contains] using h

theorem leads_bind {α β : Type} {x : Step α} {f : α → Step β} {s : Session} (hx : s.Leads (after (x s)))
    (hf : ∀ a s', Leads s' (after (f a s'))) : s.Leads (after ((x >>= f) s)) := by
  simp only [Bind.bind, EStateM.bind]
  cases hresult : x s with
  | ok a s' =>
    rw [hresult] at hx
    exact hx.trans (hf a s')
  | error e s' =>
    rw [hresult] at hx
    exact hx

/-- A list of names is declared one by one; the first that cannot be declared ends it. -/
theorem declareAll_leads {make : String → Step Meaning}
    (hmake : ∀ n s, s.dictionary.get? n = none → ∃ m s', make n s = .ok m s' ∧ s'.dictionary = s.dictionary ∧
      s.Leads { s' with dictionary := s'.dictionary.extend n m }) :
    ∀ (ts : List Term) (s : Session), s.Leads (after (declareAll make ts s))
  | [], _ => .refl
  | t :: ts, s => by
    unfold declareAll
    cases t.name? with
    | none => exact .refl
    | some n =>
      simp only [Bind.bind, EStateM.bind, requireNew_apply]
      by_cases hn : s.dictionary.contains n = true
      · rw [if_pos hn]
        exact .refl
      · rw [if_neg hn]
        obtain ⟨m, s', hm, hsame, hleads⟩ := hmake n s (get?_of_not_contains hn)
        simp only [hm, declare_apply, hsame, hn, Bool.false_eq_true, if_false]
        rw [hsame] at hleads
        exact hleads.trans (declareAll_leads hmake ts _)

theorem declareAll_plain_leads {m : Meaning} (hroutine : m.signature? = none) (hglobal : m.global? = none)
    (ts : List Term) (s : Session) : s.Leads (after (declareAll (fun _ => return m) ts s)) :=
  declareAll_leads (fun _ s hn => ⟨m, s, rfl, rfl, .single (.declare hn hroutine hglobal)⟩) ts s

theorem declareAll_global_leads {t : Ty} {make : String → Meaning} (hmake : ∀ id, (make id).global? = some (id, t))
    (ts : List Term) (s : Session) :
    s.Leads (after (declareAll (fun n => return make (← newGlobal t n)) ts s)) :=
  declareAll_leads (fun n s hn => ⟨make (s.identifiers.assign n).1,
    { s with
      identifiers := (s.identifiers.assign n).2
      globals := s.globals ++ [((s.identifiers.assign n).1, t)] },
    rfl, rfl, .single (.global hn (hmake _))⟩) ts s

theorem function_leads (n : String) (body : Group) (s : Session) : s.Leads (after (function n body s)) := by
  rw [function_apply]
  by_cases hn : s.dictionary.contains n = true
  · rw [if_pos hn]
    exact .refl
  rw [if_neg hn]
  dsimp only
  have hassign := Relation.ReflTransGen.single (Change.assign (s := s) n)
  cases hrun : Eval.routine s.dictionary s.options.depth n (s.identifiers.assign n).1 body (.ready s.vars s.linkage s.log) with
  | error e m => exact hassign.trans (Session.leads_note _ m.vars m.linkage m.log)
  | ok compiled m =>
    -- reduced or not, the method has its name and its identifier
    have hr : ∃ r, r = (if s.options.optimize then compiled.reduce else compiled) ∧ r.name = n ∧
        r.method = (s.identifiers.assign n).1 ∧ (r = compiled ∨ r = compiled.reduce) := by
      obtain ⟨m₁, value, -, -, rfl, -⟩ := Eval.routine_ok hrun
      split
      · exact ⟨_, rfl, rfl, rfl, .inr rfl⟩
      · exact ⟨_, rfl, rfl, rfl, .inl rfl⟩
    obtain ⟨r, hdef, rfl, hmethod, hfrom⟩ := hr
    dsimp only
    rw [← hdef]
    refine (hassign.trans (Session.leads_note _ m.vars m.linkage _)).tail (.define (get?_of_not_contains hn) ?_ ?_)
    · rw [hmethod]
      exact s.identifiers.lookup_assign r.name
    · exact ⟨_, body, s.vars, s.linkage, s.log, compiled, m, hrun, hfrom⟩

/-- **Every command is some changes**, apart from the abbreviation it may give. -/
theorem command_leads (c : Command) (s : Session) :
    Leads { s with abbreviations := Session.abbreviated c s.abbreviations } (after (command c s)) := by
  cases c with
  | function n body span => exact function_leads n body s
  | entry fields integers strings span =>
    have htell : ∀ e, s.Leads (after (tell e s)) := fun e => Session.leads_note s s.vars s.linkage _
    refine leads_bind (htell _) (fun _ s => leads_bind (declareAll_plain_leads rfl rfl _ s) (fun _ s => ?_))
    exact leads_bind (declareAll_plain_leads rfl rfl _ s) (fun _ s => declareAll_plain_leads rfl rfl _ s)
  | integers names span => exact declareAll_global_leads (fun _ => rfl) _ s
  | strings names span => exact declareAll_global_leads (fun _ => rfl) _ s
  | abbreviation n value span => exact Session.leads_note _ _ _ _
  | run mode n span =>
    change s.Leads (after (run mode n span s))
    rw [run_apply]
    cases hrun : Eval.command s.dictionary s.options.depth mode n
      (.ready s.vars s.linkage (s.log.push (.command span mode n))) with
    | error e m => exact Session.leads_note _ _ _ _
    | ok code m => exact (Session.leads_note s m.vars m.linkage m.log).tail (.run (.inr (.inr ⟨mode, n, _, _, _, m, hrun⟩)))
  | read => exact .single (.run (.inl rfl))
  | sort => exact .single (.run (.inr (.inl rfl)))

/-- The commands that are tried of some: those up to the first that fails, and that one. -/
def tried : List Command → Session → List Command
  | [], _ => []
  | c :: cs, s =>
    c :: match command c s with
      | .ok _ s' => tried cs s'
      | .error _ _ => []

end Step

/-! ## Histories -/

namespace Session

/-- **The commands that an input has a session try.** -/
def tried : Input → Session → List Command
  | .command c, _ => [c]
  | .source text, s =>
    match Source.tokens s.sourceName text with
    | .error _ => []
    | .ok words =>
      match Reader.program words with
      | .error _ => []
      | .ok cs => Step.tried cs { s with
          comments := Source.preface text
          log := ((s.log.push (.scanning s.sourceName)).push (.grouping words.length)).push (.analyzing cs.length) }

/-- **The commands that some inputs have a session try**; it goes on after one that fails. -/
def triedAll : List Input → Session → List Command
  | [], _ => []
  | i :: is, s => tried i s ++ triedAll is (after (take i s))

/-- **A session after it has tried some commands.** -/
inductive Took (s : Session) : List Command → Session → Prop where
  | start : Took s [] s
  | note {cs : List Command} {s' : Session} (h : Took s cs s') (comments : List String) (log : Array Event) :
    Took s cs { s' with comments := comments, log := log }
  | command {cs : List Command} {s' : Session} (h : Took s cs s') (c : Command) :
    Took s (cs ++ [c]) (after (Step.command c s'))

namespace Took

variable {s₀ s : Session} {before : List Command}

theorem commands : ∀ (cs : List Command) {s : Session} {before : List Command}, Took s₀ before s →
    Took s₀ (before ++ Step.tried cs s) (after (Step.commands cs s))
  | [], s, before, h => by
    rw [Step.tried, List.append_nil]
    exact h
  | c :: cs, s, before, h => by
    have hone := h.command c
    rw [Step.tried, List.append_cons]
    simp only [Step.commands, Bind.bind, EStateM.bind]
    cases hc : Step.command c s with
    | ok _ s' =>
      rw [hc] at hone
      exact commands cs hone
    | error e s' =>
      rw [hc] at hone
      rw [List.append_nil]
      exact hone

theorem take (h : Took s₀ before s) (i : Input) : Took s₀ (before ++ tried i s) (after (Session.take i s)) := by
  cases i with
  | command c =>
    have hone := h.command c
    change Took s₀ _ (after (EStateM.adaptExcept Fault.analysis (Step.command c) s))
    unfold EStateM.adaptExcept
    cases hc : Step.command c s <;> rw [hc] at hone <;> exact hone
  | source text =>
    change Took s₀ _ (after (Session.readSource text s))
    rw [readSource_apply]
    simp only [tried]
    cases Source.tokens s.sourceName text with
    | error e =>
      dsimp only
      rw [List.append_nil]
      exact h.note _ _
    | ok words =>
      dsimp only
      cases Reader.program words with
      | error e =>
        dsimp only
        rw [List.append_nil]
        exact h.note _ _
      | ok cs =>
        have hall := commands cs (h.note (Source.preface text)
          (((s.log.push (.scanning s.sourceName)).push (.grouping words.length)).push (.analyzing cs.length)))
        dsimp only
        generalize Step.commands cs _ = result at hall ⊢
        cases result <;> exact hall

theorem takeAll : ∀ (inputs : List Input) {s : Session} {before : List Command}, Took s₀ before s →
    Took s₀ (before ++ triedAll inputs s) (afterAll inputs s)
  | [], s, before, h => by
    rw [triedAll, List.append_nil]
    exact h
  | i :: is, s, before, h => by
    rw [triedAll, ← List.append_assoc]
    exact takeAll is (h.take i)

/-- **What every change keeps, every session keeps**, if abbreviations do not matter to it. -/
theorem keeps {P : Session → Prop} (hstep : ∀ {s s'}, s.Change s' → P s → P s')
    (habbreviations : ∀ {s} known, P s → P { s with abbreviations := known }) (h : Took s₀ before s) (h₀ : P s₀) : P s := by
  induction h with
  | start => exact h₀
  | @note cs s' h comments log ih => exact hstep (.note comments s'.vars s'.linkage log) ih
  | command h c ih => exact (Step.command_leads c _).keeps hstep (habbreviations _ ih)

theorem abbreviations (h : Took s₀ before s) :
    s.abbreviations = before.foldl (fun known c => abbreviated c known) s₀.abbreviations := by
  have hchange : ∀ {s s' : Session}, s.Change s' → ∀ known, s.abbreviations = known → s'.abbreviations = known := by
    intro s s' h known hs
    cases h <;> exact hs
  induction h with
  | start => rfl
  | note h comments log ih => exact ih
  | command h c ih =>
    rw [List.foldl_concat, ← ih]
    exact (Step.command_leads c _).keeps (fun h => hchange h _) rfl

end Took
end Session
end Bibstyle
