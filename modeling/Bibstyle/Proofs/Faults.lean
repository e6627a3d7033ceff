import Bibstyle.Proofs.Changes
import Bibstyle.Proofs.Lookups
import Bibstyle.Proofs.Passages
import Bibstyle.Proofs.Reading
import Bibstyle.Session.Script
/-!
# Faults — what a compilation can fail with

Some faults are for mistakes of the compiler: a term where the grammar has none, a remark without a place.  No source brings
them about, because every stage gets what it may expect of the one before it.  The scanner gives words with places; the reader
lets only names into lists of names and nothing that belongs to entries into bodies; bodies of that kind fail only with faults
of the style; and whatever they leave for the script names only variables that its scope has.
-/
namespace Bibstyle

/-- **Whether a fault is one for a user to read**: its place is told, or it is about what the style means. -/
def Fault.isReported : Fault → Bool
  | .lexical f => f.span?.isSome
  | .grammar _ => true
  | .analysis f => !f.isInternal
  | .unreadable _ _ | .direct _ | .output _ => false

/-! ## Bodies -/

/-- **Bodies as the grammar has them**: they fail only with faults of the style. -/
def Custom.grammatical (P : Span → Prop) : Custom :=
  ⟨fun p => ∀ t ∈ p.terms, t.InBody P, fun e => e.isInternal = false⟩

theorem Term.InBody.admits {P : Span → Prop} {t : Term} (h : t.InBody P) : (Custom.grammatical P).Admits t := by
  cases h with
  | block hts _ => exact hts
  | quoted => exact nofun
  | integer | string | name => trivial

theorem Custom.lawful_grammatical (P : Span → Prop) : (Custom.grammatical P).Lawful :=
  ⟨fun _ hp t ht => (hp t ht).admits, fun _ h => h⟩

/-! ## Commands -/

theorem Group.Lists.named {P : Span → Prop} {make : String → Span → Term} {g : Group} (h : g.Lists P make)
    (hmake : ∀ n s, (make n s).name? = some n) : ∀ t ∈ g.terms, t.name? ≠ none := by
  intro t ht
  obtain ⟨n, s, rfl, -⟩ := h.terms t ht
  rw [hmake n s]
  exact nofun

namespace Step

variable {α β : Type} {P : Span → Prop}

/-- **A step that fails only with faults of the style.** -/
def Reports (x : Step α) : Prop :=
  ∀ s e s', x s = .error e s' → e.isInternal = false

theorem Reports.bind {x : Step α} {f : α → Step β} (hx : x.Reports) (hf : ∀ a, Reports (f a)) : Reports (x >>= f) := by
  intro s e s' h
  simp only [Bind.bind, EStateM.bind] at h
  cases hxs : x s with
  | ok a s₁ =>
    rw [hxs] at h
    exact hf a s₁ e s' h
  | error e₁ s₁ =>
    rw [hxs] at h
    cases h
    exact hx s _ _ hxs

theorem Reports.total {x : Step α} (h : ∀ s, ∃ a s', x s = .ok a s') : x.Reports := by
  intro s e s' hs
  obtain ⟨a, s₁, h⟩ := h s
  rw [h] at hs
  cases hs

theorem reports_requireNew (n : String) : Reports (requireNew n) := by
  intro s e s' h
  rw [requireNew_apply] at h
  split at h <;> cases h
  rfl

theorem reports_declare (n : String) (m : Meaning) : Reports (declare n m) := by
  intro s e s' h
  rw [declare_apply] at h
  split at h <;> cases h
  rfl

/-- A list of names is declared, whatever becomes of each. -/
theorem reports_declareAll {make : String → Step Meaning} (hmake : ∀ n, Reports (make n)) :
    ∀ {ts : List Term}, (∀ t ∈ ts, t.name? ≠ none) → Reports (declareAll make ts)
  | [], _ => .total (fun _ => ⟨_, _, rfl⟩)
  | t :: ts, h => by
    rw [List.forall_mem_cons] at h
    unfold declareAll
    cases hn : t.name? with
    | none => exact absurd hn h.1
    | some n =>
      refine (reports_requireNew n).bind (fun _ => (hmake n).bind (fun m => ?_))
      exact (reports_declare n m).bind (fun _ => reports_declareAll hmake h.2)

theorem reports_function {n : String} {body : Group} (hbody : body.toTerm.InBody P) : Reports (function n body) := by
  intro s e s' h
  rw [function_apply] at h
  split at h
  · cases h
    rfl
  · dsimp only at h
    split at h
    · rename_i hrun
      cases h
      have hterms : ∀ t ∈ body.terms, (Custom.grammatical P).Admits t := by
        cases hbody with
        | block hts _ => exact fun t ht => (hts t ht).admits
      have hproper := Eval.proper_routine (Custom.lawful_grammatical P) s.dictionary s.options.depth n
        (s.identifiers.assign n).1 hterms
      exact hproper.error (m := .ready s.vars s.linkage s.log) (Eval.start_proper _ _) hrun
    · cases h

theorem reports_run (mode : RunMode) (n : String) (span : Span) : Reports (run mode n span) := by
  intro s e s' h
  rw [run_apply] at h
  split at h
  · rename_i hrun
    cases h
    have hproper := Eval.proper_command (Custom.lawful_grammatical (fun _ => True)) s.dictionary s.options.depth mode n
    exact hproper.error (m := .ready s.vars s.linkage _) (Eval.start_proper _ _) hrun
  · cases h

/-- **A command as the grammar has it fails only with faults of the style.** -/
theorem reports_command {c : Command} (h : c.Grammatical P) : Reports (command c) := by
  have hplain : ∀ m : Meaning, Reports (return m) := fun _ => .total (fun _ => ⟨_, _, rfl⟩)
  cases c with
  | entry fields integers strings span =>
    obtain ⟨hfields, hintegers, hstrings, -⟩ := h
    refine (Reports.total (fun _ => ⟨_, _, rfl⟩)).bind (fun _ => ?_)
    refine (reports_declareAll (fun _ => hplain _) (hfields.named (fun _ _ => rfl))).bind (fun _ => ?_)
    refine (reports_declareAll (fun _ => hplain _) (hintegers.named (fun _ _ => rfl))).bind (fun _ => ?_)
    exact reports_declareAll (fun _ => hplain _) (hstrings.named (fun _ _ => rfl))
  | function n body span => exact reports_function h.1
  | integers names span | strings names span =>
    exact reports_declareAll (fun _ => .total (fun _ => ⟨_, _, rfl⟩)) (h.1.named (fun _ _ => rfl))
  | run mode n span => exact reports_run mode n span
  | abbreviation | read | sort => exact .total (fun _ => ⟨_, _, rfl⟩)

theorem reports_commands : ∀ {cs : List Command}, (∀ c ∈ cs, c.Grammatical P) → Reports (commands cs)
  | [], _ => .total (fun _ => ⟨_, _, rfl⟩)
  | c :: cs, h => by
    rw [List.forall_mem_cons] at h
    exact (reports_command h.1).bind (fun _ => reports_commands h.2)

end Step

/-! ## Sessions -/

namespace Session

/-- **A session whose code is proper**: the methods in their scopes, and what the script runs without any. -/
structure Proper (s : Session) : Prop where
  routines : ∀ r ∈ s.routines, r.Proper
  run : Block.Proper 0 s.run

theorem Proper.change {s s' : Session} (h : s.Change s') (hs : s.Proper) : s'.Proper := by
  cases h with
  | note | assign | declare | global => exact ⟨hs.routines, hs.run⟩
  | define hn hid hr =>
    obtain ⟨method, body, vars, linkage, log, compiled, m, hrun, hr⟩ := hr
    have hcompiled := Eval.routine_proper hrun
    refine ⟨List.forall_mem_append.2 ⟨hs.routines, List.forall_mem_singleton.2 ?_⟩, hs.run⟩
    obtain rfl | rfl := hr
    · exact hcompiled
    · exact hcompiled.reduce
  | run hcode =>
    refine ⟨hs.routines, hs.run.append ?_⟩
    obtain rfl | rfl | ⟨mode, n, vars, linkage, log, m, hrun⟩ := hcode
    · exact nofun
    · exact .eval (List.forall_mem_singleton.2 nofun) rfl
    · exact Eval.command_proper hrun

theorem compile_apply (name : String) (o : Options) (source : String) :
    compile name o source =
      match readSource source (.new name o) with
      | .error e s => .error e s
      | .ok _ s => .ok s.script { s with log := s.log.push (.writing s.routines.length) } := by
  simp only [compile, Bind.bind, EStateM.bind]
  cases readSource source (.new name o) <;> rfl

/-- **A session is proper, however its compilation ends.** -/
theorem compile_proper (name : String) (o : Options) (source : String) : (after (compile name o source)).Proper := by
  have hread : (after (readSource source (.new name o))).Proper :=
    (Took.start.take (.source source)).keeps Proper.change (fun _ h => ⟨h.routines, h.run⟩) ⟨nofun, nofun⟩
  rw [compile_apply]
  cases hresult : readSource source (.new name o) with
  | ok u s =>
    rw [hresult] at hread
    exact ⟨hread.routines, hread.run⟩
  | error e s =>
    rw [hresult] at hread
    exact hread

/-- **A source fails only with faults for a user to read.** -/
theorem readSource_reports {source : String} {s s' : Session} {e : Fault} (h : readSource source s = .error e s') :
    e.isReported = true := by
  rw [readSource_apply] at h
  have hwords := Source.tokens_drawn s.sourceName source
  cases htokens : Source.tokens s.sourceName source with
  | error f =>
    rw [htokens] at h hwords
    obtain ⟨span, hspan, -⟩ := hwords
    cases h
    exact Option.isSome_iff_exists.2 ⟨span, hspan⟩
  | ok words =>
    rw [htokens] at h
    have hcommands := Reader.program_drawn htokens
    cases hprogram : Reader.program words with
    | error f =>
      simp only [hprogram] at h
      cases h
      rfl
    | ok cs =>
      simp only [hprogram] at h hcommands
      split at h
      · cases h
      · rename_i hrun
        cases h
        simp [Fault.isReported, Step.reports_commands hcommands _ _ _ hrun]

end Session

/-- **No source makes the compiler fail by its own mistake.**  A compilation that gives no script gives a fault for a user to
read.  On the way, the spans of one source are covered two at a time, in every word, list, command and fault; wherever the run
of a body passes, the scope has all variables on its stacks and in its code; and when the script is written, a method asks its
scope for none that are not there, and what the script runs asks for none at all. -/
theorem compileString_reports (source : String) (o : Options) :
    (∀ e, compileString source o = .error e → e.isReported = true) ∧
    (match Source.tokens "<input>" source with
      | .error e => ∃ s, e.span? = some s ∧ s.Drawn (Source.places "<input>" source)
      | .ok words => (∀ t ∈ words, t.span.Drawn (Source.places "<input>" source)) ∧
        match Reader.program words with
        | .error e => e.At (Span.Drawn (Source.places "<input>" source))
        | .ok cs => ∀ c ∈ cs, c.Grammatical (Span.Drawn (Source.places "<input>" source))) ∧
    (∀ d depth p linkage log fs m, Eval.Passes d depth p (.start linkage log) fs m → ∀ f ∈ m.frame :: fs,
      (∀ e ∈ f.stack, ∀ v ∈ e.vars, v < m.scope.vars.size) ∧ ∀ v ∈ Block.vars f.code, v < m.scope.vars.size) ∧
    let s := Session.after (Session.compile "<input>" o source)
    (∀ r ∈ s.routines, (∀ v ∈ r.vars, v < r.scope.vars.size) ∧
      ∀ more depth, Routine.lines { r with scope := r.scope.extend more } depth = r.lines depth) ∧
    Block.vars s.run = [] ∧ ∀ scope depth, Block.lines s.run scope depth = Block.lines s.run .empty depth := by
  refine ⟨fun e h => ?_, ?_, fun d depth p linkage log fs m h f hf => ?_, ?_⟩
  · unfold compileString at h
    rw [Session.compile_apply] at h
    cases hread : Session.readSource source (.new "<input>" o) with
    | ok u s =>
      rw [hread] at h
      cases h
    | error e' s =>
      rw [hread] at h
      cases h
      exact Session.readSource_reports hread
  · have hwords := Source.tokens_drawn "<input>" source
    cases htokens : Source.tokens "<input>" source with
    | error e =>
      rw [htokens] at hwords
      exact hwords
    | ok words =>
      rw [htokens] at hwords
      have hcommands := Reader.program_drawn htokens
      refine ⟨hwords, ?_⟩
      cases hprogram : Reader.program words <;> rw [hprogram] at hcommands <;> exact hcommands
  · have hframe := h.frames_proper f hf
    exact ⟨fun e he => Expr.lt_of_mem_vars (hframe.stack e he).nodes, hframe.code.vars_lt⟩
  · have hproper := Session.compile_proper "<input>" o source
    have hnone : Block.vars (Session.after (Session.compile "<input>" o source)).run = [] :=
      List.eq_nil_iff_forall_not_mem.2 (fun v hv => Nat.not_lt_zero v (hproper.run.vars_lt v hv))
    refine ⟨fun r hr => ?_, hnone, fun scope depth => ?_⟩
    · have hvars := (hproper.routines r hr).vars_lt
      exact ⟨hvars, fun more depth => Routine.lines_congr depth (fun v hv => Scope.get?_extend (hvars v hv))⟩
    · apply Block.lines_congr
      rw [hnone]
      exact nofun

end Bibstyle
