import Bibstyle.Proofs.Indifference
import Bibstyle.Proofs.Passages
import Bibstyle.Session.Basic
/-!
# Relevance — a function depends on the names it mentions

A run looks a name up where the body has it, or where a procedure has it that the body brought: every procedure on the stack
is part of the body.  So two dictionaries that agree on the names of the body are not told apart by any run of it, and with
what lies outside not being looked at and the variables of the run before being forgotten, a function is compiled to one
method, or fails with one fault, whatever else has been declared, linked or told, and whatever failed before it.
-/
namespace Bibstyle

/-! ## Names -/

mutual

/-- **The names that a term mentions**, bare or quoted, at any depth. -/
def Term.names : Term → List String
  | .block ts _ => Term.namesAll ts
  | .quoted n _ | .name n _ => [n]
  | .integer _ _ | .string _ _ | .field _ _ | .entryInteger _ _ | .entryString _ _ => []

def Term.namesAll : List Term → List String
  | [] => []
  | t :: ts => t.names ++ Term.namesAll ts

end

def Group.names (g : Group) : List String :=
  Term.namesAll g.terms

def Procedure.names : Procedure → List String
  | .group g => g.names
  | .named n => [n]

theorem Term.mem_namesAll {n : String} {ts : List Term} : n ∈ Term.namesAll ts ↔ ∃ t ∈ ts, n ∈ t.names := by
  induction ts with
  | nil => simp [Term.namesAll]
  | cons t ts ih => simp [Term.namesAll, ih]

/-- **Two dictionaries that give some names the same meaning.** -/
def Dictionary.AgreeOn (d d' : Dictionary) (ns : List String) : Prop :=
  ∀ n ∈ ns, d.get? n = d'.get? n

instance (d d' : Dictionary) (ns : List String) : Decidable (d.AgreeOn d' ns) :=
  inferInstanceAs (Decidable (∀ n ∈ ns, d.get? n = d'.get? n))

/-- To expect procedures only that mention names on which two dictionaries agree. -/
def Custom.agreeing (d d' : Dictionary) : Custom :=
  ⟨fun p => d.AgreeOn d' p.names, fun _ => True⟩

variable {d d' : Dictionary}

theorem Custom.admits_agreeing {t : Term} (h : d.AgreeOn d' t.names) : (Custom.agreeing d d').Admits t := by
  cases t with
  | block ts span => exact h
  | quoted n span => exact h
  | _ => trivial

theorem Custom.lawful_agreeing : (Custom.agreeing d d').Lawful where
  terms p hp t ht := by
    cases p with
    | named n => cases ht
    | group g => exact admits_agreeing fun n hn => hp n (Term.mem_namesAll.2 ⟨t, ht, hn⟩)
  faults _ _ := trivial

/-! ## Runs with dictionaries that agree -/

namespace Eval

theorem assign_congr {m : Machine} (hm : m.Proper (.agreeing d d')) : assign d m = assign d' m := by
  unfold assign
  rw [bind_apply, bind_apply]
  cases hpop : pop m with
  | error e m₁ => rfl
  | ok e m₁ =>
    dsimp only
    cases e with
    | quoted n =>
      -- the quoted name is a procedure on the stack
      have hlies := ((proper_popAs .generic).ok hm hpop).2.2
      have hn : d.get? n = d'.get? n := hlies.procedure (.named n) rfl n List.mem_cons_self
      have hassignable : assignable d n = assignable d' n := by rw [assignable, assignable, hn]
      dsimp only
      rw [hassignable]
    | _ => rfl

theorem primitive_agree {run : Procedure → Eval Unit} {p : Primitive} {m : Machine} (hm : m.Proper (.agreeing d d')) :
    primitive d run p m = primitive d' run p m := by
  cases p with
  | assign => exact assign_congr hm
  | _ => rfl

section Runs

variable {run run' : Procedure → Eval Unit}
  (hproper : ∀ n p, (Custom.agreeing d d').procedure p → Proper (.agreeing d d') n (run p) (fun _ _ => True))
  (hrun : ∀ p m, (Custom.agreeing d d').procedure p → m.Proper (.agreeing d d') → run p m = run' p m)

include hproper hrun

theorem name_agree {n : String} {m : Machine} (hn : d.get? n = d'.get? n) (hm : m.Proper (.agreeing d d')) :
    name d run n m = name d' run' n m := by
  -- of the primitives, `:=` alone looks a name up itself; the others only have procedures run
  have hprimitive : ∀ p, primitive d run p m = primitive d' run' p m := by
    intro p
    calc primitive d run p m
      _ = primitive d' run p m := primitive_agree hm
      _ = primitive d' run' p m := primitive_congr fun q _ m₁ henters => by
        obtain ⟨hq, -, hm₁, -⟩ := henters.proper Custom.lawful_agreeing hproper hm
        exact hrun q m₁ hq hm₁
  unfold name
  rw [hn]
  cases d'.get? n with
  | none => rfl
  | some meaning =>
    cases meaning with
    | primitive p => exact hprimitive p
    | _ => rfl

theorem term_agree {t : Term} {m : Machine} (ht : d.AgreeOn d' t.names) (hm : m.Proper (.agreeing d d')) :
    term d run t m = term d' run' t m := by
  cases t with
  | name n place =>
    exact name_agree hproper hrun (m := { m with log := _ }) (ht n List.mem_cons_self) hm
  | _ => rfl

theorem terms_agree {ts : List Term} {m : Machine} (hts : d.AgreeOn d' (Term.namesAll ts)) (hm : m.Proper (.agreeing d d')) :
    terms d run ts m = terms d' run' ts m := by
  induction ts generalizing m with
  | nil => rfl
  | cons t ts ih =>
    have ht : d.AgreeOn d' t.names := fun n hn => hts n (List.mem_append_left _ hn)
    have hrest : d.AgreeOn d' (Term.namesAll ts) := fun n hn => hts n (List.mem_append_right _ hn)
    rw [terms, terms, bind_apply, bind_apply, ← term_agree hproper hrun ht hm]
    cases hfirst : term d run t m with
    | error e m₁ => rfl
    | ok _ m₁ =>
      have hterm : Proper (.agreeing d d') 0 (term d run t) (fun _ _ => True) :=
        proper_term Custom.lawful_agreeing hproper (Custom.admits_agreeing ht)
      exact ih hrest (hterm.ok hm hfirst).2.1

end Runs

theorem proper_agreeing (depth n : Nat) (p : Procedure) (hp : (Custom.agreeing d d').procedure p) :
    Proper (.agreeing d d') n (procedure d depth p) (fun _ _ => True) :=
  proper_procedure Custom.lawful_agreeing d depth n (Custom.lawful_agreeing.terms p hp)

/-- **Procedures that mention only names on which two dictionaries agree run the same with both.** -/
theorem procedure_agree : ∀ (depth : Nat) (p : Procedure) (m : Machine), (Custom.agreeing d d').procedure p →
    m.Proper (.agreeing d d') → procedure d depth p m = procedure d' depth p m
  | 0, _, _, _, _ => rfl
  | depth + 1, .group _, _, hp, hm => terms_agree (proper_agreeing depth) (procedure_agree depth) hp hm
  | depth + 1, .named n, _, hp, hm =>
    name_agree (proper_agreeing depth) (procedure_agree depth) (hp n List.mem_cons_self) hm

theorem routine_agree {body : Group} (h : d.AgreeOn d' body.names) (depth : Nat) (function method : String)
    (vars : Variables) (linkage : Linkage) (log : Array Event) :
    routine d depth function method body (.ready vars linkage log) =
      routine d' depth function method body (.ready vars linkage log) := by
  rw [routine_apply, routine_apply, cleared_ready,
    terms_agree (proper_agreeing depth) (procedure_agree depth) h (start_proper linkage log)]

end Eval

/-- **A session that has heard events**, in order. -/
def Session.hearing (s : Session) (events : List Event) : Session :=
  let o := events.foldl Outside.hear ⟨s.linkage, s.log⟩
  { s with linkage := o.linkage, log := o.log }

namespace Step

/-- A run that looks neither outside nor at the variables that are there ends in one way whatever a session holds. -/
theorem evaluate_indifferent {α : Type} {x : Eval α} (hx : Eval.Indifferent x) (hreset : Eval.Resets x) :
    ∃ (outcome : Except AnalysisFault α) (vars : Variables) (events : List Event), ∀ s,
      evaluate x s = ending outcome { s.hearing events with vars := vars } := by
  obtain ⟨outcome, m', events, hrun⟩ := hx (.start .empty #[])
  refine ⟨outcome, m'.vars, events, fun s => ?_⟩
  have hstart : x (.start s.linkage s.log) = _ := hrun ⟨s.linkage, s.log⟩
  unfold evaluate
  rw [hreset.ready, hstart]
  cases outcome <;> rfl

/-- **A function depends on the names it mentions.**  With any two dictionaries that agree on these names, a body is compiled
to the same method or fails with the same fault, and asks for the same helpers and tells the same in the same order, whatever
the two sessions hold: the variables that another function left, be it that it failed, are forgotten first, and what has been
linked or told before is not looked at. -/
theorem evaluate_routine_agree {d d' : Dictionary} {body : Group} (h : d.AgreeOn d' body.names) (depth : Nat)
    (function method : String) :
    ∃ (outcome : Except AnalysisFault Routine) (vars : Variables) (events : List Event), ∀ s s' : Session,
      evaluate (Eval.routine d depth function method body) s = ending outcome { s.hearing events with vars := vars } ∧
      evaluate (Eval.routine d' depth function method body) s' = ending outcome { s'.hearing events with vars := vars } := by
  obtain ⟨outcome, vars, events, hd⟩ := evaluate_indifferent (Eval.indifferent_routine d depth function method body)
    (Eval.resets_routine d depth function method body)
  refine ⟨outcome, vars, events, fun s s' => ⟨hd s, ?_⟩⟩
  rw [← hd s', evaluate, evaluate, Eval.routine_agree h]

/-- `FUNCTION {punctuate} { 'label := label empty$ { "" } { label add.period$ } if$ }` -/
def punctuate : Group where
  terms :=
    let place : Span := ⟨"", 1, 1, 1, 1⟩
    [.quoted "label" place, .name ":=" place, .name "label" place, .name "empty$" place, .block [.string "" place] place,
     .block [.name "label" place, .name "add.period$" place] place, .name "if$" place]
  span := ⟨"", 1, 1, 1, 1⟩

def fewNames : Dictionary :=
  ⟨("label", .globalString "label") :: Dictionary.initial.entries⟩

def manyNames : Dictionary :=
  ⟨("title", .field) :: Dictionary.initial.entries.reverse ++
    [("count", .globalInteger "count"), ("label", .globalString "label")]⟩

/-- `FUNCTION {exchange} { swap$ }`, which leaves two values and so is no method. -/
def exchange : Group where
  terms := [.name "swap$" ⟨"", 2, 1, 2, 1⟩]
  span := ⟨"", 2, 1, 2, 1⟩

/-- One method, and the helpers in the order of the body, though other names are declared around those that count, and a
function that failed before has left its parameters. -/
theorem evaluate_routine_agree_punctuate :
    fewNames.AgreeOn manyNames punctuate.names ∧ ∃ (r : Routine) (events : List Event),
      (∀ s s' : Session,
        evaluate (Eval.routine fewNames 1 "punctuate" "punctuate" punctuate) s =
          .ok r { s.hearing events with vars := .empty } ∧
        evaluate (Eval.routine manyNames 1 "punctuate" "punctuate" punctuate) s' =
          .ok r { s'.hearing events with vars := .empty }) ∧
      ((Session.new "" {}).hearing events).linkage.helpers = [.isEmpty, .addPeriod] ∧
      ∃ e s, evaluate (Eval.routine fewNames 1 "exchange" "exchange" exchange) (.new "" {}) = .error e s ∧
        s.vars.depths = [(0, 0), (1, 1)] ∧
        evaluate (Eval.routine manyNames 1 "punctuate" "punctuate" punctuate) s =
          .ok r { s.hearing events with vars := .empty } := by
  have hagree : fewNames.AgreeOn manyNames punctuate.names := by decide +kernel
  have hruns : (match evaluate (Eval.routine fewNames 1 "punctuate" "punctuate" punctuate) (.new "" {}) with
      | .ok _ s => decide (s.linkage.helpers = [.isEmpty, .addPeriod] ∧ s.vars.scope.vars = #[])
      | .error _ _ => false) = true := by decide +kernel
  have hfails : (match evaluate (Eval.routine fewNames 1 "exchange" "exchange" exchange) (.new "" {}) with
      | .ok _ _ => false
      | .error _ s => decide (s.vars.depths = [(0, 0), (1, 1)])) = true := by decide +kernel
  obtain ⟨outcome, vars, events, hboth⟩ := evaluate_routine_agree hagree 1 "punctuate" "punctuate"
  rw [(hboth (.new "" {}) (.new "" {})).1] at hruns
  cases outcome with
  | error e => cases hruns
  | ok r =>
    obtain ⟨hhelpers, hnone⟩ := of_decide_eq_true hruns
    obtain rfl : vars = .empty := Variables.ext_scope (congrArg Scope.mk hnone)
    refine ⟨hagree, r, events, hboth, hhelpers, ?_⟩
    cases hexchange : evaluate (Eval.routine fewNames 1 "exchange" "exchange" exchange) (.new "" {}) with
    | ok r' s => rw [hexchange] at hfails; cases hfails
    | error e s =>
      rw [hexchange] at hfails
      exact ⟨e, s, rfl, of_decide_eq_true hfails, (hboth s s).2⟩

end Step
end Bibstyle
