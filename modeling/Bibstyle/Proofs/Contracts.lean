import Bibstyle.Proofs.Counting
import Bibstyle.Proofs.Changes
import Bibstyle.Proofs.Closedness
import Bibstyle.Proofs.Indifference
import Bibstyle.Proofs.Lookups
import Bibstyle.Proofs.Pending
/-!
# Contracts — the functions that a command may run

A command looks at what a function leaves when it is run alone: no value, no variable, and where there is no entry, no use
of one.  That is what the signature of the function says, or would say if a function were defined that does nothing else.  So
all that a script does when it runs is to call methods that are handed nothing but the entry, and the entry only where there
is one.
-/
namespace Bibstyle

/-- **How a function breaks the contract of a command**, by its signature. -/
def Signature.violation? (mode : RunMode) (s : Signature) : Option Violation :=
  if s.result ≠ .void then some .returnValue
  else if s.params ≠ [] then some .arguments
  else if mode = .execute ∧ s.usesEntry = true then some .entryUsage
  else none

/-- **What a function does that can be run alone**, and whether it needs an entry. -/
inductive Errand : Block → Bool → Prop where
  | nothing : Errand [] false
  | line : Errand [.eval (.effectCall "bibWriter.println" [])] false
  | handle : Errand [.eval (.effectCall Helper.callType.name [.entry])] true
  | call (method : String) (usesEntry : Bool) :
    Errand [.eval (.call (.style method) (if usesEntry then [.entry] else []) .void true)] usesEntry

/-- **A function has been run alone**: it took something, left something, or ran an errand. -/
def Machine.RanAlone (m : Machine) : Prop :=
  (∃ v, m.scope.IsParam v) ∨ m.frame.stack ≠ [] ∨
    m.scope = .empty ∧ m.frame.stack = [] ∧ Errand m.frame.code m.usesEntry

theorem Scope.IsParam.not_isEmpty {s : Scope} {v : VarId} (h : s.IsParam v) : s.isEmpty = false := by
  obtain ⟨depth, h⟩ := h
  rw [Bool.eq_false_iff]
  intro hempty
  have hvars : s.vars = #[] := by simpa [Scope.isEmpty] using hempty
  simp [Scope.origin?, Scope.get?, hvars] at h

/-- The next parameter is new, and has the type it is asked for with. -/
theorem Scope.Covers.ty_param {s : Scope} {n : Nat} (h : s.Covers n) (t : Ty) :
    (s.param n t).2.ty (s.param n t).1 = t := by
  have hnew : s.findParam? n = none := by
    refine Array.findIdx?_eq_none_iff.2 (fun x hx => ?_)
    obtain ⟨v, hv⟩ := Array.mem_iff_getElem?.1 hx
    rw [beq_eq_false_iff_ne]
    intro ho
    refine absurd (h.shallow v n ?_) (Nat.lt_irrefl n)
    simp only [Scope.origin?, Scope.get?, hv, Option.map_some, ho]
  simp [Scope.param, hnew, Scope.ty, Scope.get?, Scope.push]

namespace Eval

variable {α β : Type}

/-! ## Drawing from an empty stack -/

/-- **A run that needs a value**: on an empty stack it takes one from the caller. -/
def Draws (x : Eval α) : Prop :=
  ∀ m a m', m.frame.stack = [] → x m = .ok a m' → ∃ v, m'.scope.IsParam v

/-- Whatever value is taken, what comes then only draws. -/
theorem Steady.after_popAs {t : Ty} {f : Expr → Eval β} (h : Steady (popAs t >>= f)) (e : Expr) : Steady (f e) := by
  intro m b m' hf
  have hrun : (popAs t >>= f) { m with frame := { m.frame with stack := e :: m.frame.stack } } = .ok b m' :=
    bind_ok.2 ⟨e, m, popAs_cons rfl, hf⟩
  have hfollows := h _ _ _ hrun
  exact ⟨hfollows.base, hfollows.entry, hfollows.grown⟩

theorem draws_popAs {t : Ty} {f : Expr → Eval β} (h : Steady (popAs t >>= f)) : Draws (popAs t >>= f) := by
  intro m b m' hs hrun
  obtain ⟨e, m₁, hpop, hf⟩ := bind_ok.1 hrun
  rw [popAs_nil hs] at hpop
  obtain ⟨⟩ := hpop
  exact ⟨_, _, (h.after_popAs _ _ _ _ hf).grown.grows _ _ (m.scope.origin?_param _ t)⟩

theorem draws_popTyped {t : Ty} {p : String} {f : Expr → Eval β} (h : Steady (popTyped t p >>= f)) :
    Draws (popTyped t p >>= f) := by
  unfold popTyped at h ⊢
  rw [bind_assoc] at h ⊢
  exact draws_popAs h

theorem draws_popProcedure {p : String} {f : Procedure → Eval β} (h : Steady (popProcedure p >>= f)) :
    Draws (popProcedure p >>= f) := by
  unfold popProcedure pop at h ⊢
  rw [bind_assoc] at h ⊢
  exact draws_popAs h

theorem draws_popArgs {p : String} : ∀ {ts : List Ty} {f : List Expr → Eval β}, ts ≠ [] → Steady (popArgs p ts >>= f) →
    Draws (popArgs p ts >>= f)
  | [], _, hts, _ => absurd rfl hts
  | [t], f, _, h => by
    simp only [popArgs, pure_bind, bind_assoc] at h ⊢
    exact draws_popTyped h
  | t :: t' :: ts, f, _, h => by
    unfold popArgs at h ⊢
    rw [bind_assoc] at h ⊢
    exact draws_popArgs (List.cons_ne_nil t' ts) h

/-- Where nothing lies on the stack, nothing is stored. -/
theorem spillWhere_nil {changes : Expr → Bool} {m : Machine} (h : m.frame.stack = []) : spillWhere changes m = .ok () m := by
  have hget : (get : Eval Machine) m = .ok m m := rfl
  have hset : setStack [] m = .ok () m := by
    rw [← h]
    rfl
  rw [spillWhere, bind_apply, hget]
  dsimp only
  rw [h]
  exact hset

theorem draws_callHelper {p : String} {ts : List Ty} {h : Helper} {t : Ty} (hts : ts ≠ []) : Draws (callHelper p ts h t) := by
  intro m a m' hs hrun
  obtain ⟨_, m₁, hlink, hrun⟩ := bind_ok.1 hrun
  exact draws_popArgs hts (steady_callMethod p ts h.name t) _ a m' (by rw [(link_ok hlink).1, hs]) hrun

/-! ## Functions run alone -/

/-- A call on an empty stack leaves its result, if there is one, and else only the call. -/
theorem invoke_ends (sig : Signature) (args : List Expr) {m : Machine} (hm : m.frame.stack = []) : ∃ m',
    invoke sig args m = .ok () m' ∧ m'.usesEntry = m.usesEntry ∧
    (sig.result = .void → m'.scope = m.scope ∧ m'.frame.stack = [] ∧
      m'.frame.code = m.frame.code ++ [.eval (.call (.style sig.method) args .void true)]) ∧
    (sig.result ≠ .void → m'.frame.stack ≠ []) := by
  simp only [invoke, bind_apply, spillWhere_nil hm]
  by_cases hr : sig.result = .void
  · rw [if_pos hr, hr]
    exact ⟨_, rfl, rfl, fun _ => ⟨rfl, hm, rfl⟩, fun h => absurd rfl h⟩
  · rw [if_neg hr]
    exact ⟨_, rfl, rfl, fun h => absurd h hr, fun _ => List.cons_ne_nil _ _⟩

theorem callRoutine_ends {n : String} {sig : Signature} {args : List Expr} {m m₁ : Machine}
    (h : popArgs n sig.params m = .ok args m₁) (hs : m₁.frame.stack = []) :
    ∃ m', callRoutine n sig m = .ok () m' ∧ m'.usesEntry = (sig.usesEntry || m₁.usesEntry) ∧
      (sig.result = .void → m'.scope = m₁.scope ∧ m'.frame.stack = [] ∧ m'.frame.code = m₁.frame.code ++
        [.eval (.call (.style sig.method) (if sig.usesEntry then .entry :: args else args) .void true)]) ∧
      (sig.result ≠ .void → m'.frame.stack ≠ []) := by
  rw [callRoutine_eq, bind_apply, h]
  -- the entry is touched first, which leaves the stack alone
  cases sig.usesEntry with
  | true => exact invoke_ends sig (.entry :: args) (m := { m₁ with usesEntry := true }) hs
  | false => exact invoke_ends sig args hs

section Alone

variable {d : Dictionary} {run : Procedure → Eval Unit} (hrun : ∀ p, Steady (run p)) {linkage : Linkage} {log : Array Event}

include hrun

theorem primitive_alone {p : Primitive} {m : Machine} (h : primitive d run p (.start linkage log) = .ok () m) : m.RanAlone := by
  have hsteady := steady_primitive hrun d p
  cases p with
  | add | sub | concat | lt | gt | eq => exact .inl (draws_popTyped hsteady _ _ _ rfl h)
  | assign | duplicate | missing | swap => exact .inl (draws_popAs hsteady _ _ _ rfl h)
  | pop | top => exact .inl (draws_popAs (f := fun _ => pure ()) hsteady (.start linkage log) () m rfl h)
  | branch | loop => exact .inl (draws_popProcedure hsteady _ _ _ rfl h)
  | changeCase | intToStr | purify | width | warning | write =>
    exact .inl (draws_popArgs (List.cons_ne_nil _ _) hsteady _ _ _ rfl h)
  | addPeriod | chrToInt | empty | formatName | intToChr | numNames | substring | textLength | textPrefix =>
    exact .inl (draws_callHelper (List.cons_ne_nil _ _) _ _ _ rfl h)
  | cite | preamble | quote | entryType =>
    obtain ⟨⟩ := h
    exact .inr (.inl (List.cons_ne_nil _ _))
  | callType =>
    obtain ⟨_, m₁, hlink, h⟩ := bind_ok.1 h
    obtain ⟨hframe, hscope⟩ := link_ok hlink
    have hstack : m₁.frame.stack = [] := by rw [hframe]; rfl
    have hcode : m₁.frame.code = [] := by rw [hframe]; rfl
    rw [bind_apply, spillWhere_nil hstack] at h
    obtain ⟨⟩ := h
    refine .inr (.inr ⟨hscope, hstack, ?_⟩)
    show Errand (m₁.frame.code ++ _) true
    rw [hcode]
    exact .handle
  | newline =>
    obtain ⟨⟩ := h
    exact .inr (.inr ⟨rfl, rfl, .line⟩)
  | skip | clear =>
    obtain ⟨⟩ := h
    exact .inr (.inr ⟨rfl, rfl, .nothing⟩)

omit hrun in
theorem callRoutine_alone {n : String} {sig : Signature} {m : Machine}
    (h : callRoutine n sig (.start linkage log) = .ok () m) : m.RanAlone := by
  by_cases hparams : sig.params = []
  · have hargs : popArgs n sig.params (.start linkage log) = .ok [] (.start linkage log) := by rw [hparams]; rfl
    obtain ⟨m', hcall, hentry, hvoid, hresult⟩ := callRoutine_ends hargs rfl
    rw [hcall] at h
    obtain ⟨⟩ := h
    by_cases hr : sig.result = .void
    · obtain ⟨hscope, hstack, hcode⟩ := hvoid hr
      refine .inr (.inr ⟨hscope, hstack, ?_⟩)
      rw [hcode, hentry]
      cases sig.usesEntry
      · exact .call sig.method false
      · exact .call sig.method true
    · exact .inr (.inl (hresult hr))
  · exact .inl (draws_popArgs hparams (steady_callRoutine n sig) _ _ _ rfl h)

theorem name_alone {n : String} {m : Machine} (h : name d run n (.start linkage log) = .ok () m) : m.RanAlone := by
  unfold name at h
  cases hmeaning : d.get? n with
  | none =>
    rw [hmeaning] at h
    exact absurd h throw_ok
  | some meaning =>
    rw [hmeaning] at h
    cases meaning with
    | primitive p => exact primitive_alone hrun h
    | routine sig => exact callRoutine_alone h
    | _ =>
      obtain ⟨⟩ := h
      exact .inr (.inl (List.cons_ne_nil _ _))

end Alone

/-! ## Functions of the style -/

/-- A value that fits passes a check. -/
theorem check_passes {e : Expr} {t : Ty} {m : Machine} (p : String) (hvalue : e.isValue = true)
    (hfits : (e.ty m.scope).fits t = true) :
    ∃ m', check e t p m = .ok e m' ∧ m'.frame = m.frame ∧ m'.usesEntry = m.usesEntry := by
  have hty : tyOf e m = .ok (e.ty m.scope) m := rfl
  unfold check
  rw [bind_apply, hty]
  simp only [hvalue, hfits, Bool.not_true, Bool.or_self, Bool.false_eq_true, if_false]
  split
  · exact ⟨_, rfl, rfl, rfl⟩
  · exact ⟨_, rfl, rfl, rfl⟩

/-- **Arguments that come from the caller always fit.** -/
theorem popArgs_drawn (p : String) : ∀ (ts : List Ty) {m : Machine}, m.frame.stack = [] → m.scope.Covers m.frame.reach →
    ∃ args m', popArgs p ts m = .ok args m' ∧ m'.frame.stack = [] ∧ m'.usesEntry = m.usesEntry
  | [], m, hs, _ => ⟨[], m, rfl, hs, rfl⟩
  | t :: ts, m, hs, hm => by
    obtain ⟨args, m₁, hargs, hs₁, hentry₁⟩ := popArgs_drawn p ts hs hm
    have hfollows := steady_popArgs p ts m args m₁ hargs
    have hm₁ : m₁.scope.Covers m₁.frame.reach := by
      have hcovers := hm.grown hfollows.grown (Nat.le_refl _)
      rwa [Nat.max_eq_right hfollows.grown.le] at hcovers
    have hfits : ((m₁.scope.param m₁.frame.reach t).2.ty (m₁.scope.param m₁.frame.reach t).1).fits t = true := by
      rw [hm₁.ty_param, Ty.fits, beq_self_eq_true]
      rfl
    obtain ⟨e, m₂, hpop, hvalue, hfits, hs₂, hentry₂⟩ : ∃ e m₂, popAs t m₁ = .ok e m₂ ∧ e.isValue = true ∧
        (e.ty m₂.scope).fits t = true ∧ m₂.frame.stack = [] ∧ m₂.usesEntry = m₁.usesEntry :=
      ⟨_, _, popAs_nil hs₁, rfl, hfits, hs₁, rfl⟩
    obtain ⟨m₃, hcheck, hframe, hentry₃⟩ := check_passes p hvalue hfits
    refine ⟨e :: args, m₃, ?_, by rw [hframe, hs₂], by rw [hentry₃, hentry₂, hentry₁]⟩
    exact bind_ok.2 ⟨args, m₁, hargs, bind_ok.2 ⟨e, m₃, bind_ok.2 ⟨e, m₂, hpop, hcheck⟩, rfl⟩⟩

/-- **A function of the style breaks the contract of a command if its signature says so.** -/
theorem callRoutine_contract (n : String) (sig : Signature) (linkage : Linkage) (log : Array Event) :
    ∃ m, callRoutine n sig (.start linkage log) = .ok () m ∧ ∀ mode, violation? mode m = sig.violation? mode := by
  obtain ⟨args, m₁, hargs, hs, hentry₁⟩ := popArgs_drawn n sig.params (m := .start linkage log) rfl .empty
  obtain ⟨m, hcall, hentry, hvoid, hresult⟩ := callRoutine_ends hargs hs
  refine ⟨m, hcall, fun mode => ?_⟩
  by_cases hr : sig.result = .void
  · obtain ⟨hscope, hstack, -⟩ := hvoid hr
    by_cases hparams : sig.params = []
    · rw [hparams] at hargs
      obtain ⟨-, rfl⟩ := pure_ok.1 hargs
      have hempty : m.vars.isEmpty = true := by rw [Variables.isEmpty, hscope]; rfl
      simp [violation?, Signature.violation?, hstack, hempty, hentry, hr, hparams, Machine.start, Machine.ready]
    · obtain ⟨v, hv⟩ := draws_popArgs hparams (steady_callRoutine n sig) _ _ _ rfl hcall
      have hfilled : m.vars.isEmpty = false := hv.not_isEmpty
      simp [violation?, Signature.violation?, hstack, hfilled, hr, hparams]
  · simp [violation?, Signature.violation?, hresult hr, hr]

/-! ## Commands -/

theorem violation?_eq_none {mode : RunMode} {m : Machine} :
    violation? mode m = none ↔ m.frame.stack = [] ∧ m.scope = .empty ∧ (mode = .execute → m.usesEntry = false) := by
  constructor
  · intro h
    have hstack : m.frame.stack = [] := by
      unfold violation? at h
      split at h
      · cases h
      · rename_i hs
        simpa using hs
    exact ⟨hstack, violation?_none h⟩
  · rintro ⟨hstack, hscope, hentry⟩
    have hempty : m.vars.isEmpty = true := by rw [Variables.isEmpty, hscope]; rfl
    unfold violation?
    rw [if_neg (by simp [hstack]), if_neg (by simp [hempty]), if_neg (by simpa using hentry)]

/-- A run that does not look outside ends as it would if something else lay there. -/
theorem Indifferent.start_ok {x : Eval α} (hx : Indifferent x) {linkage : Linkage} {log : Array Event} {a : α} {m : Machine}
    (h : x (.start linkage log) = .ok a m) (linkage' : Linkage) (log' : Array Event) :
    ∃ o, x (.start linkage' log') = .ok a (m.facing o) := by
  obtain ⟨outcome, m₁, events, hrun⟩ := hx (.start linkage log)
  have hhere := hrun ⟨linkage, log⟩
  have hthere := hrun ⟨linkage', log'⟩
  change x (.start linkage log) = _ at hhere
  change x (.start linkage' log') = _ at hthere
  rw [h] at hhere
  cases outcome with
  | error e => cases hhere
  | ok b =>
    cases hhere
    exact ⟨_, hthere⟩

theorem routine_of_terms {d : Dictionary} {depth : Nat} {function method : String} {body : Group} {linkage : Linkage}
    {log : Array Event} {m₁ : Machine} (h : terms d (procedure d depth) body.terms (.start linkage log) = .ok () m₁)
    (hs : m₁.frame.stack = []) (vars : Variables) :
    routine d depth function method body (.ready vars linkage log) = .ok
      ⟨function, method, m₁.scope.named.params, m₁.usesEntry, m₁.frame.code, none, m₁.scope.named⟩ m₁.cleared := by
  rw [routine_apply, cleared_ready, h]
  dsimp only
  rw [hs]
  rfl

theorem command_fits {d : Dictionary} {depth : Nat} {mode : RunMode} {f : String} {vars : Variables} {linkage : Linkage}
    {log : Array Event} {m₁ : Machine} (h : name d (procedure d depth) f (.start linkage log) = .ok () m₁)
    (hv : violation? mode m₁ = none) :
    command d depth mode f (.ready vars linkage log) = .ok (performs mode m₁.frame.code) m₁ := by
  rw [command_apply, cleared_ready, h]
  dsimp only
  rw [hv]

theorem command_breaks {d : Dictionary} {depth : Nat} {mode : RunMode} {f : String} {vars : Variables} {linkage : Linkage}
    {log : Array Event} {m₁ : Machine} {v : Violation} (h : name d (procedure d depth) f (.start linkage log) = .ok () m₁)
    (hv : violation? mode m₁ = some v) :
    command d depth mode f (.ready vars linkage log) = .error (.contract mode f v) m₁ := by
  rw [command_apply, cleared_ready, h]
  dsimp only
  rw [hv]

theorem stack_of_result_none {function : String} {s : Scope} {stack : List Expr} (h : result function s stack = .ok none) :
    stack = [] := by
  unfold result at h
  split at h
  · rfl
  · split at h <;> cases h
  · cases h

/-- **A function may be run alone if a function that does nothing else takes nothing and returns nothing.** -/
theorem name_fits_iff {d : Dictionary} {depth : Nat} {f function method : String} {place around : Span} {mode : RunMode}
    {vars : Variables} {linkage linkage' : Linkage} {log log' : Array Event} :
    (∃ m, name d (procedure d depth) f (.start linkage log) = .ok () m ∧ violation? mode m = none) ↔
      ∃ r m, routine d depth function method ⟨[.name f place], around⟩ (.ready vars linkage' log') = .ok r m ∧
        r.result = none ∧ r.params = [] ∧ (mode = .execute → r.usesEntry = false) := by
  have hsteady : ∀ p, Steady (procedure d depth p) := steady_procedure d depth
  have hname : Indifferent (name d (procedure d depth) f) := indifferent_name (indifferent_procedure d depth) f
  -- the only term of the body is told of, and then it is the name that is run
  have hterms : ∀ {m : Machine}, terms d (procedure d depth) [.name f place] (.start linkage' log') = .ok () m ↔
      name d (procedure d depth) f (.start linkage' (log'.push (.evaluating (.name f place)))) = .ok () m := by
    intro m
    constructor
    · intro h
      obtain ⟨_, m₁, hterm, h⟩ := bind_ok.1 h
      obtain ⟨-, rfl⟩ := pure_ok.1 h
      exact hterm
    · exact fun h => bind_ok.2 ⟨(), m, h, rfl⟩
  constructor
  · rintro ⟨m, hm, hv⟩
    obtain ⟨hstack, hscope, hentry⟩ := violation?_eq_none.1 hv
    obtain ⟨o, hm'⟩ := hname.start_ok hm linkage' (log'.push (.evaluating (.name f place)))
    have hleft : (m.facing o).frame.stack = [] := hstack
    refine ⟨_, _, routine_of_terms (hterms.2 hm') hleft vars, rfl, ?_, hentry⟩
    rw [show (m.facing o).scope = .empty from hscope]
    exact (Scope.params_named _).trans (List.eq_nil_of_length_eq_zero Scope.Covers.empty.length_params)
  · rintro ⟨r, m, hr, hresult, hparams, hentry⟩
    obtain ⟨m₁, value, hbody, hvalue, rfl, -⟩ := routine_ok hr
    have hm₁ := hterms.1 hbody
    obtain ⟨o, hm⟩ := hname.start_ok hm₁ linkage log
    refine ⟨_, hm, violation?_eq_none.2 ?_⟩
    have hnone : ¬ ∃ v, m₁.scope.IsParam v := by
      rintro ⟨v, depth, hv⟩
      have hmem : v ∈ m₁.scope.named.params := Scope.mem_params.2 ⟨depth, (m₁.scope.origin?_named v).trans hv⟩
      rw [show m₁.scope.named.params = [] from hparams] at hmem
      cases hmem
    have hstack : m₁.frame.stack = [] := by
      rw [show value = none from hresult] at hvalue
      exact stack_of_result_none hvalue
    obtain ⟨hscope, -, -⟩ := ((name_alone hsteady hm₁).resolve_left hnone).resolve_left (fun h => h hstack)
    exact ⟨hstack, hscope, hentry⟩

end Eval

/-! ## What the script runs -/

/-- Whether a node names the entry: itself, a field or a variable of it, or by a text that begins so. -/
def Expr.namesEntry : Expr → Bool
  | .field _ | .entryVar _ _ | .entry => true
  | .verbatim text _ | .call (.runtime text) _ _ _ => "entry".toList.isPrefixOf text.toList
  | _ => false

/-- **An act that has to do with the entry.** -/
def Act.NamesEntry (a : Act) : Prop :=
  (∃ e, a.expr? = some e ∧ ∃ x ∈ e.nodes, x.namesEntry = true) ∨ ∃ n e, a = .assign (.entryVar n) e

/-- **What a script is told to do**: to read, to sort, or to run an errand, for every entry or without one. -/
inductive Stmt.Ordered : Stmt → Prop where
  | read : Ordered (.comment "READ")
  | sort : Ordered (.eval (.effectCall "bibDB.sort" []))
  | once {b : Block} {t : Stmt} (h : Errand b false) (ht : t ∈ b) : Ordered t
  | each {b : Block} {entry : Bool} (reverse : Bool) (h : Errand b entry) : Ordered (.each reverse b)

theorem Act.namesEntry_eval {e : Expr} : (Act.eval e).NamesEntry ↔ ∃ x ∈ e.nodes, x.namesEntry = true := by
  constructor
  · rintro (⟨_, ⟨⟩, h⟩ | ⟨_, _, ⟨⟩⟩)
    exact h
  · exact fun h => .inl ⟨e, rfl, h⟩

/-- An errand is run without variables, and names the entry only if it needs one. -/
theorem Errand.acts {b : Block} {entry : Bool} (h : Errand b entry) (bound : Bool) :
    ∀ q ∈ Stmt.actsAll bound b, q.1 = bound ∧ q.2.vars = [] ∧ (q.2.NamesEntry → entry = true) := by
  have hplain : ∀ {e : Expr} {entry : Bool}, e.vars = [] → (e.nodes.any Expr.namesEntry = true → entry = true) →
      ∀ q ∈ Stmt.actsAll bound [.eval e], q.1 = bound ∧ q.2.vars = [] ∧ (q.2.NamesEntry → entry = true) := by
    intro e entry hvars hnames
    rw [Stmt.actsAll_single, Stmt.acts]
    refine List.forall_mem_singleton.2 ⟨rfl, hvars, fun h => hnames ?_⟩
    rw [List.any_eq_true]
    exact Act.namesEntry_eval.1 h
  cases h with
  | nothing => exact List.forall_mem_nil _
  | line => exact hplain rfl (by decide)
  | handle => exact hplain rfl (fun _ => rfl)
  | call method =>
    cases entry with
    | false => exact hplain rfl (by intro h; cases h)
    | true => exact hplain rfl (fun _ => rfl)

theorem Stmt.mem_actsAll {bound : Bool} {q : Bool × Act} : ∀ {b : Block}, q ∈ Stmt.actsAll bound b ↔ ∃ t ∈ b, q ∈ Stmt.acts bound t
  | [] => by simp [Stmt.actsAll]
  | t :: b => by simp [Stmt.actsAll, mem_actsAll (b := b)]

theorem Stmt.Ordered.acts {t : Stmt} (h : t.Ordered) :
    ∀ q ∈ Stmt.acts false t, q.2.vars = [] ∧ (q.2.NamesEntry → q.1 = true) := by
  cases h with
  | read => exact List.forall_mem_nil _
  | sort =>
    refine List.forall_mem_singleton.2 ⟨rfl, fun h => ?_⟩
    obtain ⟨x, hx, hname⟩ := Act.namesEntry_eval.1 h
    rw [List.mem_singleton.1 hx] at hname
    exact absurd hname (by decide)
  | once h ht =>
    intro q hq
    obtain ⟨-, hvars, hnames⟩ := h.acts false q (Stmt.mem_actsAll.2 ⟨_, ht, hq⟩)
    exact ⟨hvars, fun h => absurd (hnames h) Bool.false_ne_true⟩
  | each reverse h =>
    intro q hq
    obtain ⟨hbound, hvars, -⟩ := h.acts true q hq
    exact ⟨hvars, fun _ => hbound⟩

/-- **A command tells the script to run an errand.** -/
theorem Eval.command_ordered {d : Dictionary} {depth : Nat} {mode : RunMode} {f : String} {vars : Variables}
    {linkage : Linkage} {log : Array Event} {code : Block} {m : Machine}
    (h : command d depth mode f (.ready vars linkage log) = .ok code m) :
    ∀ t ∈ code, t.Ordered := by
  obtain ⟨hname, hviolation, rfl⟩ := command_ok h
  obtain ⟨hstack, hscope, hentry⟩ := violation?_eq_none.1 hviolation
  have hnone : ¬ ∃ v, m.scope.IsParam v := by
    rintro ⟨v, hv⟩
    have hfilled := hv.not_isEmpty
    rw [hscope] at hfilled
    cases hfilled
  obtain ⟨-, -, herrand⟩ := ((name_alone (steady_procedure d depth) hname).resolve_left hnone).resolve_left (fun h => h hstack)
  cases mode with
  | execute =>
    rw [hentry rfl] at herrand
    exact fun t ht => .once herrand ht
  | iterate => exact List.forall_mem_singleton.2 (.each false herrand)
  | reverse => exact List.forall_mem_singleton.2 (.each true herrand)

theorem Step.run_ok_iff {mode : RunMode} {f : String} {span : Span} {s : Session} :
    (∃ s', Step.command (.run mode f span) s = .ok () s') ↔
      ∃ m, Eval.name s.dictionary (Eval.procedure s.dictionary s.options.depth) f
        (.start s.linkage (s.log.push (.command span mode f))) = .ok () m ∧ Eval.violation? mode m = none := by
  change (∃ s', Step.run mode f span s = .ok () s') ↔ _
  rw [Step.run_apply]
  constructor
  · rintro ⟨s', h⟩
    cases hrun : Eval.command s.dictionary s.options.depth mode f (.ready s.vars s.linkage (s.log.push (.command span mode f))) with
    | error e m => rw [hrun] at h; cases h
    | ok code m =>
      obtain ⟨hname, hviolation, -⟩ := Eval.command_ok hrun
      exact ⟨m, hname, hviolation⟩
  · rintro ⟨m, hname, hviolation⟩
    rw [Eval.command_fits hname hviolation]
    exact ⟨_, rfl⟩

namespace Session

theorem ordered_change {s s' : Session} (h : s.Change s') (hs : ∀ t ∈ s.run, t.Ordered) : ∀ t ∈ s'.run, t.Ordered := by
  cases h with
  | note | assign | declare | global | define => exact hs
  | run hcode =>
    refine List.forall_mem_append.2 ⟨hs, ?_⟩
    obtain rfl | rfl | ⟨mode, n, vars, linkage, log, m, hrun⟩ := hcode
    · exact List.forall_mem_singleton.2 .read
    · exact List.forall_mem_singleton.2 .sort
    · exact Eval.command_ordered hrun

/-- **Commands run the functions that fit, and no others.** -/
structure Contracted (s : Session) : Prop where
  /-- A command is taken exactly if a function that does nothing but run the named one could be compiled, and would take
  nothing, return nothing and, for a command without an entry, use none. -/
  accepts : ∀ mode f span function method place around vars linkage log,
    (∃ s', Step.command (.run mode f span) s = .ok () s') ↔
      ∃ r m, Eval.routine s.dictionary s.options.depth function method ⟨[.name f place], around⟩ (.ready vars linkage log) = .ok r m ∧
        r.result = none ∧ r.params = [] ∧ (mode = .execute → r.usesEntry = false)
  /-- A function of the style is run if its signature fits, and else the fault says what does not. -/
  runs : ∀ r ∈ s.routines, ∀ mode span, r.signature.violation? mode = none →
    ∃ s', Step.command (.run mode r.name span) s = .ok () s'
  rejects : ∀ r ∈ s.routines, ∀ mode span v, r.signature.violation? mode = some v →
    ∃ s', Step.command (.run mode r.name span) s = .error (.contract mode r.name v) s'
  vars : Block.vars s.run = []
  entry : ∀ q ∈ Stmt.actsAll false s.run, q.2.NamesEntry → q.1 = true

/-- **Commands accept exactly the functions that fit**, in whatever session, and what the script does when it runs has no
variables and asks for the entry only where there is one. -/
theorem afterAll_contracted (sourceName : String) (o : Options) (inputs : List Input) :
    (afterAll inputs (new sourceName o)).Contracted := by
  have hordered : ∀ t ∈ (afterAll inputs (new sourceName o)).run, t.Ordered :=
    (Took.takeAll inputs (Took.start (s := new sourceName o))).keeps ordered_change (fun _ h => h) (List.forall_mem_nil _)
  obtain ⟨defs, hreachable⟩ := Reachable.afterAll inputs (.new sourceName o)
  have hnames := hreachable.linked.names
  generalize afterAll inputs (new sourceName o) = s at hordered hnames
  have hacts : ∀ q ∈ Stmt.actsAll false s.run, q.2.vars = [] ∧ (q.2.NamesEntry → q.1 = true) := by
    intro q hq
    obtain ⟨t, ht, hq⟩ := Stmt.mem_actsAll.1 hq
    exact (hordered t ht).acts q hq
  -- a function of the style is called, and how that ends is told by its signature
  have hcontract : ∀ r ∈ s.routines, ∀ mode log, ∃ m,
      Eval.name s.dictionary (Eval.procedure s.dictionary s.options.depth) r.name (.start s.linkage log) = .ok () m ∧
        Eval.violation? mode m = r.signature.violation? mode := by
    intro r hr mode log
    obtain ⟨m, hcall, hm⟩ := Eval.callRoutine_contract r.name r.signature s.linkage log
    refine ⟨m, ?_, hm mode⟩
    rw [Eval.name, (hnames r hr).2]
    exact hcall
  refine ⟨?_, ?_, ?_, ?_, fun q hq => (hacts q hq).2⟩
  · intro mode f span function method place around vars linkage log
    rw [Step.run_ok_iff]
    exact Eval.name_fits_iff
  · intro r hr mode span hfits
    obtain ⟨m, hname, hm⟩ := hcontract r hr mode _
    exact Step.run_ok_iff.2 ⟨m, hname, hm.trans hfits⟩
  · intro r hr mode span v hbreaks
    obtain ⟨m, hname, hm⟩ := hcontract r hr mode (s.log.push (.command span mode r.name))
    change ∃ s', Step.run mode r.name span s = _
    rw [Step.run_apply, Eval.command_breaks hname (hm.trans hbreaks)]
    exact ⟨_, rfl⟩
  · refine List.flatMap_eq_nil_iff.2 (fun q hq => (hacts q hq).1)

end Session
end Bibstyle
