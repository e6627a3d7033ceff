import Bibstyle.Proofs.Bodies
import Bibstyle.Proofs.Identifiers
import Bibstyle.Proofs.Reduction
import Bibstyle.Session.Basic
/-!
# Sessions — what every session keeps in order

A session takes commands one after another, and some of them fail.  Whatever it has taken, no two names share an identifier,
a name keeps its meaning, and each function that has been defined has one method, compiled from its body when only what was
declared before it was known.  So the methods of a session are a program compiled from its style.
-/
namespace Bibstyle

open StackMachine (Item State Program)

/-! ## Names -/

namespace Dictionary

theorem Within.refl (d : Dictionary) : d.Within d :=
  fun _ _ h => h

theorem Within.trans {a b c : Dictionary} (h : a.Within b) (h' : b.Within c) : a.Within c :=
  fun n m hn => h' n m (h n m hn)

/-- A dictionary with one name more. -/
def extend (d : Dictionary) (n : String) (m : Meaning) : Dictionary :=
  ⟨d.entries ++ [(n, m)]⟩

theorem get?_extend {d : Dictionary} {n : String} (hn : d.get? n = none) (m : Meaning) (k : String) :
    (d.extend n m).get? k = if k = n then some m else d.get? k := by
  rw [get?, extend, List.lookup_append]
  by_cases hk : k = n
  · rw [if_pos hk, hk, show d.entries.lookup n = none from hn, List.lookup_cons_self]
    rfl
  · rw [if_neg hk, List.lookup_cons, beq_eq_false_iff_ne.2 hk]
    exact Option.or_none

theorem within_extend {d : Dictionary} {n : String} (hn : d.get? n = none) (m : Meaning) : d.Within (d.extend n m) := by
  intro k found hk
  rw [get?_extend hn, if_neg, hk]
  rintro rfl
  rw [hn] at hk
  cases hk

theorem declare_ok {d d' : Dictionary} {n : String} {m : Meaning} (h : d.declare n m = .ok d') :
    d.get? n = none ∧ d' = d.extend n m := by
  unfold declare at h
  split at h
  · cases h
  · rename_i hnew
    cases h
    exact ⟨by simpa [contains] using hnew, rfl⟩

end Dictionary

theorem Routine.CompiledFrom.within {r : Routine} {d d' : Dictionary} {n : String} {body : Group} (h : r.CompiledFrom d n body)
    (hd : d.Within d') : r.CompiledFrom d' n body := by
  obtain ⟨hsolid, dict, depth, vars, linkage, log, m, hwithin, hroutine⟩ := h
  exact ⟨hsolid, dict, depth, vars, linkage, log, m, hwithin.trans hd, hroutine⟩

/-- **Names, identifiers and methods fit together.**  `defs` are the bodies of the functions. -/
structure Coherent (d : Dictionary) (t : Identifiers) (rs : List Routine) (defs : List (String × Group)) : Prop where
  identifiers : t.Apart
  globals : ∀ n id, d.globalId? n = some id → t.assigned.lookup n = some id
  unique : ∀ r ∈ rs, ∀ r' ∈ rs, r.name = r'.name → r = r'
  methods : ∀ r ∈ rs, t.assigned.lookup r.name = some r.method ∧ d.get? r.name = some (.routine r.signature)
  routines : ∀ n sig, d.get? n = some (.routine sig) →
    ∃ r ∈ rs, r.name = n ∧ r.signature = sig ∧ ∃ body, defs.lookup n = some body ∧ r.CompiledFrom d n body

namespace Coherent

variable {d : Dictionary} {t : Identifiers} {rs : List Routine} {defs : List (String × Group)}

theorem assign (h : Coherent d t rs defs) (n : String) : Coherent d (t.assign n).2 rs defs where
  identifiers := h.identifiers.assign n
  globals k id hk := Identifiers.lookup_assign_old n (h.globals k id hk)
  unique := h.unique
  methods r hr := ⟨Identifiers.lookup_assign_old n (h.methods r hr).1, (h.methods r hr).2⟩
  routines := h.routines

/-- What a name that is no function may be declared to mean. -/
def Fits (t : Identifiers) (n : String) : Meaning → Prop
  | .routine _ => False
  | .globalInteger id | .globalString id => t.assigned.lookup n = some id
  | _ => True

theorem declare (h : Coherent d t rs defs) {n : String} (hn : d.get? n = none) {m : Meaning} (hm : Fits t n m) :
    Coherent (d.extend n m) t rs defs := by
  have hwithin := Dictionary.within_extend hn m
  refine ⟨h.identifiers, fun k id hk => ?_, h.unique, fun r hr => ⟨(h.methods r hr).1, hwithin _ _ (h.methods r hr).2⟩,
    fun k sig hk => ?_⟩
  · unfold Dictionary.globalId? at hk
    rw [Dictionary.get?_extend hn] at hk
    by_cases hkn : k = n
    · rw [if_pos hkn] at hk
      rw [hkn]
      cases m with
      | globalInteger | globalString =>
        cases hk
        exact hm
      | _ => cases hk
    · rw [if_neg hkn] at hk
      exact h.globals k id hk
  · rw [Dictionary.get?_extend hn] at hk
    by_cases hkn : k = n
    · rw [if_pos hkn] at hk
      cases hk
      exact hm.elim
    · rw [if_neg hkn] at hk
      obtain ⟨r, hr, hname, hsig, body, hbody, hfrom⟩ := h.routines k sig hk
      exact ⟨r, hr, hname, hsig, body, hbody, hfrom.within hwithin⟩

/-- **A function is defined.** -/
theorem define (h : Coherent d t rs defs) {r : Routine} (hn : d.get? r.name = none) {body : Group}
    (hid : t.assigned.lookup r.name = some r.method) (hfrom : r.CompiledFrom d r.name body) :
    Coherent (d.extend r.name (.routine r.signature)) t (rs ++ [r]) ((r.name, body) :: defs) := by
  have hwithin := Dictionary.within_extend hn (.routine r.signature)
  have hother : ∀ r' ∈ rs, r'.name ≠ r.name := by
    intro r' hr' hname
    have hdeclared := (h.methods r' hr').2
    rw [hname, hn] at hdeclared
    cases hdeclared
  refine ⟨h.identifiers, fun k id hk => ?_, fun r₁ h₁ r₂ h₂ hname => ?_, fun r' hr' => ?_, fun k sig hk => ?_⟩
  · unfold Dictionary.globalId? at hk
    rw [Dictionary.get?_extend hn] at hk
    by_cases hkn : k = r.name
    · rw [if_pos hkn] at hk
      cases hk
    · rw [if_neg hkn] at hk
      exact h.globals k id hk
  · rw [List.mem_append, List.mem_singleton] at h₁ h₂
    rcases h₁ with h₁ | rfl <;> rcases h₂ with h₂ | rfl
    · exact h.unique r₁ h₁ r₂ h₂ hname
    · exact absurd hname (hother r₁ h₁)
    · exact absurd hname.symm (hother r₂ h₂)
    · rfl
  · rw [List.mem_append, List.mem_singleton] at hr'
    rcases hr' with hr' | rfl
    · exact ⟨(h.methods r' hr').1, hwithin _ _ (h.methods r' hr').2⟩
    · exact ⟨hid, by rw [Dictionary.get?_extend hn, if_pos rfl]⟩
  · rw [Dictionary.get?_extend hn] at hk
    by_cases hkn : k = r.name
    · rw [if_pos hkn] at hk
      cases hk
      refine ⟨r, List.mem_append_right _ List.mem_cons_self, hkn.symm, rfl, body, ?_, ?_⟩
      · rw [hkn]
        exact List.lookup_cons_self
      · rw [hkn]
        exact hfrom.within hwithin
    · rw [if_neg hkn] at hk
      obtain ⟨r', hr', hname, hsig, body', hbody, hfrom'⟩ := h.routines k sig hk
      refine ⟨r', List.mem_append_left _ hr', hname, hsig, body', ?_, hfrom'.within hwithin⟩
      rw [List.lookup_cons, beq_eq_false_iff_ne.2 hkn]
      exact hbody

theorem find?_method (h : Coherent d t rs defs) {r : Routine} (hr : r ∈ rs) : rs.find? (·.method == r.method) = some r := by
  cases hfind : rs.find? (·.method == r.method) with
  | none =>
    have hnot := List.find?_eq_none.1 hfind r hr
    exact absurd (beq_self_eq_true r.method) hnot
  | some r' =>
    have hr' := List.mem_of_find?_eq_some hfind
    have hbeq := List.find?_some hfind
    have hmethod : r'.method = r.method := eq_of_beq hbeq
    have hid' := (h.methods r' hr').1
    rw [hmethod] at hid'
    rw [h.unique r' hr' r hr (h.identifiers.unique _ _ _ hid' (h.methods r hr).1)]

/-- **The methods are a program compiled from the style.** -/
theorem compiled (h : Coherent d t rs defs) : Compiled ⟨d, defs⟩ rs := by
  refine ⟨fun n n' id hn hn' => h.identifiers.unique n n' id (h.globals n id hn) (h.globals n' id hn'), fun n sig body hn hb => ?_⟩
  obtain ⟨r, hr, hname, rfl, body', hbody, hfrom⟩ := h.routines n sig hn
  obtain rfl := Option.some.inj (hbody.symm.trans hb)
  exact ⟨r, h.find?_method hr, rfl, hfrom⟩

theorem solid (h : Coherent d t rs defs) : d.Solid := by
  intro n sig hn
  obtain ⟨r, -, -, rfl, body, -, hfrom⟩ := h.routines n sig hn
  exact hfrom.solid.params

end Coherent

/-! ## Steps -/

/-- **A session is in order**: it keeps its options, and if its methods are as they were compiled, all fits together. -/
structure Session.InOrder (s : Session) (o : Options) (defs : List (String × Group)) : Prop where
  options : s.options = o
  coherent : o.optimize = false → Coherent s.dictionary s.identifiers s.routines defs

namespace Step

variable {α β : Type}

/-- **If `P` holds before a step, then `Q` holds after it, or `I` after its fault.** -/
def Triple (P : Session → Prop) (x : Step α) (Q : α → Session → Prop) (I : Session → Prop) : Prop :=
  ∀ s, P s → match x s with
    | .ok a s' => Q a s'
    | .error _ s' => I s'

section Rules

variable {P P' I : Session → Prop} {Q : α → Session → Prop} {R : β → Session → Prop}

theorem Triple.bind {x : Step α} {f : α → Step β} (hx : Triple P x Q I) (hf : ∀ a, Triple (Q a) (f a) R I) :
    Triple P (x >>= f) R I := by
  intro s hs
  have h := hx s hs
  simp only [Bind.bind, EStateM.bind]
  cases hxs : x s with
  | ok a s' =>
    rw [hxs] at h
    exact hf a s' h
  | error e s' =>
    rw [hxs] at h
    exact h

theorem Triple.pure {a : α} (h : ∀ s, P s → Q a s) : Triple P (pure a) Q I :=
  h

theorem Triple.throw {e : AnalysisFault} (h : ∀ s, P s → I s) : Triple P (throw e : Step α) Q I :=
  h

theorem Triple.modify {f : Session → Session} {Q : Unit → Session → Prop} (h : ∀ s, P s → Q () (f s)) : Triple P (modify f) Q I :=
  h

theorem Triple.get : Triple P get (fun a s => a = s ∧ P s) I :=
  fun _ hs => ⟨rfl, hs⟩

theorem Triple.pre {x : Step α} (h : Triple P x Q I) (hP : ∀ s, P' s → P s) : Triple P' x Q I :=
  fun s hs => h s (hP s hs)

theorem Triple.pointwise {x : Step α} (h : ∀ s, P s → Triple (· = s) x Q I) : Triple P x Q I :=
  fun s hs => h s hs s rfl

end Rules

variable {o : Options} {defs : List (String × Group)}

theorem requireNew_inOrder (n : String) :
    Triple (·.InOrder o defs) (requireNew n) (fun _ s => s.InOrder o defs ∧ s.dictionary.get? n = none) (·.InOrder o defs) := by
  unfold requireNew
  refine .bind .get (fun s₀ => ?_)
  split
  · exact .throw (fun s hs => hs.2)
  · rename_i hnew
    refine .pure (fun s hs => ⟨hs.2, ?_⟩)
    rw [← hs.1]
    simpa [Dictionary.contains] using hnew

/-- Declaring a name keeps whatever the longer dictionary keeps. -/
theorem declare_triple {P I : Session → Prop} {Q : Session → Prop} {n : String} {m : Meaning} (hI : ∀ s, P s → I s)
    (hQ : ∀ s, P s → s.dictionary.get? n = none → Q { s with dictionary := s.dictionary.extend n m }) :
    Triple P (declare n m) (fun _ => Q) I := by
  intro s hs
  have hget : (EStateM.get s : EStateM.Result AnalysisFault Session Session) = .ok s s := rfl
  simp only [declare, Bind.bind, EStateM.bind, MonadState.get, getThe, MonadStateOf.get, hget]
  cases hd : s.dictionary.declare n m with
  | error e => exact hI s hs
  | ok d =>
    obtain ⟨hn, rfl⟩ := Dictionary.declare_ok hd
    exact hQ s hs hn

/-- **Names that mean no function** may be declared. -/
theorem declareAll_inOrder {make : String → Step Meaning}
    (hmake : ∀ n, Triple (·.InOrder o defs) (make n) (fun m s => s.InOrder o defs ∧ Coherent.Fits s.identifiers n m) (·.InOrder o defs)) :
    ∀ ts : List Term, Triple (·.InOrder o defs) (declareAll make ts) (fun _ s => s.InOrder o defs) (·.InOrder o defs)
  | [] => .pure (fun s hs => hs)
  | t :: ts => by
    unfold declareAll
    split
    · exact .throw (fun s hs => hs)
    · rename_i n _
      refine .bind ((requireNew_inOrder n).pre (fun s hs => hs)) (fun _ => ?_)
      refine .bind ((hmake n).pre (fun s hs => hs.1)) (fun m => ?_)
      refine .bind (declare_triple (fun s hs => hs.1) (fun s hs hn => ?_)) (fun _ => declareAll_inOrder hmake ts)
      exact ⟨hs.1.options, fun ho => (hs.1.coherent ho).declare hn hs.2⟩

theorem newGlobal_inOrder (t : Ty) (n : String) :
    Triple (·.InOrder o defs) (newGlobal t n) (fun id s => s.InOrder o defs ∧ s.identifiers.assigned.lookup n = some id)
      (·.InOrder o defs) := by
  unfold newGlobal
  refine .bind (Q := fun id s => s.InOrder o defs ∧ s.identifiers.assigned.lookup n = some id) (fun s hs => ?_) (fun id => ?_)
  · exact ⟨⟨hs.options, fun ho => (hs.coherent ho).assign n⟩, s.identifiers.lookup_assign n⟩
  · exact .bind (Q := fun _ s => s.InOrder o defs ∧ s.identifiers.assigned.lookup n = some id)
      (.modify (fun s hs => ⟨⟨hs.1.options, hs.1.coherent⟩, hs.2⟩)) (fun _ => .pure (fun s hs => hs))

/-- A method is ready to be declared for a function. -/
def Ready (o : Options) (defs : List (String × Group)) (n : String) (body : Group) (r : Routine) (s : Session) : Prop :=
  s.InOrder o defs ∧ (o.optimize = false →
    r.name = n ∧ s.identifiers.assigned.lookup n = some r.method ∧ r.CompiledFrom s.dictionary n body)

theorem define_inOrder {n : String} {r : Routine} {body : Group} :
    Triple (Ready o defs n body r) (do
      declare n (.routine r.signature)
      modify (fun s => { s with routines := s.routines ++ [r] }))
      (fun _ s => s.InOrder o ((n, body) :: defs)) (·.InOrder o defs) := by
  refine .bind (declare_triple (Q := fun s => Session.InOrder { s with routines := s.routines ++ [r] } o ((n, body) :: defs))
    (fun s hs => hs.1) (fun s hs hnew => ⟨hs.1.options, fun ho => ?_⟩)) (fun _ => .modify (fun s hs => hs))
  obtain ⟨rfl, hid, hfrom⟩ := hs.2 ho
  exact (hs.1.coherent ho).define hnew hid hfrom

/-- **A function is compiled in order**, with what has been declared before it. -/
theorem function_inOrder (n : String) (body : Group) :
    Triple (·.InOrder o defs) (function n body) (fun _ s => s.InOrder o ((n, body) :: defs)) (·.InOrder o defs) := by
  unfold function
  refine .bind (requireNew_inOrder n) (fun _ => ?_)
  refine .bind (Q := fun method s => s.InOrder o defs ∧ s.identifiers.assigned.lookup n = some method) (fun s hs => ?_)
    (fun method => .bind .get (fun s₀ => .pointwise (fun s hs => ?_)))
  · exact ⟨⟨hs.1.options, fun ho => (hs.1.coherent ho).assign n⟩, s.identifiers.lookup_assign n⟩
  obtain ⟨rfl, hs, hid⟩ := hs
  have hcompiled : Triple (· = s₀) (evaluate (Eval.routine s₀.dictionary s₀.options.depth n method body))
      (fun compiled => Ready o defs n body (if s₀.options.optimize then compiled.reduce else compiled)) (·.InOrder o defs) := by
    intro s h
    subst h
    unfold evaluate
    cases hrun : Eval.routine s.dictionary s.options.depth n method body (.ready s.vars s.linkage s.log) with
    | error e m => exact ⟨hs.options, hs.coherent⟩
    | ok compiled m =>
      refine ⟨⟨hs.options, hs.coherent⟩, fun ho => ?_⟩
      have hoff : ¬ s.options.optimize = true := by
        rw [hs.options, ho]
        exact Bool.false_ne_true
      rw [if_neg hoff]
      have hsolid := (Eval.routine_solid (hs.coherent ho).solid _ _ _ _).ok (m := .ready s.vars s.linkage s.log)
        (Eval.start_solid s.linkage s.log) hrun
      have hsource := hrun
      obtain ⟨m₁, value, -, -, rfl, -⟩ := Eval.routine_ok hrun
      exact ⟨rfl, hid, hsolid, _, _, _, _, _, _, .refl _, hsource⟩
  refine .bind hcompiled (fun compiled => ?_)
  dsimp only
  generalize (if s₀.options.optimize then compiled.reduce else compiled) = r
  refine .bind (Q := fun _ => Ready o defs n body r) (.modify (fun s hs => ⟨⟨hs.1.options, hs.1.coherent⟩, hs.2⟩)) (fun _ => ?_)
  split
  · refine .bind (Q := fun _ => Ready o defs n body r) (.modify (fun s hs => ⟨⟨hs.1.options, hs.1.coherent⟩, hs.2⟩)) (fun _ => ?_)
    exact define_inOrder
  · exact define_inOrder

/-- **What a command defines.** -/
def definitions : Command → List (String × Group)
  | .function n body _ => [(n, body)]
  | _ => []

/-- **A session stays in order**, whether a command succeeds or fails. -/
theorem command_inOrder (c : Command) :
    Triple (·.InOrder o defs) (command c) (fun _ s => s.InOrder o (definitions c ++ defs)) (·.InOrder o defs) := by
  have hplain : ∀ m, (∀ t n, Coherent.Fits t n m) → ∀ ts,
      Triple (·.InOrder o defs) (declareAll (fun _ => return m) ts) (fun _ s => s.InOrder o defs) (·.InOrder o defs) :=
    fun m hm => declareAll_inOrder (fun n => .pure (fun s hs => ⟨hs, hm _ n⟩))
  have hglobal : ∀ (t : Ty) (make : String → Meaning), (∀ t n id, t.assigned.lookup n = some id → Coherent.Fits t n (make id)) → ∀ ts,
      Triple (·.InOrder o defs) (declareAll (fun n => return make (← newGlobal t n)) ts) (fun _ s => s.InOrder o defs) (·.InOrder o defs) :=
    fun t make hm => declareAll_inOrder (fun n => .bind (newGlobal_inOrder t n) (fun id => .pure (fun s hs => ⟨hs.1, hm _ n id hs.2⟩)))
  have htell : ∀ e, Triple (·.InOrder o defs) (tell e) (fun _ s => s.InOrder o defs) (·.InOrder o defs) :=
    fun e => .modify (fun s hs => ⟨hs.options, hs.coherent⟩)
  cases c with
  | function n body span => exact function_inOrder n body
  | entry fields integers strings span =>
    refine .bind (htell _) (fun _ => .bind (hplain .field (fun _ _ => trivial) _) (fun _ => ?_))
    exact .bind (hplain .entryInteger (fun _ _ => trivial) _) (fun _ => hplain .entryString (fun _ _ => trivial) _)
  | integers names span => exact hglobal .int .globalInteger (fun _ _ _ h => h) _
  | strings names span => exact hglobal .string .globalString (fun _ _ _ h => h) _
  | abbreviation n value span => exact .bind (htell _) (fun _ => .modify (fun s hs => ⟨hs.options, hs.coherent⟩))
  | run mode n span =>
    refine .bind (htell _) (fun _ => .bind .get (fun s₀ => .bind (Q := fun _ s => s.InOrder o defs) (fun s hs => ?_) (fun code => ?_)))
    · unfold evaluate
      cases Eval.command s₀.dictionary s₀.options.depth mode n (.ready s.vars s.linkage s.log) <;> exact ⟨hs.2.options, hs.2.coherent⟩
    · exact .modify (fun s hs => ⟨hs.options, hs.coherent⟩)
  | read | sort => exact .modify (fun s hs => ⟨hs.options, hs.coherent⟩)

end Step

/-! ## Whole sessions -/

theorem coherent_new (sourceName : String) (o : Options) :
    Coherent Dictionary.initial (Session.new sourceName o).identifiers [] [] := by
  have hassigned : (Session.new sourceName o).identifiers.assigned = [] := rfl
  have hinitial : ∀ q ∈ Dictionary.initial.entries, Coherent.Fits .empty q.1 q.2 := by
    have htest : Dictionary.initial.entries.all (fun q => match q.2 with
        | .routine _ | .globalInteger _ | .globalString _ => false
        | _ => true) = true := by decide
    intro q hq
    have hone := List.all_eq_true.1 htest q hq
    cases hm : q.2 with
    | routine | globalInteger | globalString => rw [hm] at hone; cases hone
    | _ => trivial
  have hget : ∀ n m, Dictionary.initial.get? n = some m → Coherent.Fits .empty n m := by
    intro n m hn
    obtain ⟨l₁, l₂, hsplit, -⟩ := List.lookup_eq_some_iff.1 hn
    exact hinitial (n, m) (by rw [hsplit]; exact List.mem_append_right _ List.mem_cons_self)
  refine ⟨⟨fun n id hn => ?_, fun n n' id hn => ?_⟩, fun n id hn => ?_, nofun, nofun, fun n sig hn => (hget n _ hn).elim⟩
  · rw [hassigned] at hn
    cases hn
  · rw [hassigned] at hn
    cases hn
  · unfold Dictionary.globalId? at hn
    split at hn
    · rename_i hm
      cases hget n _ hm
    · rename_i hm
      cases hget n _ hm
    · cases hn

namespace Session

/-- Reading a source, opened: it is cut into words, its commands are found, and they are taken. -/
theorem readSource_apply (source : String) (s : Session) :
    readSource source s =
      let s₁ := { s with comments := Source.preface source, log := s.log.push (.scanning s.sourceName) }
      match Source.tokens s.sourceName source with
      | .error e => .error (.lexical e) s₁
      | .ok words =>
        let s₂ := { s₁ with log := s₁.log.push (.grouping words.length) }
        match Reader.program words with
        | .error e => .error (.grammar e) s₂
        | .ok cs =>
          match Step.commands cs { s₂ with log := s₂.log.push (.analyzing cs.length) } with
          | .ok a s' => .ok a s'
          | .error e s' => .error (.analysis e) s' := by
  unfold readSource
  change (match Source.tokens s.sourceName source with | .error e => _ | .ok words => _ : EStateM Fault Session Unit) _ = _
  cases Source.tokens s.sourceName source with
  | error e => rfl
  | ok words =>
    change (match Reader.program words with | .error e => _ | .ok cs => _ : EStateM Fault Session Unit) _ = _
    dsimp only
    cases Reader.program words with
    | error e => rfl
    | ok cs =>
      dsimp only
      change EStateM.adaptExcept Fault.analysis (Step.commands cs) _ = _
      unfold EStateM.adaptExcept
      cases Step.commands cs _ <;> rfl

/-- **The sessions that come about**, with the bodies of the functions they have defined.  Commands may fail. -/
inductive Reachable : Session → List (String × Group) → Prop where
  | new (sourceName : String) (o : Options) : Reachable (.new sourceName o) []
  | note {s defs} (comments : List String) (log : Array Event) (h : Reachable s defs) :
    Reachable { s with comments := comments, log := log } defs
  | command {s s' defs c} (h : Reachable s defs) (hc : Step.command c s = .ok () s') : Reachable s' (Step.definitions c ++ defs)
  | fault {s s' defs c e} (h : Reachable s defs) (hc : Step.command c s = .error e s') : Reachable s' defs

namespace Reachable

variable {s : Session} {defs : List (String × Group)}

theorem inOrder (h : s.Reachable defs) : ∃ o, s.InOrder o defs := by
  induction h with
  | new sourceName o => exact ⟨o, rfl, fun _ => coherent_new sourceName o⟩
  | note comments log h ih =>
    obtain ⟨o, ho⟩ := ih
    exact ⟨o, ho.options, ho.coherent⟩
  | @command s s' defs c h hc ih =>
    obtain ⟨o, ho⟩ := ih
    have hstep := Step.command_inOrder c s ho
    rw [hc] at hstep
    exact ⟨o, hstep⟩
  | @fault s s' defs c e h hc ih =>
    obtain ⟨o, ho⟩ := ih
    have hstep := Step.command_inOrder c s ho
    rw [hc] at hstep
    exact ⟨o, hstep⟩

theorem commands : ∀ (cs : List Command) {s : Session} {defs : List (String × Group)}, s.Reachable defs →
    match Step.commands cs s with
    | .ok _ s' | .error _ s' => ∃ defs', s'.Reachable defs'
  | [], s, defs, h => ⟨defs, h⟩
  | c :: cs, s, defs, h => by
    simp only [Step.commands, Bind.bind, EStateM.bind]
    cases hc : Step.command c s with
    | ok _ s' => exact commands cs (h.command hc)
    | error e s' => exact ⟨defs, h.fault hc⟩

/-- **Whatever sources a session reads, it stays one of these.** -/
theorem readSource (source : String) (h : s.Reachable defs) :
    match Session.readSource source s with
    | .ok _ s' | .error _ s' => ∃ defs', s'.Reachable defs' := by
  rw [readSource_apply]
  cases Source.tokens s.sourceName source with
  | error e => exact ⟨defs, h.note _ _⟩
  | ok words =>
    dsimp only
    cases Reader.program words with
    | error e => exact ⟨defs, h.note _ _⟩
    | ok cs =>
      have hcommands := commands cs (h.note (Source.preface source)
        (((s.log.push (.scanning s.sourceName)).push (.grouping words.length)).push (.analyzing cs.length)))
      dsimp only
      generalize Step.commands cs _ = result at hcommands ⊢
      cases result <;> exact hcommands

/-- **The compiler preserves what functions mean.**  A method has been compiled from the body of its function.  If the style
runs the body to its end, on a stack with the arguments of the method on top, then the method ends too, in a world that is
the same.  Below what the method returns, if anything, the stack is as it was below the arguments. -/
theorem preserves_meaning (hs : s.Reachable defs) (hoff : s.options.optimize = false) {r : Routine} (hr : r ∈ s.routines) :
    ∃ body, defs.lookup r.name = some body ∧
      ∀ (rt : Runtime) (ent : Option Entry) (args : List Value) (below : List Item) (σ w : World) (after : State),
        (r.usesEntry = true → ent.isSome = true) → args.length = r.params.length → Matches s.dictionary σ w →
        StackMachine.Runs rt ⟨s.dictionary, defs⟩ ent (.terms body.terms) ⟨args.reverse.map .value ++ below, σ⟩ after →
        ∃ v w', after.stack = v.toList.map .value ++ below ∧ Matches s.dictionary after.world w' ∧
          r.Completes (rt.linked s.routines) (if r.usesEntry then ent else none) ⟨r.bind args, w⟩ v w' := by
  obtain ⟨o, ho⟩ := hs.inOrder
  have hcoherent : Coherent s.dictionary s.identifiers s.routines defs := ho.coherent (by rw [← ho.options, hoff])
  obtain ⟨r', hr', hname, -, body, hbody, hfrom⟩ := hcoherent.routines r.name _ (hcoherent.methods r hr).2
  obtain rfl := hcoherent.unique r' hr' r hr hname
  refine ⟨body, hbody, fun rt ent args below σ w after hpresent hargs hw hruns => ?_⟩
  have hstyle : Compiled ⟨s.dictionary, defs⟩ s.routines := hcoherent.compiled
  have hanswers := Routine.CompiledFrom.answers hfrom hstyle hruns
  obtain ⟨v, w', hstack, hcompletes, hw'⟩ := hanswers args below w hpresent hargs rfl hw
  exact ⟨v, w', hstack, hw', hcompletes⟩

/-- Stores the number on top of the stack in a global, and keeps it there. -/
def keepBest : Group where
  terms :=
    let place : Span := ⟨"", 1, 1, 1, 1⟩
    [.name "duplicate$" place, .quoted "best" place, .name ":=" place]
  span := ⟨"", 1, 1, 1, 1⟩

/-- Raises the global to the number on top of the stack, if that is more, and gives the difference of the two. -/
def raise : Group where
  terms :=
    let place : Span := ⟨"", 1, 1, 1, 1⟩
    [.name "duplicate$" place, .name "best" place, .name ">" place, .block keepBest.terms keepBest.span, .quoted "skip$" place,
     .name "if$" place, .name "best" place, .name "-" place]
  span := ⟨"", 1, 1, 1, 1⟩

/-- What the names in it mean. -/
def raiseNames : List (String × Meaning) :=
  [("duplicate$", .primitive .duplicate), ("best", .globalInteger "best"), (">", .primitive .gt), (":=", .primitive .assign),
   ("if$", .primitive .branch), ("-", .primitive .sub)]

theorem raise_runs {d : Dictionary} (hd : ∀ q ∈ raiseNames, d.get? q.1 = some q.2) (below : List Item) :
    StackMachine.Runs .recording ⟨d, [("raise", raise)]⟩ none (.terms raise.terms) ⟨.value (.int 5) :: below, .filled 3⟩
      ⟨.value (.int 0) :: below, (World.filled 3).setGlobal "best" (.int 5)⟩ := by
  have hduplicate : d.get? "duplicate$" = some (.primitive .duplicate) := hd ("duplicate$", _) (by decide)
  have hbest : d.get? "best" = some (.globalInteger "best") := hd ("best", _) (by decide)
  have hgt : d.get? ">" = some (.primitive .gt) := hd (">", _) (by decide)
  have hassign : d.get? ":=" = some (.primitive .assign) := hd (":=", _) (by decide)
  have hbranch : d.get? "if$" = some (.primitive .branch) := hd ("if$", _) (by decide)
  have hsub : d.get? "-" = some (.primitive .sub) := hd ("-", _) (by decide)
  have htaken : StackMachine.Runs .recording ⟨d, [("raise", raise)]⟩ none (.name "if$")
      ⟨.procedure (.named "skip$") :: .procedure (.group keepBest) :: .value (.int 1) :: .value (.int 5) :: below, .filled 3⟩
      ⟨.value (.int 5) :: below, (World.filled 3).setGlobal "best" (.int 5)⟩ := by
    refine .yes hbranch (by decide) (.group (.run (.act hduplicate .duplicate) (.push rfl (.run ?_ .nil))))
    refine .act hassign (.assign ?_)
    unfold StackMachine.store?
    rw [hbest]
    rfl
  have hmore : StackMachine.Acts .recording d none .gt ⟨.value (.int 3) :: .value (.int 5) :: .value (.int 5) :: below, .filled 3⟩
      ⟨.value (.int 1) :: .value (.int 5) :: below, .filled 3⟩ :=
    .compute (show StackMachine.compute .recording none .gt [.int 5, .int 3] = some (.int 1) from rfl)
  have hless : ∀ w, StackMachine.Acts .recording d none .sub ⟨.value (.int 5) :: .value (.int 5) :: below, w⟩
      ⟨.value (.int 0) :: below, w⟩ :=
    fun w => .compute (show StackMachine.compute .recording none .sub [.int 5, .int 5] = some (.int 0) from rfl)
  refine .run (.act hduplicate .duplicate) (.run (.read hbest rfl) (.run (.act hgt hmore) (.push rfl (.push rfl ?_))))
  exact .run htaken (.run (.read hbest rfl) (.run (.act hsub (hless _)) .nil))

theorem preserves_meaning_raise :
    ∃ (s : Session) (r : Routine), s.Reachable [("raise", raise)] ∧ s.options.optimize = false ∧ r ∈ s.routines ∧
      StackMachine.Runs .recording ⟨s.dictionary, [("raise", raise)]⟩ none (.terms raise.terms)
        ⟨[.value (.int 5), .procedure (.named "skip$")], .filled 3⟩
        ⟨[.value (.int 0), .procedure (.named "skip$")], (World.filled 3).setGlobal "best" (.int 5)⟩ ∧
      ∃ w', w'.globals "best" = .int 5 ∧
        r.Completes (Runtime.recording.linked s.routines) none ⟨r.bind [.int 5], .filled 3⟩ (some (.int 0)) w' := by
  let place : Span := ⟨"", 1, 1, 1, 1⟩
  let declares : Command := .integers ⟨[.name "best" place], place⟩ place
  let defines : Command := .function "raise" raise place
  have hcompiles : (match Step.command declares (.new "" { optimize := false, depth := 1 }) with
      | .ok _ s₁ => match Step.command defines s₁ with
        | .ok _ s =>
          decide (s.options.optimize = false ∧ s.routines.map (fun r => (r.name, r.params.length, r.usesEntry)) = [("raise", 1, false)] ∧
            ∀ q ∈ raiseNames, s.dictionary.get? q.1 = some q.2)
        | .error _ _ => false
      | .error _ _ => false) = true := by decide +kernel
  cases h₁ : Step.command declares (.new "" { optimize := false, depth := 1 }) with
  | error e s₁ => rw [h₁] at hcompiles; cases hcompiles
  | ok _ s₁ =>
    rw [h₁] at hcompiles
    dsimp only at hcompiles
    cases h : Step.command defines s₁ with
    | error e s => rw [h] at hcompiles; cases hcompiles
    | ok _ s =>
      rw [h] at hcompiles
      obtain ⟨hoff, hroutines, hnames⟩ := of_decide_eq_true hcompiles
      have hs : s.Reachable [("raise", raise)] := ((new "" { optimize := false, depth := 1 }).command h₁).command h
      obtain ⟨r, hr, hshape⟩ : ∃ r ∈ s.routines, (r.name, r.params.length, r.usesEntry) = ("raise", 1, false) := by
        have hmem : ("raise", 1, false) ∈ s.routines.map (fun r => (r.name, r.params.length, r.usesEntry)) := by
          rw [hroutines]
          exact List.mem_cons_self
        exact List.mem_map.1 hmem
      simp only [Prod.mk.injEq] at hshape
      have hruns := raise_runs hnames [.procedure (.named "skip$")]
      obtain ⟨body, hbody, hpreserves⟩ := preserves_meaning hs hoff hr
      obtain rfl : raise = body := by
        rw [hshape.1] at hbody
        exact Option.some.inj hbody
      obtain ⟨v, w', hstack, hw', hcompletes⟩ := hpreserves .recording none [.int 5] [.procedure (.named "skip$")] (.filled 3)
        (.filled 3) _ (by rw [hshape.2.2]; exact nofun) hshape.2.1.symm ⟨fun _ _ _ => rfl, rfl, rfl, rfl⟩ hruns
      have hv : v = some (.int 0) := by
        cases v with
        | none => cases hstack
        | some v =>
          obtain ⟨⟩ := hstack
          rfl
      refine ⟨s, r, hs, hoff, hr, hruns, w', ?_, ?_⟩
      · refine (hw'.globals "best" "best" ?_).trans rfl
        rw [Dictionary.globalId?, hnames ("best", .globalInteger "best") (by decide)]
      · rw [hv, hshape.2.2] at hcompletes
        exact hcompletes

end Reachable
end Session

end Bibstyle
