import Bibstyle.Proofs.Calls
import Bibstyle.Proofs.Drawing
import Bibstyle.Proofs.StackMachine
/-!
# Simulation — generated code does what the style does

While a body is compiled, the statements written so far can be thought of as run: then every expression on the symbolic
stack is worth what lies in its place on the stack of the style, however long ago the style put it there.  What is below
the symbolic stack has not been drawn yet and lies there as the caller left it.

A statement that changes the world would change what an expression is worth, so such expressions are stored first; a
statement that stores writes a new variable, which no expression reads.  The parameters of a method are known only when it
is done.  So a step speaks of the scope at the end of the body, and holds for any run that gets there.
-/
namespace Bibstyle

open StackMachine (Item State)

/-! ## Pure expressions -/

namespace Expr

variable {rt : Runtime} {ent : Option Entry} {ρ ρ' : Locals} {w w' : World}

mutual

/-- **A pure expression depends only on what its parts without parts are worth.** -/
theorem Gives.congr_nodes : ∀ {e : Expr} {v : Value}, e.isPure = true →
    (∀ x ∈ e.nodes, x.worth rt ent ρ' w' = x.worth rt ent ρ w) → e.Gives rt ent ρ w v w → e.Gives rt ent ρ' w' v w'
  | call c args t false, v, hp, hn, h => by
    obtain ⟨vs, hvs, hv⟩ := h
    refine ⟨vs, hvs.congr_nodes (by simpa [isPure] using hp) (fun x hx => hn x ?_), hv⟩
    exact List.mem_cons_of_mem _ hx
  | call c args t true, v, hp, _, _ => by simp [isPure] at hp
  | binary op l r, v, hp, hn, h | compare op l r, v, hp, hn, h => by
    simp only [isPure, Bool.and_eq_true] at hp
    obtain ⟨a, w₁, b, hl, hr, hv⟩ := h
    have hw := hl.world_eq hp.1
    rw [hw] at hl hr
    refine ⟨a, w', b, hl.congr_nodes hp.1 (fun x hx => hn x ?_), hr.congr_nodes hp.2 (fun x hx => hn x ?_), hv⟩
    · exact List.mem_cons_of_mem _ (List.mem_append_left _ hx)
    · exact List.mem_cons_of_mem _ (List.mem_append_right _ hx)
  | int _, _, _, hn, h | str _, _, _, hn, h | quoted _, _, _, hn, h | var _, _, _, hn, h | global _ _, _, _, hn, h
  | field _, _, _, hn, h | entryVar _ _, _, _, hn, h | entry, _, _, hn, h | verbatim _ _, _, _, hn, h
  | block _, _, _, hn, h => ⟨(hn _ List.mem_cons_self).trans h.1, rfl⟩

theorem GivesAll.congr_nodes : ∀ {es : List Expr} {vs : List Value}, allPure es = true →
    (∀ x ∈ nodesAll es, x.worth rt ent ρ' w' = x.worth rt ent ρ w) → GivesAll rt ent ρ es w vs w →
      GivesAll rt ent ρ' es w' vs w'
  | [], _, _, _, h => ⟨h.1, rfl⟩
  | e :: es, vs, hp, hn, h => by
    simp only [allPure, Bool.and_eq_true] at hp
    obtain ⟨v, w₁, vs', hv, hvs, rfl⟩ := h
    have hw := hv.world_eq hp.1
    rw [hw] at hv hvs
    refine ⟨v, w', vs', hv.congr_nodes hp.1 (fun x hx => hn x ?_), hvs.congr_nodes hp.2 (fun x hx => hn x ?_), rfl⟩
    · exact List.mem_append_left _ hx
    · exact List.mem_append_right _ hx

end

/-- A world in which all that an expression reads of the state is as it was. -/
theorem Gives.congr_world {e : Expr} {v : Value} (hp : e.isPure = true)
    (hstate : ∀ x ∈ e.nodes, x.isStateRead = true → x.worth rt ent ρ w' = x.worth rt ent ρ w)
    (h : e.Gives rt ent ρ w v w) : e.Gives rt ent ρ w' v w' := by
  refine h.congr_nodes hp (fun x hx => ?_)
  cases x with
  | global n t => exact hstate _ hx rfl
  | entryVar n t => exact hstate _ hx rfl
  | _ => rfl

theorem isValue_of_gives {e : Expr} {v : Value} (h : e.Gives rt ent ρ w v w') : e.isValue = true := by
  cases e with
  | quoted | block => cases h.1
  | _ => rfl

end Expr

/-! ## What stands on the stack -/

/-- **An expression is worth what lies on the stack of the style**, or is the procedure that lies there.  All its variables
are in the scope. -/
inductive Denotes (rt : Runtime) (ent : Option Entry) (s : Scope) (ρ : Locals) (w : World) : Expr → Item → Prop where
  | value {e v} (hpure : e.isPure = true) (hknown : ∀ x ∈ e.vars, s.origin? x ≠ none) (h : e.Gives rt ent ρ w v w) :
    Denotes rt ent s ρ w e (.value v)
  | procedure (p : Procedure) : Denotes rt ent s ρ w p.toExpr (.procedure p)

namespace Denotes

variable {rt : Runtime} {ent : Option Entry} {s s' : Scope} {ρ ρ' : Locals} {w w' : World} {e : Expr} {i : Item}

theorem move (h : Denotes rt ent s ρ w e i) (hs : s.Grows s') (hρ : ∀ x, s.origin? x ≠ none → ρ' x = ρ x) :
    Denotes rt ent s' ρ' w e i := by
  cases h with
  | value hpure hknown h =>
    refine .value hpure (fun x hx hnone => hknown x hx (hs.eq_none hnone)) (h.congr_locals (fun x hx => ?_))
    exact hρ x (hknown x hx)
  | procedure p => exact .procedure p

/-- The variables of an expression may be known in a smaller scope already. -/
theorem rescope (h : Denotes rt ent s' ρ w e i) (hs : ∀ x ∈ e.vars, s.origin? x ≠ none) : Denotes rt ent s ρ w e i := by
  cases h with
  | value hpure _ h => exact .value hpure hs h
  | procedure p => exact .procedure p

theorem other_world (h : Denotes rt ent s ρ w e i)
    (hstate : ∀ x ∈ e.nodes, x.isStateRead = true → x.worth rt ent ρ w' = x.worth rt ent ρ w) :
    Denotes rt ent s ρ w' e i := by
  cases h with
  | value hpure hknown h => exact .value hpure hknown (h.congr_world hpure hstate)
  | procedure p => exact .procedure p

theorem of_isValue (h : Denotes rt ent s ρ w e i) (he : e.isValue = true) :
    ∃ v, i = .value v ∧ e.isPure = true ∧ e.Gives rt ent ρ w v w := by
  cases h with
  | value hpure _ h => exact ⟨_, rfl, hpure, h⟩
  | procedure p => cases p <;> cases he

theorem gives {v : Value} (h : Denotes rt ent s ρ w e (.value v)) : e.Gives rt ent ρ w v w := by
  cases h with
  | value _ _ h => exact h

theorem known (h : Denotes rt ent s ρ w e i) : ∀ x ∈ e.vars, s.origin? x ≠ none := by
  cases h with
  | value _ hknown _ => exact hknown
  | procedure p => cases p <;> exact nofun

theorem eq_toExpr {p : Procedure} (h : Denotes rt ent s ρ w e (.procedure p)) : e = p.toExpr := by
  cases h with
  | procedure => rfl

end Denotes

/-- The identifier of a name that is a global. -/
def Dictionary.globalId? (d : Dictionary) (n : String) : Option String :=
  match d.get? n with
  | some (.globalInteger id) | some (.globalString id) => some id
  | _ => none

/-- **Two worlds are the same**, if globals go by their names in the first and by their identifiers in the second. -/
structure Matches (d : Dictionary) (σ w : World) : Prop where
  globals : ∀ n id, d.globalId? n = some id → w.globals id = σ.globals n
  entryVars : w.entryVars = σ.entryVars
  output : w.output = σ.output
  entries : w.entries = σ.entries

/-- **A method that runs**: what it was handed, and what is known of it when it is compiled.  The topmost argument stands
first. -/
structure Activation where
  runtime : Runtime
  dictionary : Dictionary
  entry : Option Entry
  scope : Scope
  usesEntry : Bool
  args : List Value
  below : List Item

namespace Activation

/-- A machine that may still become the one that compiled the method. -/
def Foresees (c : Activation) (m : Machine) : Prop :=
  m.scope.Grows c.scope ∧ (m.usesEntry = true → c.usesEntry = true)

theorem Foresees.back {c : Activation} {m m' : Machine} (h : c.Foresees m') (hm : m.Follows m') : c.Foresees m :=
  ⟨hm.grown.grows.trans h.1, fun he => h.2 (hm.entry he)⟩

/-- What lies on the stack of the style below all that has been drawn. -/
def rest (c : Activation) (drawn : Nat) : List Item :=
  (c.args.drop drawn).map .value ++ c.below

/-- Variables that were known before, and parameters, hold what they held. -/
def Keeps (c : Activation) (s : Scope) (ρ ρ' : Locals) : Prop :=
  ∀ x, s.origin? x ≠ none ∨ c.scope.IsParam x → ρ' x = ρ x

/-- **The stack of the style stands as the machine describes it**, some of its items being in hands. -/
structure Stands (c : Activation) (held : List (Expr × Item)) (s : State) (m : Machine) (ρ : Locals) (w : World) : Prop where
  world : Matches c.dictionary s.world w
  bound : ∀ v d, c.scope.origin? v = some (.param d) → ρ v = c.args[d]?
  slots : ∃ slots : List (Expr × Item), slots.map (·.1) = m.frame.stack ∧
    s.stack = slots.map (·.2) ++ c.rest m.frame.reach ∧
    ∀ q ∈ slots, Denotes c.runtime c.entry m.scope ρ w q.1 q.2
  held : ∀ q ∈ held, Denotes c.runtime c.entry m.scope ρ w q.1 q.2

/-- **Statements that have been written lead on**: they run, keep what was known, and leave something true. -/
def Leads (c : Activation) (m m' : Machine) (ρ : Locals) (w : World) (Q : Locals → World → Prop) : Prop :=
  ∃ new ρ' w', m'.frame.code = m.frame.code ++ new ∧ Runs c.runtime (.block new) c.entry ⟨ρ, w⟩ ⟨ρ', w'⟩ ∧
    c.Keeps m.scope ρ ρ' ∧ Q ρ' w'

section Leads

variable {c : Activation} {m m₁ m' : Machine} {ρ ρ₁ ρ₂ : Locals} {w : World}

theorem Keeps.refl {s : Scope} : c.Keeps s ρ ρ :=
  fun _ _ => rfl

theorem Keeps.back {s s₁ : Scope} (h : c.Keeps s₁ ρ ρ₁) (hs : s.Grows s₁) : c.Keeps s ρ ρ₁ := by
  intro x hx
  refine h x (hx.imp_left (fun hold hnone => hold ?_))
  exact hs.eq_none hnone

theorem Keeps.trans {s s₁ : Scope} (h : c.Keeps s ρ ρ₁) (hs : s.Grows s₁) (h' : c.Keeps s₁ ρ₁ ρ₂) : c.Keeps s ρ ρ₂ := by
  intro x hx
  rw [← h x hx]
  exact h'.back hs x hx

/-- A new local is none of what was known. -/
theorem Keeps.set {s : Scope} {x : VarId} (hs : s.origin? x = none) (hc : c.scope.origin? x = some .local) (o : Option Value) :
    c.Keeps s ρ (ρ.set x o) := by
  intro y hy
  refine if_neg ?_
  rintro rfl
  rcases hy with hy | ⟨d, hd⟩
  · exact hy hs
  · rw [hc] at hd
    cases hd

theorem Leads.still {Q : Locals → World → Prop} (hcode : m'.frame.code = m.frame.code) (h : Q ρ w) : c.Leads m m' ρ w Q :=
  ⟨[], ρ, w, by rw [hcode, List.append_nil], .nil, .refl, h⟩

theorem Leads.trans {Q R : Locals → World → Prop} (h : c.Leads m m₁ ρ w Q) (hs : m.scope.Grows m₁.scope)
    (h' : ∀ ρ₁ w₁, Q ρ₁ w₁ → c.Leads m₁ m' ρ₁ w₁ R) : c.Leads m m' ρ w R := by
  obtain ⟨new, ρ₁, w₁, hcode, hruns, hkeeps, hQ⟩ := h
  obtain ⟨new', ρ₂, w₂, hcode', hruns', hkeeps', hR⟩ := h' ρ₁ w₁ hQ
  refine ⟨new ++ new', ρ₂, w₂, ?_, hruns.append hruns', hkeeps.trans hs hkeeps', hR⟩
  rw [hcode', hcode, List.append_assoc]

end Leads

/-! ## Symbolic runs and what they stand for -/

/-- **A symbolic run simulates**: where it ends, what it has written leads from `P` to `Q`. -/
def Sim {α : Type} (c : Activation) (x : Eval α) (P : Machine → Locals → World → Prop)
    (Q : α → Machine → Locals → World → Prop) : Prop :=
  Eval.Steady x ∧ ∀ m r m', x m = .ok r m' → c.Foresees m' → ∀ ρ w, P m ρ w → c.Leads m m' ρ w (Q r m')

section Rules

variable {α β : Type} {c : Activation} {P P' : Machine → Locals → World → Prop} {Q Q' : α → Machine → Locals → World → Prop}
  {R : β → Machine → Locals → World → Prop}

theorem Sim.bind {x : Eval α} {f : α → Eval β} (hx : c.Sim x P Q) (hf : ∀ a, c.Sim (f a) (Q a) R) : c.Sim (x >>= f) P R := by
  refine ⟨hx.1.bind (fun a => (hf a).1), fun m b m' h hc ρ w hP => ?_⟩
  obtain ⟨a, m₁, hxm, hfm⟩ := Eval.bind_ok.1 h
  have hback := hc.back ((hf a).1 m₁ b m' hfm)
  refine (hx.2 m a m₁ hxm hback ρ w hP).trans (hx.1 m a m₁ hxm).grown.grows (fun ρ₁ w₁ hQ => ?_)
  exact (hf a).2 m₁ b m' hfm hc ρ₁ w₁ hQ

theorem Sim.pure {a : α} (h : ∀ m ρ w, P m ρ w → Q a m ρ w) : c.Sim (pure a) P Q := by
  refine ⟨.pure, fun m b m' hm _ ρ w hP => ?_⟩
  obtain ⟨rfl, rfl⟩ := Eval.pure_ok.1 hm
  exact .still rfl (h _ ρ w hP)

theorem Sim.throw {e : AnalysisFault} : c.Sim (throw e : Eval α) P Q :=
  ⟨.throw, fun _ _ _ h => absurd h Eval.throw_ok⟩

theorem Sim.mismatch {p t : String} {e : Expr} : c.Sim (Eval.mismatch p t e : Eval α) P Q :=
  .bind (Q := fun _ _ _ _ => True) ⟨.get, fun m a m' h _ ρ w _ => by obtain ⟨⟩ := h; exact .still rfl trivial⟩ (fun _ => .throw)

theorem Sim.pre {x : Eval α} (h : c.Sim x P Q) (hP : ∀ m ρ w, P' m ρ w → P m ρ w) : c.Sim x P' Q :=
  ⟨h.1, fun m r m' hx hc ρ w hP' => h.2 m r m' hx hc ρ w (hP m ρ w hP')⟩

theorem Sim.post {x : Eval α} (h : c.Sim x P Q) (hQ : ∀ r m ρ w, Q r m ρ w → Q' r m ρ w) : c.Sim x P Q' := by
  refine ⟨h.1, fun m r m' hx hc ρ w hP => ?_⟩
  obtain ⟨new, ρ', w', hcode, hruns, hkeeps, hq⟩ := h.2 m r m' hx hc ρ w hP
  exact ⟨new, ρ', w', hcode, hruns, hkeeps, hQ r m' ρ' w' hq⟩

/-- What does not speak of the machine stays true. -/
theorem Sim.frame {x : Eval α} (A : Prop) (h : c.Sim x P Q) :
    c.Sim x (fun m ρ w => A ∧ P m ρ w) (fun r m ρ w => A ∧ Q r m ρ w) := by
  refine ⟨h.1, fun m r m' hx hc ρ w hP => ?_⟩
  obtain ⟨new, ρ', w', hcode, hruns, hkeeps, hq⟩ := h.2 m r m' hx hc ρ w hP.2
  exact ⟨new, ρ', w', hcode, hruns, hkeeps, hP.1, hq⟩

theorem Sim.exists {ι : Type} [Nonempty ι] {x : Eval α} {P : ι → Machine → Locals → World → Prop} (h : ∀ i, c.Sim x (P i) Q) :
    c.Sim x (fun m ρ w => ∃ i, P i m ρ w) Q := by
  refine ⟨(h (Classical.ofNonempty)).1, fun m r m' hx hc ρ w hP => ?_⟩
  obtain ⟨i, hi⟩ := hP
  exact (h i).2 m r m' hx hc ρ w hi

theorem Sim.ite {p : Prop} [Decidable p] {x y : Eval α} (hx : c.Sim x P Q) (hy : c.Sim y P Q) : c.Sim (if p then x else y) P Q := by
  split
  · exact hx
  · exact hy

/-- What is known before a run may be used to see what runs. -/
theorem Sim.given {x : Eval α} {A : Prop} (hs : Eval.Steady x) (h : A → c.Sim x P Q) : c.Sim x (fun m ρ w => A ∧ P m ρ w) Q :=
  ⟨hs, fun m r m' hx hc ρ w hP => (h hP.1).2 m r m' hx hc ρ w hP.2⟩

theorem Sim.get {f : Machine → Eval α} (h : ∀ m₀, c.Sim (f m₀) (fun m ρ w => m = m₀ ∧ P m ρ w) Q) : c.Sim (get >>= f) P Q :=
  .bind (Q := fun m₀ m ρ w => m = m₀ ∧ P m ρ w)
    ⟨.get, fun m a m' hx _ ρ w hP => by obtain ⟨⟩ := hx; exact .still rfl ⟨rfl, hP⟩⟩ h

/-- A run that writes nothing. -/
theorem Sim.still {x : Eval α} (hs : Eval.Steady x) (hcode : ∀ m r m', x m = .ok r m' → m'.frame.code = m.frame.code)
    (h : ∀ m r m', x m = .ok r m' → c.Foresees m' → ∀ ρ w, P m ρ w → Q r m' ρ w) : c.Sim x P Q :=
  ⟨hs, fun m r m' hx hc ρ w hP => .still (hcode m r m' hx) (h m r m' hx hc ρ w hP)⟩

theorem Sim.modify {f : Machine → Machine} {Q : Unit → Machine → Locals → World → Prop} (hs : Eval.Steady (modify f))
    (hcode : ∀ m, (f m).frame.code = m.frame.code) (h : ∀ m ρ w, c.Foresees (f m) → P m ρ w → Q () (f m) ρ w) :
    c.Sim (modify f) P Q :=
  .still hs (fun m r m' hx => by obtain ⟨⟩ := hx; exact hcode m)
    (fun m r m' hx hc ρ w hP => by obtain ⟨⟩ := hx; exact h m ρ w hc hP)

end Rules

/-! ## Single operations -/

namespace Stands

variable {c : Activation} {held held' : List (Expr × Item)} {s : State} {m m' : Machine} {ρ ρ' : Locals} {w w' : World}

/-- A machine that describes the same stack, in a scope that has grown. -/
theorem move (h : c.Stands held s m ρ w) (hstack : m'.frame.stack = m.frame.stack) (hreach : m'.frame.reach = m.frame.reach)
    (hs : m.scope.Grows m'.scope) (hρ : c.Keeps m.scope ρ ρ') : c.Stands held s m' ρ' w := by
  obtain ⟨slots, hslots, hitems, hdenotes⟩ := h.slots
  have hmove : ∀ q : Expr × Item, Denotes c.runtime c.entry m.scope ρ w q.1 q.2 →
      Denotes c.runtime c.entry m'.scope ρ' w q.1 q.2 := fun q hq => hq.move hs (fun x hx => hρ x (.inl hx))
  refine ⟨h.world, fun v d hv => ?_, ⟨slots, hslots.trans hstack.symm, ?_, fun q hq => hmove q (hdenotes q hq)⟩,
    fun q hq => hmove q (h.held q hq)⟩
  · rw [hρ v (.inr ⟨d, hv⟩)]
    exact h.bound v d hv
  · rw [hreach]
    exact hitems

theorem hold (h : c.Stands held s m ρ w) (hq : ∀ q ∈ held', Denotes c.runtime c.entry m.scope ρ w q.1 q.2) :
    c.Stands held' s m ρ w :=
  ⟨h.world, h.bound, h.slots, hq⟩

theorem weaken (h : c.Stands held s m ρ w) (hsub : held' ⊆ held) : c.Stands held' s m ρ w :=
  h.hold (fun q hq => h.held q (hsub hq))

/-- What lies on the stack may be taken for in hands too. -/
theorem take {m₀ : Machine} (h : m = m₀ ∧ c.Stands held s m ρ w) : ∃ slots : List (Expr × Item),
    (slots.map (·.1) = m₀.frame.stack ∧ s.stack = slots.map (·.2) ++ c.rest m₀.frame.reach) ∧
    m.frame.reach = m₀.frame.reach ∧ c.Stands (slots ++ held) s m ρ w := by
  obtain ⟨rfl, h⟩ := h
  obtain ⟨slots, hslots, hitems, hdenotes⟩ := h.slots
  exact ⟨slots, ⟨hslots, hitems⟩, rfl, h.hold (List.forall_mem_append.2 ⟨hdenotes, h.held⟩)⟩

/-- The top of the symbolic stack stands for the top of the stack of the style. -/
theorem uncons {e : Expr} {below : List Expr} (h : c.Stands held s m ρ w) (hstack : m.frame.stack = e :: below) :
    ∃ q : Item × List Item, s.stack = q.1 :: q.2 ∧
      c.Stands ((e, q.1) :: held) ⟨q.2, s.world⟩ { m with frame := { m.frame with stack := below } } ρ w := by
  obtain ⟨slots, hslots, hitems, hdenotes⟩ := h.slots
  rw [hstack] at hslots
  obtain ⟨q, slots, rfl, rfl, hbelow⟩ := List.map_eq_cons_iff.1 hslots
  rw [List.forall_mem_cons] at hdenotes
  exact ⟨(q.2, slots.map (·.2) ++ c.rest m.frame.reach), hitems, h.world, h.bound, ⟨slots, hbelow, rfl, hdenotes.2⟩,
    List.forall_mem_cons.2 ⟨hdenotes.1, h.held⟩⟩

/-- A machine that describes the same stack, whose variables it knows. -/
theorem rescope (h : c.Stands held s m ρ w) (hstack : m'.frame.stack = m.frame.stack) (hreach : m'.frame.reach = m.frame.reach)
    (hknown : ∀ e ∈ m.frame.stack, ∀ x ∈ e.vars, m'.scope.origin? x ≠ none) : c.Stands [] s m' ρ w := by
  obtain ⟨slots, hslots, hitems, hdenotes⟩ := h.slots
  refine ⟨h.world, h.bound, ⟨slots, hslots.trans hstack.symm, ?_, fun q hq => (hdenotes q hq).rescope (hknown q.1 ?_)⟩, nofun⟩
  · rw [hreach]
    exact hitems
  · rw [← hslots]
    exact List.mem_map_of_mem hq

/-- Another expression that is worth something takes the place of those in hands. -/
theorem value {e : Expr} {v : Value} (h : c.Stands held s m ρ w) (hpure : e.isPure = true)
    (hknown : ∀ x ∈ e.vars, m.scope.origin? x ≠ none) (hgives : e.Gives c.runtime c.entry ρ w v w) :
    c.Stands [(e, .value v)] s m ρ w := by
  refine h.hold (fun q hq => ?_)
  rw [List.mem_singleton.1 hq]
  exact .value hpure hknown hgives

/-- A world that differs in nothing that is read from it. -/
theorem other_world {st : List Item} {σ σ' : World} (h : c.Stands held ⟨st, σ⟩ m ρ w) (hw : Matches c.dictionary σ' w')
    (hstate : ∀ e, e ∈ m.frame.stack ∨ e ∈ held.map (·.1) → ∀ x ∈ e.nodes, x.isStateRead = true →
      x.worth c.runtime c.entry ρ w' = x.worth c.runtime c.entry ρ w) :
    c.Stands held ⟨st, σ'⟩ m ρ w' := by
  obtain ⟨slots, hslots, hitems, hdenotes⟩ := h.slots
  refine ⟨hw, h.bound, ⟨slots, hslots, hitems, fun q hq => (hdenotes q hq).other_world (hstate q.1 (.inl ?_))⟩,
    fun q hq => (h.held q hq).other_world (hstate q.1 (.inr (List.mem_map_of_mem hq)))⟩
  rw [← hslots]
  exact List.mem_map_of_mem hq

end Stands

/-- Every parameter has an argument. -/
def Supplied (c : Activation) : Prop :=
  ∀ v d, c.scope.origin? v = some (.param d) → d < c.args.length

theorem rest_of_lt {c : Activation} {k : Nat} {v : Value} (h : c.args[k]? = some v) : c.rest k = .value v :: c.rest (k + 1) := by
  obtain ⟨hlt, hv⟩ := List.getElem?_eq_some_iff.1 h
  rw [rest, rest, List.drop_eq_getElem_cons hlt, hv]
  rfl

/-- **A parameter stands for an argument.** -/
theorem denotes_param {c : Activation} {s : Scope} {ρ : Locals} {w : World} {x : VarId} {d : Nat} {v : Value}
    (hs : s.origin? x ≠ none) (hbound : ρ x = c.args[d]?) (hv : c.args[d]? = some v) :
    Denotes c.runtime c.entry s ρ w (.var x) (.value v) := by
  refine .value rfl (fun y hy => ?_) ⟨hbound.trans hv, rfl⟩
  rw [List.mem_singleton.1 hy]
  exact hs

section Operations

variable {c : Activation} {held : List (Expr × Item)} {s : State}

/-- **Taking a value from the symbolic stack takes an item from the stack of the style.** -/
theorem sim_popAs (hc : c.Supplied) (t : Ty) :
    c.Sim (Eval.popAs t) (c.Stands held s)
      (fun e m ρ w => ∃ q : Item × List Item, s.stack = q.1 :: q.2 ∧ c.Stands ((e, q.1) :: held) ⟨q.2, s.world⟩ m ρ w) := by
  refine .still (Eval.steady_popAs t) (fun m r m' h => ?_) (fun m r m' h hf ρ w hs => ?_)
  · cases hstack : m.frame.stack with
    | nil => rw [Eval.popAs_nil hstack] at h; obtain ⟨⟩ := h; rfl
    | cons e below => rw [Eval.popAs_cons hstack] at h; obtain ⟨⟩ := h; rfl
  · cases hstack : m.frame.stack with
    | nil =>
      obtain ⟨slots, hslots, hitems, hdenotes⟩ := hs.slots
      rw [Eval.popAs_nil hstack] at h
      obtain ⟨⟩ := h
      rw [hstack, List.map_eq_nil_iff] at hslots
      rw [hslots] at hitems
      have horigin := m.scope.origin?_param m.frame.reach t
      have hfinal := hf.1 _ _ horigin
      obtain ⟨v, hv⟩ : ∃ v, c.args[m.frame.reach]? = some v := ⟨_, List.getElem?_eq_getElem (hc _ _ hfinal)⟩
      have hmoved : c.Stands held s { m with vars := .of (m.scope.param m.frame.reach t).2 } ρ w :=
        hs.move rfl rfl (m.scope.grows_param _ t) .refl
      refine ⟨(.value v, c.rest (m.frame.reach + 1)), ?_, hs.world, hs.bound, ⟨[], hstack.symm, rfl, nofun⟩, fun q hq => ?_⟩
      · rw [hitems, rest_of_lt hv]
        rfl
      · rcases List.mem_cons.1 hq with rfl | hq
        · exact denotes_param (fun hnone => absurd (horigin.symm.trans hnone) nofun) (hs.bound _ _ hfinal) hv
        · exact hmoved.held q hq
    | cons e below =>
      rw [Eval.popAs_cons hstack] at h
      obtain ⟨⟩ := h
      exact hs.uncons hstack

theorem sim_push {e : Expr} {i : Item} :
    c.Sim (Eval.push e) (c.Stands ((e, i) :: held) s) (fun _ => c.Stands held ⟨i :: s.stack, s.world⟩) := by
  refine .modify (Eval.steady_push e) (fun _ => rfl) (fun m ρ w _ hs => ?_)
  obtain ⟨slots, hslots, hitems, hdenotes⟩ := hs.slots
  have hheld := List.forall_mem_cons.1 hs.held
  refine ⟨hs.world, hs.bound, ⟨(e, i) :: slots, ?_, ?_, List.forall_mem_cons.2 ⟨hheld.1, hdenotes⟩⟩, hheld.2⟩
  · rw [List.map_cons, hslots]
  · rw [hitems]
    rfl

theorem sim_leave {e : Expr} {i : Item} {st : List Item} {σ : World} {P : Machine → Locals → World → Prop}
    (h : ∀ m ρ w, P m ρ w → c.Stands ((e, i) :: held) ⟨st, σ⟩ m ρ w) :
    c.Sim (Eval.push e) P (fun _ => c.Stands held ⟨i :: st, σ⟩) :=
  sim_push.pre h

theorem sim_tyOf (e : Expr) {P : Machine → Locals → World → Prop} : c.Sim (Eval.tyOf e) P (fun _ => P) :=
  .still (Eval.steady_tyOf e) (fun m r m' h => by obtain ⟨⟩ := h; rfl) (fun m r m' h _ ρ w hP => by obtain ⟨⟩ := h; exact hP)

theorem sim_link (h : Helper) : c.Sim (Eval.link h) (c.Stands held s) (fun _ => c.Stands held s) := by
  refine .modify (Eval.steady_link h) (fun m => ?_) (fun m ρ w _ hs => ?_)
  · split <;> rfl
  · split
    · exact hs
    · exact hs.move rfl rfl (.refl _) .refl

/-- Who touches the entry has been handed it. -/
theorem sim_touchEntry :
    c.Sim Eval.touchEntry (c.Stands held s) (fun _ m ρ w => c.usesEntry = true ∧ c.Stands held s m ρ w) :=
  .modify Eval.steady_touchEntry (fun _ => rfl) (fun _ _ _ hf hs => ⟨hf.2 rfl, hs.move rfl rfl (.refl _) .refl⟩)

theorem sim_check (e : Expr) (t : Ty) (p : String) :
    c.Sim (Eval.check e t p) (c.Stands held s) (fun r m ρ w => (r = e ∧ e.isValue = true) ∧ c.Stands held s m ρ w) := by
  unfold Eval.check
  refine .bind (sim_tyOf e) (fun found => ?_)
  by_cases hvalue : e.isValue = true
  · refine .ite .mismatch ?_
    split
    · refine .bind (Q := fun _ => c.Stands held s) (.modify ?_ (fun _ => rfl) (fun m ρ w _ hs => ?_))
        (fun _ => .pure (fun m ρ w hs => ⟨⟨rfl, hvalue⟩, hs⟩))
      · refine .modify (fun m => ⟨rfl, id, ?_⟩)
        have horigin := Scope.origin?_refine m.scope
        exact .of_params (.of_eq (horigin _ _)) (fun v d hv => (horigin _ _ v).symm.trans hv) _
      · exact hs.move rfl rfl (.of_eq (Scope.origin?_refine m.scope _ _)) .refl
    · exact .pure (fun m ρ w hs => ⟨⟨rfl, hvalue⟩, hs⟩)
  · have hcond : (!e.isValue || !found.fits t) = true := by simp [hvalue]
    rw [if_pos hcond]
    exact .mismatch

theorem sim_pop (hc : c.Supplied) (t : Ty) {i : Item} {st : List Item} {σ : World} :
    c.Sim (Eval.popAs t) (c.Stands held ⟨i :: st, σ⟩) (fun e => c.Stands ((e, i) :: held) ⟨st, σ⟩) := by
  refine (sim_popAs hc t).post (fun e m ρ w h => ?_)
  obtain ⟨⟨j, below⟩, hstack, hs⟩ := h
  cases hstack
  exact hs

/-- What has passed a check is a value. -/
theorem sim_popTyped (hc : c.Supplied) (t : Ty) (p : String) :
    c.Sim (Eval.popTyped t p) (c.Stands held s)
      (fun e m ρ w => ∃ q : Value × List Item, s.stack = .value q.1 :: q.2 ∧
        c.Stands ((e, .value q.1) :: held) ⟨q.2, s.world⟩ m ρ w) := by
  have hitem : Nonempty Item := ⟨.value .missing⟩
  refine .bind (sim_popAs hc t) (fun e => .exists (fun q => ((sim_check e t p).frame (s.stack = q.1 :: q.2)).post ?_))
  rintro _ m ρ w ⟨hstack, ⟨rfl, hvalue⟩, hs⟩
  obtain ⟨v, hv, -⟩ := (hs.held _ List.mem_cons_self).of_isValue hvalue
  refine ⟨(v, q.2), ?_, ?_⟩
  · rw [← hv]
    exact hstack
  · rw [← hv]
    exact hs

theorem sim_popTyped_value (hc : c.Supplied) (t : Ty) (p : String) {v : Value} {st : List Item} {σ : World} :
    c.Sim (Eval.popTyped t p) (c.Stands held ⟨.value v :: st, σ⟩) (fun e => c.Stands ((e, .value v) :: held) ⟨st, σ⟩) := by
  refine (sim_popTyped hc t p).post (fun e m ρ w h => ?_)
  obtain ⟨⟨u, below⟩, hstack, hs⟩ := h
  cases hstack
  exact hs

theorem sim_popProcedure (hc : c.Supplied) (primitive : String) {p : Procedure} {st : List Item} {σ : World} :
    c.Sim (Eval.popProcedure primitive) (c.Stands held ⟨.procedure p :: st, σ⟩)
      (fun r m ρ w => r = p ∧ c.Stands held ⟨st, σ⟩ m ρ w) := by
  have hfound : ∀ {e : Expr} {m : Machine} {ρ : Locals} {w : World}, c.Stands ((e, .procedure p) :: held) ⟨st, σ⟩ m ρ w →
      e = p.toExpr ∧ c.Stands held ⟨st, σ⟩ m ρ w := fun hs =>
    ⟨(hs.held _ List.mem_cons_self).eq_toExpr, hs.hold (fun q hq => hs.held q (List.mem_cons_of_mem _ hq))⟩
  refine .bind (sim_pop hc .generic) (fun e => ?_)
  split
  · refine .pure (fun m ρ w hs => ⟨?_, (hfound hs).2⟩)
    cases p <;> cases (hfound hs).1
    rfl
  · refine .pure (fun m ρ w hs => ⟨?_, (hfound hs).2⟩)
    cases p <;> cases (hfound hs).1
    rfl
  · exact .mismatch

/-- **Taking operands takes as many values**, the last from the top. -/
theorem sim_popArgs (hc : c.Supplied) (p : String) : ∀ (ts : List Ty) {held : List (Expr × Item)} {s : State},
    c.Sim (Eval.popArgs p ts) (c.Stands held s)
      (fun es m ρ w => ∃ q : List Value × List Item,
        (s.stack = q.1.reverse.map .value ++ q.2 ∧ q.1.length = ts.length ∧ es.length = ts.length) ∧
        c.Stands (es.zip (q.1.map .value) ++ held) ⟨q.2, s.world⟩ m ρ w)
  | [], held, s => .pure (fun m ρ w hs => ⟨([], s.stack), ⟨rfl, rfl, rfl⟩, hs⟩)
  | t :: ts, held, s => by
    unfold Eval.popArgs
    refine .bind (sim_popArgs hc p ts) (fun rest => .exists (fun q => ?_))
    refine .bind ((sim_popTyped hc t p).frame _) (fun e => .pure ?_)
    rintro m ρ w ⟨⟨hstack, hvalues, hrest⟩, ⟨v, below⟩, htop, hs⟩
    refine ⟨(v :: q.1, below), ⟨?_, congrArg (· + 1) hvalues, congrArg (· + 1) hrest⟩, hs⟩
    dsimp only at htop ⊢
    rw [hstack, htop, List.reverse_cons, List.map_append, List.append_assoc]
    rfl

theorem sim_emit {t : Stmt} {P : Machine → Locals → World → Prop} {Q : Unit → Machine → Locals → World → Prop}
    (h : ∀ m ρ w, P m ρ w → ∃ ρ' w', Runs c.runtime (.stmt t) c.entry ⟨ρ, w⟩ ⟨ρ', w'⟩ ∧ c.Keeps m.scope ρ ρ' ∧
      Q () { m with frame := { m.frame with code := m.frame.code ++ [t] } } ρ' w') :
    c.Sim (Eval.emit t) P Q := by
  refine ⟨Eval.steady_emit t, fun m r m' hx _ ρ w hP => ?_⟩
  obtain ⟨⟩ := hx
  obtain ⟨ρ', w', hruns, hkeeps, hQ⟩ := h m ρ w hP
  exact ⟨[t], ρ', w', rfl, hruns.single, hkeeps, hQ⟩

/-- **Storing a value in a new local.** -/
theorem sim_store {α : Type} {t : Ty} {e : Expr} {k : VarId → Eval α} {P : Machine → Locals → World → Prop}
    {Q : VarId → Machine → Locals → World → Prop} {R : α → Machine → Locals → World → Prop}
    (h : ∀ m m' ρ w v, P m ρ w → m'.frame.stack = m.frame.stack → m'.frame.reach = m.frame.reach →
      m.scope.Grows m'.scope → m.scope.origin? v = none → m'.scope.origin? v = some .local →
      (∀ o, c.Keeps m.scope ρ (ρ.set v o)) →
      ∃ x w', e.Gives c.runtime c.entry ρ w x w' ∧ Q v m' (ρ.set v (some x)) w')
    (hk : ∀ v, c.Sim (k v) (Q v) R) :
    c.Sim (Eval.newLocal t >>= fun v => Eval.emit (.declare v (some e)) >>= fun _ => k v) P R := by
  have hsteady : ∀ v, Eval.Steady (Eval.emit (.declare v (some e)) >>= fun _ => k v) := fun v =>
    (Eval.steady_emit _).bind (fun _ => (hk v).1)
  refine ⟨(Eval.steady_newLocal t).bind hsteady, fun m r m' hx hc ρ w hP => ?_⟩
  obtain ⟨v, m₁, hv, hx⟩ := Eval.bind_ok.1 hx
  obtain ⟨_, m₂, hemit, hx⟩ := Eval.bind_ok.1 hx
  have hc₂ := hc.back ((hk v).1 _ _ _ hx)
  obtain ⟨hlead, hgrows⟩ : c.Leads m m₂ ρ w (Q v m₂) ∧ m.scope.Grows m₂.scope := by
    rw [Eval.newLocal_apply] at hv
    obtain ⟨⟩ := hv
    have hm₂ : m₂ = { m with
        vars := .of (m.scope.newLocal t).2
        frame := { m.frame with code := m.frame.code ++ [.declare (m.scope.newLocal t).1 (some e)] } } := by
      obtain ⟨⟩ := hemit
      rfl
    have hlocal : m₂.scope.origin? (m.scope.newLocal t).1 = some .local := by
      rw [hm₂]
      exact m.scope.origin?_newLocal t
    have hgrows : m.scope.Grows m₂.scope := by
      rw [hm₂]
      exact m.scope.grows_newLocal t
    have hkeeps : ∀ o, c.Keeps m.scope ρ (ρ.set (m.scope.newLocal t).1 o) :=
      fun o => .set (m.scope.origin?_newLocal_old t) (hc₂.1 _ _ hlocal) o
    obtain ⟨x, w', hgives, hQ⟩ := h m m₂ ρ w _ hP (by rw [hm₂]) (by rw [hm₂]; rfl) hgrows
      (m.scope.origin?_newLocal_old t) hlocal hkeeps
    exact ⟨⟨_, _, w', by rw [hm₂], .single (.init hgives), hkeeps _, hQ⟩, hgrows⟩
  exact hlead.trans hgrows (fun ρ₁ w₁ hQ => (hk v).2 _ r m' hx hc ρ₁ w₁ hQ)

/-! ## Spilling -/

/-- **A slot that is stored stands for what it stood for.** -/
theorem sim_spillSlots {k : Nat} (which : Expr → Bool) : ∀ (slots held : List (Expr × Item)),
    (∀ q ∈ slots, which q.1 = true → q.1.isValue = true) →
    c.Sim (Eval.spillSlots which (slots.map (·.1)))
      (fun m ρ w => m.frame.reach = k ∧ c.Stands (slots ++ held) s m ρ w)
      (fun out m ρ w => ∃ slots' : List (Expr × Item),
        (slots'.map (·.1) = out ∧ slots'.map (·.2) = slots.map (·.2) ∧ ∀ e ∈ out, which e = false ∨ ∃ v, e = .var v) ∧
        m.frame.reach = k ∧ c.Stands (slots' ++ held) s m ρ w)
  | [], held, _ => .pure (fun m ρ w h => ⟨[], ⟨rfl, rfl, nofun⟩, h⟩)
  | q :: slots, held, hvalue => by
    rw [List.forall_mem_cons] at hvalue
    have hmiddle : ∀ slots : List (Expr × Item), (slots ++ q :: held).Perm (q :: slots ++ held) := fun _ => List.perm_middle
    refine .bind ((sim_spillSlots which slots (q :: held) hvalue.2).pre
      (fun m ρ w h => ⟨h.1, h.2.weaken (hmiddle slots).subset⟩)) (fun out => .exists (fun slots' => .given ?_ (fun hout => ?_)))
    · refine .ite (.bind (Eval.steady_tyOf _) (fun t => .bind (Eval.steady_newLocal t) (fun v => ?_))) .pure
      exact .bind (Eval.steady_emit _) (fun _ => .pure)
    obtain ⟨rfl, hitems, hspilled⟩ := hout
    by_cases hq : which q.1 = true
    · rw [if_pos hq]
      refine .bind (sim_tyOf q.1) (fun t => sim_store (Q := fun v m ρ w => m.frame.reach = k ∧
        c.Stands ((.var v, q.2) :: slots' ++ held) s m ρ w) ?_ (fun v => .pure (fun m ρ w h => ?_)))
      · rintro m m' ρ w v ⟨hreach, hs⟩ hstack hreach' hgrows hnew hlocal hkeeps
        obtain ⟨x, hx, -, hgives⟩ := (hs.held q (List.mem_append_right _ List.mem_cons_self)).of_isValue (hvalue.1 hq)
        have hs' : c.Stands (q :: slots' ++ held) s m' (ρ.set v (some x)) w :=
          (hs.move hstack hreach' hgrows (hkeeps _)).weaken (hmiddle slots').symm.subset
        refine ⟨x, w, hgives, hreach'.trans hreach, hs'.hold (List.forall_mem_cons.2 ⟨?_, fun p hp => ?_⟩)⟩
        · rw [hx]
          refine .value rfl (fun y hy => ?_) ⟨if_pos rfl, rfl⟩
          rw [List.mem_singleton.1 hy, hlocal]
          exact nofun
        · exact hs'.held p (List.mem_cons_of_mem _ hp)
      · refine ⟨(.var v, q.2) :: slots', ⟨rfl, ?_, ?_⟩, h⟩
        · rw [List.map_cons, List.map_cons, hitems]
        · exact List.forall_mem_cons.2 ⟨.inr ⟨v, rfl⟩, hspilled⟩
    · rw [if_neg hq]
      refine .pure (fun m ρ w h => ⟨q :: slots', ⟨rfl, ?_, ?_⟩, h.1, h.2.weaken (hmiddle slots').symm.subset⟩)
      · rw [List.map_cons, List.map_cons, hitems]
      · exact List.forall_mem_cons.2 ⟨.inl (Bool.eq_false_iff.2 hq), hspilled⟩

theorem sim_setStack {k : Nat} {slots : List (Expr × Item)} (hitems : s.stack = slots.map (·.2) ++ c.rest k) :
    c.Sim (Eval.setStack (slots.map (·.1))) (fun m ρ w => m.frame.reach = k ∧ c.Stands (slots ++ held) s m ρ w)
      (fun _ m ρ w => m.frame.stack = slots.map (·.1) ∧ c.Stands held s m ρ w) := by
  refine .modify (Eval.steady_setStack _) (fun _ => rfl) (fun m ρ w _ h => ⟨rfl, h.2.world, h.2.bound, ⟨slots, rfl, ?_, ?_⟩, ?_⟩)
  · rw [hitems, ← h.1]
    rfl
  · exact fun q hq => h.2.held q (List.mem_append_left _ hq)
  · exact fun q hq => h.2.held q (List.mem_append_right _ hq)

/-- **After spilling, nothing on the stack can change** that had to be stored. -/
theorem sim_spillWhere (changes : Expr → Bool) :
    c.Sim (Eval.spillWhere changes) (c.Stands held s)
      (fun _ m ρ w => (∀ e ∈ m.frame.stack, (Eval.isComposite e && changes e) = false) ∧ c.Stands held s m ρ w) := by
  have hsteady : ∀ es, Eval.Steady (Eval.spillSlots (fun e => Eval.isComposite e && changes e) es >>= Eval.setStack) :=
    fun es => .bind (Eval.steady_spillSlots _ es) (fun slots => Eval.steady_setStack slots)
  refine .get (fun m₀ => .pre (.exists (fun slots => .given (hsteady _) (fun h₀ => ?_))) (fun m ρ w => Stands.take))
  obtain ⟨hslots, hitems⟩ := h₀
  rw [← hslots]
  have hvalue : ∀ q ∈ slots, (Eval.isComposite q.1 && changes q.1) = true → q.1.isValue = true := by
    intro q _ hq
    cases he : q.1 with
    | quoted | block => rw [he] at hq; cases hq
    | _ => rfl
  refine .bind (sim_spillSlots _ slots held hvalue) (fun out => .exists (fun slots' => .given (Eval.steady_setStack _) (fun hout => ?_)))
  obtain ⟨rfl, hsame, hspilled⟩ := hout
  rw [← hsame] at hitems
  refine (sim_setStack hitems).post (fun _ m ρ w h => ⟨fun e he => ?_, h.2⟩)
  rw [h.1] at he
  rcases hspilled e he with hwhich | ⟨v, rfl⟩
  · exact hwhich
  · rfl

theorem sim_spillAll (p : String) : c.Sim (Eval.spillAll p) (c.Stands held s) (fun _ => c.Stands held s) := by
  unfold Eval.spillAll
  refine .get (fun m₀ => ?_)
  dsimp only
  generalize hbelow : (m₀.frame.stack.reverse.takeWhile Expr.isValue).reverse = below
  generalize habove : m₀.frame.stack.take (m₀.frame.stack.length - below.length) = above
  have hsplit : above ++ below = m₀.frame.stack := by
    rw [← habove, ← hbelow]
    exact Eval.take_append_values m₀.frame.stack
  have hend : ∀ vs, Eval.Steady (if above.isEmpty then return vs else throw (.unsupported (.procedureLeft p)) : Eval (List VarId)) :=
    fun vs => .ite .pure .throw
  have hsteady : Eval.Steady (do
      let slots ← Eval.spillSlots (fun _ => true) below
      Eval.setStack (above ++ slots)
      if above.isEmpty then return slots.filterMap Expr.var? else throw (.unsupported (.procedureLeft p))) :=
    .bind (Eval.steady_spillSlots _ _) (fun _ => .bind (Eval.steady_setStack _) (fun _ => hend _))
  refine .pre (.exists (fun slots => .given hsteady (fun h₀ => ?_))) (fun m ρ w => Stands.take)
  obtain ⟨hslots, hitems⟩ := h₀
  rw [← hsplit] at hslots
  obtain ⟨high, low, rfl, rfl, rfl⟩ := List.map_eq_append_iff.1 hslots
  have hvalue : ∀ q ∈ low, q.1.isValue = true := by
    intro q hq
    have hmem : q.1 ∈ m₀.frame.stack.reverse.takeWhile Expr.isValue := by
      rw [← List.mem_reverse, hbelow]
      exact List.mem_map_of_mem hq
    exact List.all_eq_true.1 (List.all_takeWhile) _ hmem
  refine .bind ((sim_spillSlots _ low (high ++ held) (fun q hq _ => hvalue q hq)).pre (fun m ρ w h => ⟨h.1, h.2.weaken ?_⟩))
    (fun out => .exists (fun low' => .given (.bind (Eval.steady_setStack _) (fun _ => hend _)) (fun hout => ?_)))
  · rw [← List.append_assoc]
    exact (List.perm_append_comm.append_right held).subset
  obtain ⟨rfl, hsame, -⟩ := hout
  rw [List.map_append, ← hsame, ← List.map_append] at hitems
  rw [← List.map_append]
  refine .bind ((sim_setStack hitems).pre (fun m ρ w h => ⟨h.1, h.2.weaken ?_⟩)) (fun _ => .ite (.pure (fun m ρ w h => h.2)) .throw)
  rw [← List.append_assoc]
  exact (List.perm_append_comm.append_right held).subset

end Operations

end Activation
end Bibstyle
