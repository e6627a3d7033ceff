import Bibstyle.Proofs.Actions
/-!
# ControlFlow — branches and loops

Both sides of a branch are compiled, and one of them runs.  Whichever it is, it ends by storing what the sides left
differently in locals that both share, so that what comes next needs not know which side ran.

A loop keeps the stack in locals.  Its body is compiled once, on a stack that holds these locals; what it leaves there is
stored in them again before the next test.
-/
namespace Bibstyle

open StackMachine (Item State)

namespace Activation

/-! ## Nested frames -/

section Nested

variable {c : Activation} {held : List (Expr × Item)} {s s' : State} {ρ : Locals} {w : World}

/-- **What a nested frame has written runs** from where the frame around it stands. -/
theorem nested_runs {x : Eval Unit} (hx : c.Sim x (c.Stands [] s) (fun _ => c.Stands [] s')) {m m' : Machine} {g : Frame}
    (h : Eval.inNested x m = .ok g m') (hc : c.Foresees m') (hs : c.Stands held s m ρ w) :
    ∃ ρ' w', Runs c.runtime (.block g.code) c.entry ⟨ρ, w⟩ ⟨ρ', w'⟩ ∧ c.Keeps m.scope ρ ρ' ∧
      c.Stands [] s' { m' with frame := g } ρ' w' := by
  obtain ⟨m₁, hrun, rfl, rfl⟩ := Eval.inNested_ok.1 h
  have hnested : c.Stands [] s { m with frame := m.frame.nested } ρ w :=
    (hs.weaken (List.nil_subset _)).move rfl rfl (.refl _) .refl
  obtain ⟨new, ρ', w', hcode, hruns, hkeeps, hs'⟩ := hx.2 _ () m₁ hrun hc ρ w hnested
  refine ⟨ρ', w', ?_, hkeeps, hs'⟩
  rw [hcode]
  exact hruns

/-- Values that a frame never reached are the arguments at their depths. -/
theorem paramsTo_slots (hc : c.Supplied) (hbound : ∀ v d, c.scope.origin? v = some (.param d) → ρ v = c.args[d]?) (base : Nat) :
    ∀ {depth n : Nat} {m m' : Machine} {es : List Expr}, Eval.paramsTo base depth n m = .ok es m' → m'.scope.Grows c.scope →
      ∃ slots : List (Expr × Item), slots.map (·.1) = es ∧
        c.rest (base + depth) = slots.map (·.2) ++ c.rest (base + depth + n) ∧
        ∀ q ∈ slots, Denotes c.runtime c.entry m'.scope ρ w q.1 q.2
  | depth, 0, m, m', es, h, _ => by
    obtain ⟨rfl, -⟩ := Eval.pure_ok.1 h
    exact ⟨[], rfl, rfl, nofun⟩
  | depth, n + 1, m, m', es, h, hgrows => by
    unfold Eval.paramsTo at h
    obtain ⟨deeper, m₁, hdeeper, h⟩ := Eval.bind_ok.1 h
    obtain ⟨v, m₂, hv, h⟩ := Eval.bind_ok.1 h
    obtain ⟨rfl, rfl⟩ := Eval.pure_ok.1 h
    rw [Eval.param_apply] at hv
    obtain ⟨⟩ := hv
    have hstep := m₁.scope.grows_param (base + depth) .generic
    obtain ⟨slots, hslots, hrest, hdenotes⟩ := paramsTo_slots hc hbound base hdeeper (hstep.trans hgrows)
    have horigin := m₁.scope.origin?_param (base + depth) .generic
    have hfinal := hgrows _ _ horigin
    obtain ⟨x, hx⟩ : ∃ x, c.args[base + depth]? = some x := ⟨_, List.getElem?_eq_getElem (hc _ _ hfinal)⟩
    refine ⟨(.var (m₁.scope.param (base + depth) .generic).1, .value x) :: slots, ?_, ?_, List.forall_mem_cons.2 ⟨?_, ?_⟩⟩
    · rw [List.map_cons, hslots]
    · rw [rest_of_lt hx, Nat.add_assoc base depth 1, hrest, List.map_cons, List.cons_append]
      rw [show base + (depth + 1) + n = base + depth + (n + 1) by omega]
    · exact denotes_param (fun hnone => absurd (horigin.symm.trans hnone) (Option.some_ne_none _)) (hbound _ _ hfinal) hx
    · exact fun q hq => (hdenotes q hq).move hstep (fun _ _ => rfl)

/-- **The full view of a frame shows what lies on the stack of the style**, down to a depth the frame may not have reached. -/
theorem fullView_slots (hc : c.Supplied) {g : Frame} {drawn : Nat} {m₀ m m' : Machine} {view : List Expr}
    (h : Eval.fullView g drawn m = .ok view m') (hdrawn : g.drawn ≤ drawn) (hgrows : m'.scope.Grows c.scope)
    (hs : c.Stands [] s { m₀ with frame := g } ρ w) (hscope : m₀.scope.Grows m.scope) :
    ∃ slots : List (Expr × Item), slots.map (·.1) = view ∧ s.stack = slots.map (·.2) ++ c.rest (g.base + drawn) ∧
      ∀ q ∈ slots, Denotes c.runtime c.entry m'.scope ρ w q.1 q.2 := by
  obtain ⟨-, -, hview⟩ := Eval.fullView_grown h hdrawn
  have hstep : m.scope.Grows m'.scope := (hview _ (Nat.le_refl _)).grows
  obtain ⟨ps, m₁, hps, h⟩ := Eval.bind_ok.1 h
  obtain ⟨rfl, rfl⟩ := Eval.pure_ok.1 h
  obtain ⟨top, htop, hitems, hdenotes⟩ := hs.slots
  obtain ⟨bottom, hbottom, hrest, hdenotes'⟩ := paramsTo_slots (w := w) hc hs.bound g.base hps hgrows
  refine ⟨top ++ bottom, ?_, ?_, List.forall_mem_append.2 ⟨fun q hq => ?_, hdenotes'⟩⟩
  · rw [List.map_append, htop, hbottom]
  · have hend : g.base + g.drawn + (drawn - g.drawn) = g.base + drawn := by omega
    rw [hitems, List.map_append, List.append_assoc, ← hend, ← hrest]
    rfl
  · exact (hdenotes q hq).move (hscope.trans hstep) (fun _ _ => rfl)

end Nested

/-! ## Two stacks made one -/

/-- **Statements carry one stack over into another**: run where the first stands for some items, they leave the second
standing for the same. -/
def Carries (c : Activation) (s : Scope) (view : List Expr) (b : Block) (s' : Scope) (stack : List Expr) : Prop :=
  ∀ ρ w (slots : List (Expr × Item)), slots.map (·.1) = view → (∀ q ∈ slots, Denotes c.runtime c.entry s ρ w q.1 q.2) →
    ∃ (ρ' : Locals) (slots' : List (Expr × Item)), Runs c.runtime (.block b) c.entry ⟨ρ, w⟩ ⟨ρ', w⟩ ∧ c.Keeps s ρ ρ' ∧
      slots'.map (·.1) = stack ∧ slots'.map (·.2) = slots.map (·.2) ∧
      ∀ q ∈ slots', Denotes c.runtime c.entry s' ρ' w q.1 q.2

namespace Carries

variable {c : Activation} {s s₁ s₂ : Scope} {view stack : List Expr} {b : Block} {e : Expr}

theorem nil : c.Carries s [] [] s₁ [] := by
  intro ρ w slots hslots _
  refine ⟨ρ, [], .nil, .refl, rfl, ?_, nofun⟩
  rw [List.map_eq_nil_iff.1 hslots]

/-- A slot stays as it is. -/
theorem keep (h : c.Carries s view b s₁ stack) (hs : s.Grows s₁) : c.Carries s (e :: view) b s₁ (e :: stack) := by
  intro ρ w slots hslots hdenotes
  obtain ⟨q, slots, rfl, rfl, rfl⟩ := List.map_eq_cons_iff.1 hslots
  rw [List.forall_mem_cons] at hdenotes
  obtain ⟨ρ', slots', hruns, hkeeps, rfl, hitems, hdenotes'⟩ := h ρ w slots rfl hdenotes.2
  refine ⟨ρ', q :: slots', hruns, hkeeps, rfl, ?_, List.forall_mem_cons.2 ⟨?_, hdenotes'⟩⟩
  · rw [List.map_cons, List.map_cons, hitems]
  · exact hdenotes.1.move hs (fun x hx => hkeeps x (.inl hx))

/-- A slot goes into a new local. -/
theorem store (h : c.Carries s view b s₁ stack) (hs : s.Grows s₁) (hs' : s₁.Grows s₂) {v : VarId} (hnew : s₁.origin? v = none)
    (hlocal : s₂.origin? v = some .local) (hc : s₂.Grows c.scope) (he : e.isValue = true) :
    c.Carries s (e :: view) (b ++ [.assign (.var v) e]) s₂ (.var v :: stack) := by
  intro ρ w slots hslots hdenotes
  obtain ⟨q, slots, rfl, rfl, rfl⟩ := List.map_eq_cons_iff.1 hslots
  rw [List.forall_mem_cons] at hdenotes
  obtain ⟨ρ₁, slots', hruns, hkeeps, rfl, hitems, hdenotes'⟩ := h ρ w slots rfl hdenotes.2
  have hq : Denotes c.runtime c.entry s₁ ρ₁ w q.1 q.2 := hdenotes.1.move hs (fun x hx => hkeeps x (.inl hx))
  obtain ⟨x, hx, -, hgives⟩ := hq.of_isValue he
  have hset : c.Keeps s₁ ρ₁ (ρ₁.set v (some x)) := .set hnew (hc _ _ hlocal) _
  refine ⟨ρ₁.set v (some x), (.var v, q.2) :: slots', hruns.append (.single (.assign hgives rfl)), hkeeps.trans hs hset, rfl, ?_,
    List.forall_mem_cons.2 ⟨?_, fun p hp => ?_⟩⟩
  · rw [List.map_cons, List.map_cons, hitems]
  · rw [hx]
    refine .value rfl (fun y hy => ?_) ⟨if_pos rfl, rfl⟩
    rw [List.mem_singleton.1 hy, hlocal]
    exact nofun
  · exact (hdenotes' p hp).move hs' (fun y hy => hset y (.inl hy))

theorem grow (h : c.Carries s view b s₁ stack) (hs : s₁.Grows s₂) : c.Carries s view b s₂ stack := by
  intro ρ w slots hslots hdenotes
  obtain ⟨ρ', slots', hruns, hkeeps, hstack, hitems, hdenotes'⟩ := h ρ w slots hslots hdenotes
  exact ⟨ρ', slots', hruns, hkeeps, hstack, hitems, fun q hq => (hdenotes' q hq).move hs (fun _ _ => rfl)⟩

end Carries

/-- **Two views have been merged**: some locals have been declared, and each side knows how to fill them. -/
structure Merges (c : Activation) (s : Scope) (f : Frame) (yes no : List Expr) (g : Eval.Merged) (m : Machine) : Prop where
  grows : s.Grows m.scope
  opened : ∃ new, m.frame = { f with code := f.code ++ new } ∧
    ∀ ρ w, ∃ ρ', Runs c.runtime (.block new) c.entry ⟨ρ, w⟩ ⟨ρ', w⟩ ∧ c.Keeps s ρ ρ'
  yes : c.Carries s yes g.yes m.scope g.stack
  no : c.Carries s no g.no m.scope g.stack

section Merging

variable {c : Activation} {s : Scope} {f : Frame}

theorem mergeSlot_merges {yes no : Expr} {yeses nos : List Expr} {below g : Eval.Merged} {m m' : Machine}
    (h : Eval.mergeSlot yes no below m = .ok g m') (hc : m'.scope.Grows c.scope) (hm : c.Merges s f yeses nos below m) :
    c.Merges s f (yes :: yeses) (no :: nos) g m' := by
  unfold Eval.mergeSlot at h
  split at h
  · rename_i heq
    obtain ⟨rfl, rfl⟩ := Eval.pure_ok.1 h
    subst heq
    exact ⟨hm.grows, hm.opened, hm.yes.keep hm.grows, hm.no.keep hm.grows⟩
  split at h
  · exact absurd h Eval.throw_ok
  obtain ⟨a, m₁, ha, h₁⟩ := Eval.bind_ok.1 h
  obtain ⟨b, m₂, hb, h₂⟩ := Eval.bind_ok.1 h₁
  rw [(Eval.tyOf_ok.1 hb).2, (Eval.tyOf_ok.1 ha).2] at h₂
  cases hunify : a.unify? b with
  | none =>
    rw [hunify] at h₂
    exact absurd h₂ Eval.throw_ok
  | some t =>
  rw [hunify] at h₂
  obtain ⟨yes', m₃, hyes, h⟩ := Eval.bind_ok.1 h₂
  obtain ⟨no', m₄, hno, h⟩ := Eval.bind_ok.1 h
  obtain ⟨v, m₅, hv, h⟩ := Eval.bind_ok.1 h
  obtain ⟨_, m₆, hemit, h⟩ := Eval.bind_ok.1 h
  obtain ⟨rfl, rfl⟩ := Eval.pure_ok.1 h
  obtain ⟨⟩ := hv
  obtain ⟨⟩ := hemit
  obtain ⟨⟨rfl, hvalue⟩, hframe₃, hgrows₃⟩ := (Eval.check_at yes t "if$").ok ⟨rfl, .refl _⟩ hyes
  obtain ⟨⟨rfl, hvalue'⟩, hframe₄, hgrows₄⟩ := (Eval.check_at no t "if$").ok ⟨rfl, .refl _⟩ hno
  have hgrows : s.Grows m₄.scope := (hm.grows.trans hgrows₃).trans hgrows₄
  have hnew := m₄.scope.grows_newLocal t
  have hold := m₄.scope.origin?_newLocal_old t
  have hlocal := m₄.scope.origin?_newLocal t
  obtain ⟨new, hframe, hopen⟩ := hm.opened
  refine ⟨hgrows.trans hnew, ⟨new ++ [.declare (m₄.scope.newLocal t).1 none], ?_, fun ρ w => ?_⟩, ?_, ?_⟩
  · dsimp only
    rw [hframe₄, hframe₃, hframe, List.append_assoc]
    rfl
  · obtain ⟨ρ', hruns, hkeeps⟩ := hopen ρ w
    refine ⟨_, hruns.append (.single .declare), hkeeps.trans hgrows (.set hold (hc _ _ hlocal) none)⟩
  · exact (hm.yes.grow (hgrows₃.trans hgrows₄)).store hgrows hnew hold hlocal hc hvalue
  · exact (hm.no.grow (hgrows₃.trans hgrows₄)).store hgrows hnew hold hlocal hc hvalue'

/-- **Merging two views lets either side go on where the other would.** -/
theorem mergeSlots_merges : ∀ {yes no : List Expr} {g : Eval.Merged} {m m' : Machine}, yes.length = no.length →
    Eval.mergeSlots yes no m = .ok g m' → m'.scope.Grows c.scope → s.Grows m.scope → m.frame = f → c.Merges s f yes no g m'
  | [], [], g, m, m', _, h, _, hgrows, hframe => by
    obtain ⟨rfl, rfl⟩ := Eval.pure_ok.1 h
    refine ⟨hgrows, ⟨[], ?_, fun ρ w => ⟨ρ, .nil, .refl⟩⟩, .nil, .nil⟩
    rw [hframe, List.append_nil]
  | yes :: yeses, no :: nos, g, m, m', hlength, h, hc, hgrows, hframe => by
    unfold Eval.mergeSlots at h
    obtain ⟨below, m₁, hbelow, h⟩ := Eval.bind_ok.1 h
    have hstep := (Eval.mergeSlot_steady yes no below _ _ _ h).grown.grows
    have hm := mergeSlots_merges (Nat.succ.inj hlength) hbelow (hstep.trans hc) hgrows hframe
    exact mergeSlot_merges h hc hm

end Merging

/-! ## Branches -/

section Branches

variable {c : Activation} {held : List (Expr × Item)} {s s' : State} {ρ : Locals} {w : World}

/-- **The side that runs leaves what the branch leaves.** -/
theorem side_runs (hc : c.Supplied) {x : Eval Unit} (hx : c.Sim x (c.Stands [] s) (fun _ => c.Stands [] s'))
    {m₀ m₁ m₂ m₃ m' : Machine} {s₃ : Scope} {g : Frame} {drawn : Nat} {view : List Expr} {b : Block}
    (hnested : Eval.inNested x m₀ = .ok g m₁) (hview : Eval.fullView g drawn m₂ = .ok view m₃) (hdrawn : g.drawn ≤ drawn)
    (hforesees : c.Foresees m₁) (h₂ : m₁.scope.Grows m₂.scope) (h₃ : m₃.scope.Grows s₃) (hgrows : s₃.Grows c.scope)
    (hcarries : c.Carries s₃ view b m'.scope m'.frame.stack) (hreach : m'.frame.reach = g.base + drawn)
    (hs : c.Stands held s m₀ ρ w) :
    ∃ ρ' w', Runs c.runtime (.block (g.code ++ b)) c.entry ⟨ρ, w⟩ ⟨ρ', w'⟩ ∧ c.Keeps m₀.scope ρ ρ' ∧ c.Stands [] s' m' ρ' w' := by
  obtain ⟨ρ₁, w₁, hruns, hkeeps, hs₁⟩ := nested_runs hx hnested hforesees hs
  obtain ⟨slots, hslots, hitems, hdenotes⟩ := fullView_slots hc hview hdrawn (h₃.trans hgrows) hs₁ h₂
  obtain ⟨ρ₂, slots', hruns', hkeeps', hstack, hsame, hdenotes'⟩ := hcarries ρ₁ w₁ slots hslots
    (fun q hq => (hdenotes q hq).move h₃ (fun _ _ => rfl))
  have h₀ : m₀.scope.Grows s₃ :=
    ((Eval.inNested_returns hx.1 hnested).2.grown.grows.trans h₂).trans
      (((Eval.fullView_grown hview hdrawn).2.2 _ (Nat.le_refl _)).grows.trans h₃)
  refine ⟨ρ₂, w₁, hruns.append hruns', hkeeps.trans h₀ hkeeps', hs₁.world, fun v d hv => ?_,
    ⟨slots', hstack, ?_, hdenotes'⟩, nofun⟩
  · rw [hkeeps' v (.inr ⟨d, hv⟩)]
    exact hs₁.bound v d hv
  · rw [hitems, hsame, hreach]

/-- **A branch does what the side does that its condition picks.** -/
theorem sim_runSides (hc : c.Supplied) {run : Procedure → Eval Unit} (hrun : ∀ p, Eval.Steady (run p)) {yes no : Procedure}
    {e : Expr} {k : Int32}
    (htaken : c.Sim (run (if 0 < k then yes else no)) (c.Stands [] s) (fun _ => c.Stands [] s')) :
    c.Sim (Eval.runSides run yes no e) (c.Stands [(e, .value (.int k))] s) (fun _ => c.Stands [] s') := by
  refine ⟨Eval.steady_runSides hrun yes no e, fun m r m' h hforesees ρ w hs => ?_⟩
  obtain ⟨gy, m₁, hyes, h⟩ := Eval.bind_ok.1 h
  obtain ⟨gn, m₂, hno, h⟩ := Eval.bind_ok.1 h
  obtain ⟨yesView, m₃, hyesView, h⟩ := Eval.bind_ok.1 h
  obtain ⟨noView, m₄, hnoView, h⟩ := Eval.bind_ok.1 h
  split at h
  · rename_i hlength
    obtain ⟨merged, m₅, hmerged, h⟩ := Eval.bind_ok.1 h
    obtain ⟨_, m₆, hemit, h⟩ := Eval.bind_ok.1 h
    obtain ⟨hscope, hentry, hstack, hcode, hdrawn⟩ : m'.scope = m₅.scope ∧ m'.usesEntry = m₅.usesEntry ∧
        m'.frame.stack = merged.stack ∧
        m'.frame.code = m₅.frame.code ++ [.branch e (gy.code ++ merged.yes) (gn.code ++ merged.no)] ∧
        m'.frame.reach = m₅.frame.reach + max gy.drawn gn.drawn := by
      obtain ⟨⟩ := hemit
      obtain ⟨⟩ := h
      exact ⟨rfl, rfl, rfl, rfl, (Nat.add_assoc _ _ _).symm⟩
    obtain ⟨hbasey, hy⟩ := Eval.inNested_returns (hrun yes) hyes
    obtain ⟨hbasen, hn⟩ := Eval.inNested_returns (hrun no) hno
    obtain ⟨hframe₃, hentry₃, hgrown₃⟩ := Eval.fullView_grown hyesView (Nat.le_max_left _ _)
    obtain ⟨hframe₄, hentry₄, hgrown₄⟩ := Eval.fullView_grown hnoView (Nat.le_max_right _ _)
    have h₁ : m.scope.Grows m₁.scope := hy.grown.grows
    have h₂ : m₁.scope.Grows m₂.scope := hn.grown.grows
    have h₃ : m₂.scope.Grows m₃.scope := (hgrown₃ _ (Nat.le_refl _)).grows
    have h₄ : m₃.scope.Grows m₄.scope := (hgrown₄ _ (Nat.le_refl _)).grows
    have h₅ := Eval.mergeSlots_steady _ _ _ _ _ hmerged
    have hframe : m₄.frame = m.frame := by rw [hframe₄, hframe₃, hn.frame, hy.frame]
    have hc₅ : m₅.scope.Grows c.scope := hscope ▸ hforesees.1
    have hc₂ : c.Foresees m₂ := by
      refine ⟨((h₃.trans h₄).trans h₅.grown.grows).trans hc₅, fun he => hforesees.2 ?_⟩
      rw [← hentry₃, ← hentry₄] at he
      exact hentry.trans (h₅.entry he)
    have hc₁ : c.Foresees m₁ := ⟨h₂.trans hc₂.1, fun he => hc₂.2 (hn.entry he)⟩
    have hmerges : c.Merges m₄.scope m.frame yesView noView merged m₅ :=
      mergeSlots_merges hlength hmerged hc₅ (.refl _) hframe
    obtain ⟨new, hnew, hopen⟩ := hmerges.opened
    have hreach : m'.frame.reach = m.frame.reach + max gy.drawn gn.drawn := by
      rw [hdrawn, hnew]
      rfl
    obtain ⟨ρ₁, hruns, hkeeps⟩ := hopen ρ w
    have hkeeps₁ : c.Keeps m.scope ρ ρ₁ := hkeeps.back (((h₁.trans h₂).trans h₃).trans h₄)
    have hs₁ : c.Stands [(e, .value (.int k))] s m ρ₁ w := hs.move rfl rfl (.refl _) hkeeps₁
    have hcond := (hs₁.held _ List.mem_cons_self).gives
    -- the branch itself, after the declarations of what the sides share
    have hbranch : ∃ ρ' w', Runs c.runtime (.stmt (.branch e (gy.code ++ merged.yes) (gn.code ++ merged.no))) c.entry ⟨ρ₁, w⟩ ⟨ρ', w'⟩ ∧
        c.Keeps m.scope ρ₁ ρ' ∧ c.Stands [] s' m' ρ' w' := by
      by_cases hk : 0 < k
      · rw [if_pos hk] at htaken
        have hyesCarries := hmerges.yes
        rw [← hscope, ← hstack] at hyesCarries
        obtain ⟨ρ', w', hside, hkept, hs'⟩ := side_runs hc htaken hyes hyesView (Nat.le_max_left _ _)
          hc₁ h₂ h₄ (h₅.grown.grows.trans hc₅) hyesCarries (by rw [hbasey, hreach]) hs₁
        exact ⟨ρ', w', .yes hcond hk hside, hkept, hs'⟩
      · rw [if_neg hk] at htaken
        have hnoCarries := hmerges.no
        rw [← hscope, ← hstack] at hnoCarries
        have hs₂ : c.Stands [(e, .value (.int k))] s m₁ ρ₁ w := by
          refine hs₁.move ?_ ?_ h₁ .refl <;> rw [hy.frame]
        obtain ⟨ρ', w', hside, hkept, hs'⟩ := side_runs hc htaken hno hnoView (Nat.le_max_right _ _)
          hc₂ h₃ (.refl _) (h₅.grown.grows.trans hc₅) hnoCarries (by rw [hbasen, hy.frame, hreach]) hs₂
        exact ⟨ρ', w', .no hcond hk hside, hkept.back h₁, hs'⟩
    obtain ⟨ρ', w', hruns', hkept, hs'⟩ := hbranch
    refine ⟨new ++ [_], ρ', w', ?_, hruns.append hruns'.single, hkeeps₁.trans (.refl _) hkept, hs'⟩
    rw [hcode, hnew, List.append_assoc]
  · exact absurd h Eval.throw_ok

theorem sim_branch (hc : c.Supplied) {run : Procedure → Eval Unit} (hrun : ∀ p, Eval.Steady (run p)) {yes no : Procedure}
    {k : Int32} {st : List Item} {σ : World}
    (htaken : c.Sim (run (if 0 < k then yes else no)) (c.Stands [] ⟨st, σ⟩) (fun _ => c.Stands [] s')) :
    c.Sim (Eval.branch run) (c.Stands [] ⟨.procedure no :: .procedure yes :: .value (.int k) :: st, σ⟩)
      (fun _ => c.Stands [] s') := by
  have hsides : ∀ yes no, Eval.Steady (Eval.popTyped .int "if$" >>= _) := fun yes no =>
    (Eval.steady_popTyped .int "if$").bind (fun e => Eval.steady_runSides hrun yes no e)
  unfold Eval.branch
  refine .bind (sim_popProcedure hc "if$") (fun no' => .given ?_ (fun hno => ?_))
  · exact .bind (Eval.steady_popProcedure "if$") (fun yes => hsides yes no')
  subst hno
  refine .bind (sim_popProcedure hc "if$") (fun yes' => .given (hsides yes' _) (fun hyes => ?_))
  subst hyes
  exact .bind (sim_popTyped_value hc .int "if$") (fun e => sim_runSides hc hrun htaken)

end Branches

/-! ## Loops -/

/-- Variables that were known before, and parameters, hold what they held, some variables apart. -/
def KeepsBut (c : Activation) (s : Scope) (vs : List VarId) (ρ ρ' : Locals) : Prop :=
  ∀ x, s.origin? x ≠ none ∨ c.scope.IsParam x → x ∉ vs → ρ' x = ρ x

section Updates

variable {c : Activation} {w : World} {f : VarId → Value}

/-- Expressions are worth what variables are to hold. -/
def Ready (c : Activation) (s : Scope) (ρ : Locals) (w : World) (f : VarId → Value) (changed : List (VarId × Expr)) : Prop :=
  ∀ q ∈ changed, s.origin? q.1 ≠ none ∧ (∀ x ∈ q.2.vars, s.origin? x ≠ none) ∧ q.2.Gives c.runtime c.entry ρ w (f q.1) w

/-- **Temporaries**: what is stored in them before the first move is what the moves take from them. -/
theorem temporaries_runs : ∀ {changed : List (VarId × Expr)} {m m' : Machine} {stores moves : Block} {ρ : Locals},
    Eval.temporaries changed m = .ok (stores, moves) m' → m'.scope.Grows c.scope → c.Ready m.scope ρ w f changed →
    ∃ ρ₁, Runs c.runtime (.block stores) c.entry ⟨ρ, w⟩ ⟨ρ₁, w⟩ ∧ c.Keeps m.scope ρ ρ₁ ∧
      ∀ ρ', (∀ t, m.scope.origin? t = none → ρ' t = ρ₁ t) →
        ∃ ρ₂, Runs c.runtime (.block moves) c.entry ⟨ρ', w⟩ ⟨ρ₂, w⟩ ∧ (∀ q ∈ changed, ρ₂ q.1 = some (f q.1)) ∧
          ∀ x, x ∉ changed.map (·.1) → ρ₂ x = ρ' x
  | [], m, m', stores, moves, ρ, h, _, _ => by
    obtain ⟨h, -⟩ := Eval.pure_ok.1 h
    cases h
    exact ⟨ρ, .nil, .refl, fun ρ' _ => ⟨ρ', .nil, nofun, fun _ _ => rfl⟩⟩
  | (v, e) :: rest, m, m', stores, moves, ρ, h, hc, hready => by
    unfold Eval.temporaries at h
    obtain ⟨t, m₁, ht, h₁⟩ := Eval.bind_ok.1 h
    obtain ⟨u, m₂, hu, h₂⟩ := Eval.bind_ok.1 h₁
    obtain ⟨r, m₃, hrest, h₃⟩ := Eval.bind_ok.1 h₂
    obtain ⟨h₃, rfl⟩ := Eval.pure_ok.1 h₃
    cases h₃
    rw [(Eval.tyOf_ok.1 ht).2] at hu
    obtain ⟨hnew, hlocal, hgrows⟩ : m.scope.origin? u = none ∧ m₂.scope.origin? u = some .local ∧ m.scope.Grows m₂.scope := by
      obtain ⟨⟩ := hu
      exact ⟨m.scope.origin?_newLocal_old t, m.scope.origin?_newLocal t, m.scope.grows_newLocal t⟩
    have hfinal := (Eval.steady_temporaries rest _ _ _ hrest).grown.grows.trans hc
    have hset : c.Keeps m.scope ρ (ρ.set u (some (f v))) := .set hnew (hfinal _ _ hlocal) _
    obtain ⟨⟨hv, -, hgives⟩, hready⟩ := List.forall_mem_cons.1 hready
    have hready' : c.Ready m₂.scope (ρ.set u (some (f v))) w f rest := by
      intro q hq
      obtain ⟨hknown, hvars, hgives⟩ := hready q hq
      refine ⟨fun hnone => hknown (hgrows.eq_none hnone), fun x hx hnone => hvars x hx (hgrows.eq_none hnone), ?_⟩
      exact hgives.congr_locals (fun x hx => hset x (.inl (hvars x hx)))
    obtain ⟨ρ₁, hstores, hkeeps, hmoves⟩ := temporaries_runs hrest hc hready'
    refine ⟨ρ₁, .cons (.init hgives) hstores, hset.trans hgrows hkeeps, fun ρ' hρ' => ?_⟩
    have hu₁ : ρ' u = some (f v) := by
      have hknown : m₂.scope.origin? u ≠ none := by
        rw [hlocal]
        exact Option.some_ne_none _
      rw [hρ' u hnew, hkeeps u (.inl hknown)]
      exact if_pos rfl
    obtain ⟨ρ₂, hruns, hfilled, hothers⟩ := hmoves (ρ'.set v (some (f v))) (fun t ht => by
      have htv : t ≠ v := by
        rintro rfl
        exact hv (hgrows.eq_none ht)
      rw [← hρ' t (hgrows.eq_none ht)]
      exact if_neg htv)
    refine ⟨ρ₂, .cons (.assign ⟨hu₁, rfl⟩ rfl) hruns, List.forall_mem_cons.2 ⟨?_, hfilled⟩, fun x hx => ?_⟩
    · by_cases hmem : v ∈ rest.map (·.1)
      · obtain ⟨q, hq, rfl⟩ := List.mem_map.1 hmem
        exact hfilled q hq
      · rw [hothers v hmem]
        exact if_pos rfl
    · rw [List.map_cons, List.mem_cons, not_or] at hx
      rw [hothers x hx.2]
      exact if_neg hx.1

/-- **All loop variables get their new values at once.** -/
theorem updates_runs {changed : List (VarId × Expr)} {m m' : Machine} {code : Block} {ρ : Locals}
    (h : Eval.updates changed m = .ok code m') (hc : m'.scope.Grows c.scope) (hready : c.Ready m.scope ρ w f changed) :
    ∃ ρ', Runs c.runtime (.block code) c.entry ⟨ρ, w⟩ ⟨ρ', w⟩ ∧ (∀ q ∈ changed, ρ' q.1 = some (f q.1)) ∧
      c.KeepsBut m.scope (changed.map (·.1)) ρ ρ' := by
  unfold Eval.updates at h
  split at h
  · rename_i v e
    obtain ⟨rfl, -⟩ := Eval.pure_ok.1 h
    have hgives := (hready _ List.mem_cons_self).2.2
    refine ⟨ρ.set v (some (f v)), .single (.assign hgives rfl), fun q hq => ?_, fun x _ hx => ?_⟩
    · rw [List.mem_singleton.1 hq]
      exact if_pos rfl
    · refine if_neg (fun heq => hx ?_)
      rw [heq]
      exact List.mem_cons_self
  · obtain ⟨r, m₁, hr, h⟩ := Eval.bind_ok.1 h
    obtain ⟨rfl, rfl⟩ := Eval.pure_ok.1 h
    obtain ⟨ρ₁, hstores, hkeeps, hmoves⟩ := temporaries_runs hr hc hready
    obtain ⟨ρ₂, hruns, hfilled, hothers⟩ := hmoves ρ₁ (fun _ _ => rfl)
    refine ⟨ρ₂, hstores.append hruns, hfilled, fun x hx hnot => ?_⟩
    rw [hothers x hnot]
    exact hkeeps x hx

end Updates

section Loops

variable {c : Activation} {s s' : State} {ρ : Locals} {w : World} {vs : List VarId}

/-- A nested frame that drew nothing reaches as deep as the frame around it. -/
theorem nested_reach {x : Eval Unit} (hx : Eval.Steady x) {m m' : Machine} {g : Frame} (h : Eval.inNested x m = .ok g m')
    (hdrawn : ¬ 0 < g.drawn) : g.reach = m.frame.reach := by
  rw [Frame.reach, (Eval.inNested_returns hx h).1, Nat.eq_zero_of_not_pos hdrawn]
  rfl

/-- **The test of a loop**: what it has written leaves the value to be tested, and the stack as it was. -/
theorem loopTest_runs {x : Eval Unit} {k : Int32} {st : List Item} {σ : World}
    (hx : c.Sim x (c.Stands [] s) (fun _ => c.Stands [] ⟨.value (.int k) :: st, σ⟩)) {m m' : Machine} {setup : Block} {value : Expr}
    (h : Eval.loopTest x (vs.map .var) m = .ok (setup, value) m') (hc : c.Foresees m') (hstack : m.frame.stack = vs.map .var)
    (hvs : ∀ v ∈ vs, m.scope.origin? v = some .local) (hs : c.Stands [] s m ρ w) :
    ∃ ρ' w', Runs c.runtime (.block setup) c.entry ⟨ρ, w⟩ ⟨ρ', w'⟩ ∧ value.Gives c.runtime c.entry ρ' w' (.int k) w' ∧
      c.Keeps m.scope ρ ρ' ∧ c.Stands [] ⟨st, σ⟩ m ρ' w' := by
  rw [Eval.loopTest_eq] at h
  obtain ⟨g, m₁, hg, h⟩ := Eval.bind_ok.1 h
  split at h
  · exact absurd h Eval.throw_ok
  rename_i hdrawn
  cases hvalue : g.stack with
  | nil =>
    rw [hvalue] at h
    exact absurd h Eval.throw_ok
  | cons top rest =>
    rw [hvalue] at h
    dsimp only at h
    split at h
    · obtain ⟨checked, m₂, hcheck, h⟩ := Eval.bind_ok.1 h
      split at h
      · rename_i hrest
        obtain ⟨h, rfl⟩ := Eval.pure_ok.1 h
        cases h
        have hback := hc.back (Eval.steady_check _ _ _ _ _ _ hcheck)
        obtain ⟨⟨rfl, -⟩, -⟩ := (Eval.check_at top .int "while$").ok ⟨rfl, .refl _⟩ hcheck
        obtain ⟨ρ', w', hruns, hkeeps, hs'⟩ := nested_runs hx hg hback hs
        obtain ⟨⟨i, below⟩, hitems, hs'⟩ := hs'.uncons hvalue
        cases hitems
        refine ⟨ρ', w', hruns, (hs'.held _ List.mem_cons_self).gives, hkeeps, hs'.rescope (hstack.trans hrest.symm) ?_ ?_⟩
        · exact (nested_reach hx.1 hg hdrawn).symm
        · intro e he y hy
          dsimp only at he
          rw [hrest] at he
          obtain ⟨v, hv, rfl⟩ := List.mem_map.1 he
          rw [List.mem_singleton.1 hy, hvs v hv]
          exact nofun
      · exact absurd h Eval.throw_ok
    · exact absurd h Eval.throw_ok

/-- In a row of different keys each has one partner. -/
theorem zip_unique {α : Type} : ∀ {vs : List VarId} {l : List α} {v : VarId} {a b : α}, vs.Nodup → (v, a) ∈ vs.zip l →
    (v, b) ∈ vs.zip l → a = b
  | u :: vs, x :: l, v, a, b, hnodup, ha, hb => by
    rw [List.nodup_cons] at hnodup
    rw [List.zip_cons_cons, List.mem_cons] at ha hb
    rcases ha with ha | ha <;> rcases hb with hb | hb
    · cases ha
      cases hb
      rfl
    · cases ha
      exact absurd (List.of_mem_zip hb).1 hnodup.1
    · cases hb
      exact absurd (List.of_mem_zip ha).1 hnodup.1
    · exact zip_unique hnodup.2 ha hb

theorem mem_zip_fst {v : VarId} {e : Expr} {slots : List (Expr × Item)} :
    (v, e) ∈ vs.zip (slots.map (·.1)) ↔ ∃ i, (v, e, i) ∈ vs.zip slots := by
  rw [List.zip_map_right, List.mem_map]
  constructor
  · rintro ⟨⟨_, _, i⟩, hq, heq⟩
    cases heq
    exact ⟨i, hq⟩
  · rintro ⟨i, hq⟩
    exact ⟨_, hq, rfl⟩

/-- Each loop variable has a value to hold, if its slot is one. -/
theorem exists_worths {sc : Scope} {slots : List (Expr × Item)} (hnodup : vs.Nodup)
    (hdenotes : ∀ q ∈ slots, Denotes c.runtime c.entry sc ρ w q.1 q.2) :
    ∃ f : VarId → Value, ∀ v e i, (v, e, i) ∈ vs.zip slots → e.isValue = true → i = .value (f v) := by
  have hworth : ∀ v, ∃ x, ∀ e i, (v, e, i) ∈ vs.zip slots → e.isValue = true → i = .value x := by
    intro v
    by_cases hv : ∃ e i, (v, e, i) ∈ vs.zip slots ∧ e.isValue = true
    · obtain ⟨e, i, hq, he⟩ := hv
      obtain ⟨x, hx, -⟩ := (hdenotes _ (List.of_mem_zip hq).2).of_isValue he
      refine ⟨x, fun e' i' hq' _ => ?_⟩
      cases zip_unique hnodup hq hq'
      exact hx
    · exact ⟨.missing, fun e i hq he => absurd ⟨e, i, hq, he⟩ hv⟩
  exact Classical.axiomOfChoice hworth

/-- **The body of a loop**: what it has written puts into the loop variables what the style leaves on the stack. -/
theorem loopBody_runs {x : Eval Unit} (hx : c.Sim x (c.Stands [] s) (fun _ => c.Stands [] s')) {m m' : Machine} {code : Block}
    (h : Eval.loopBody x vs m = .ok code m') (hc : c.Foresees m') (hnodup : vs.Nodup)
    (hvs : ∀ v ∈ vs, m.scope.origin? v = some .local) (hstack : m.frame.stack = vs.map .var) (hs : c.Stands [] s m ρ w) :
    ∃ ρ' w', Runs c.runtime (.block code) c.entry ⟨ρ, w⟩ ⟨ρ', w'⟩ ∧ c.KeepsBut m.scope vs ρ ρ' ∧ c.Stands [] s' m ρ' w' := by
  obtain ⟨g, m₁, hg, h⟩ := Eval.bind_ok.1 h
  split at h
  · exact absurd h Eval.throw_ok
  rename_i hdrawn
  split at h
  · rename_i hlength
    obtain ⟨changed, m₂, hchanged, h⟩ := Eval.bind_ok.1 h
    obtain ⟨new, m₃, hnew, h⟩ := Eval.bind_ok.1 h
    obtain ⟨rfl, rfl⟩ := Eval.pure_ok.1 h
    have hc₂ := hc.back (Eval.steady_updates _ _ _ _ hnew)
    have hc₁ := hc₂.back (Eval.steady_changedSlots _ _ _ _ _ hchanged)
    have h₁ : m.scope.Grows m₁.scope := (Eval.inNested_returns hx.1 hg).2.grown.grows
    obtain ⟨hrows, hvalues, -, h₂⟩ := (Eval.changedSlots_at vs g.stack).ok ⟨rfl, .refl _⟩ hchanged
    obtain ⟨ρ₁, w₁, hruns, hkeeps, hs₁⟩ := nested_runs hx hg hc₁ hs
    obtain ⟨slots, hslots, hitems, hdenotes⟩ := hs₁.slots
    obtain ⟨f, hf⟩ := exists_worths hnodup hdenotes
    dsimp only at hslots hitems hdenotes
    rw [← hslots] at hrows hlength
    rw [List.length_map] at hlength
    have hready : c.Ready m₂.scope ρ₁ w₁ f changed := by
      intro q hq
      obtain ⟨i, hi⟩ := mem_zip_fst.1 ((hrows q).1 hq).1
      have hmem := List.of_mem_zip hi
      have hworth := hdenotes _ hmem.2
      rw [hf q.1 q.2 i hi (hvalues q hq)] at hworth
      refine ⟨fun hnone => ?_, fun y hy hnone => hworth.known y hy (h₂.eq_none hnone), hworth.gives⟩
      have hlocal := (h₁.trans h₂) _ _ (hvs _ hmem.1)
      rw [hnone] at hlocal
      cases hlocal
    have htargets : ∀ y, y ∉ vs → y ∉ changed.map (·.1) := by
      intro y hy hmem
      obtain ⟨q, hq, rfl⟩ := List.mem_map.1 hmem
      exact hy (List.of_mem_zip ((hrows q).1 hq).1).1
    obtain ⟨ρ₂, hruns', hfilled, hothers⟩ := updates_runs hnew hc.1 hready
    have hkept : ∀ y, m.scope.origin? y ≠ none ∨ c.scope.IsParam y → y ∉ changed.map (·.1) → ρ₂ y = ρ₁ y := fun y hy hnot =>
      hothers y (hy.imp_left (fun hold hnone => hold ((h₁.trans h₂).eq_none hnone))) hnot
    refine ⟨ρ₂, w₁, hruns.append hruns', fun y hy hnot => ?_, hs₁.world, fun v d hv => ?_,
      ⟨(vs.map .var).zip (slots.map (·.2)), ?_, ?_, ?_⟩, nofun⟩
    · rw [hkept y hy (htargets y hnot)]
      exact hkeeps y hy
    · have hnot : v ∉ vs := fun hmem => by
        have hlocal := hc₂.1 _ _ ((h₁.trans h₂) _ _ (hvs v hmem))
        rw [hv] at hlocal
        cases hlocal
      rw [hkept v (.inr ⟨d, hv⟩) (htargets v hnot)]
      exact hs₁.bound v d hv
    · rw [List.map_fst_zip (by simp [hlength]), hstack]
    · rw [List.map_snd_zip (by simp [hlength]), hitems, ← nested_reach hx.1 hg hdrawn]
    · intro q hq
      rw [List.zip_map, List.mem_map] at hq
      obtain ⟨⟨v, e, i⟩, hmem, rfl⟩ := hq
      dsimp only [Prod.map]
      have hmem' := List.of_mem_zip hmem
      -- a slot that the body left alone still reads its variable, which no update writes
      have hholds : ∃ x, i = .value x ∧ ρ₂ v = some x := by
        by_cases he : e = .var v
        · obtain ⟨x, hx, -, hgives⟩ := (hdenotes _ hmem'.2).of_isValue (by rw [he]; rfl)
          refine ⟨x, hx, ?_⟩
          dsimp only at hgives
          rw [he] at hgives
          rw [hkept v (.inl (by rw [hvs v hmem'.1]; exact nofun)) (fun hrow => ?_)]
          · exact hgives.1
          · obtain ⟨q, hq, rfl⟩ := List.mem_map.1 hrow
            obtain ⟨i', hi'⟩ := mem_zip_fst.1 ((hrows q).1 hq).1
            cases zip_unique hnodup hi' hmem
            exact ((hrows q).1 hq).2 he
        · have hrow := (hrows (v, e)).2 ⟨mem_zip_fst.2 ⟨i, hmem⟩, he⟩
          exact ⟨f v, hf v e i hmem (hvalues _ hrow), hfilled _ hrow⟩
      obtain ⟨x, rfl, hx⟩ := hholds
      refine .value rfl (fun y hy => ?_) ⟨hx, rfl⟩
      rw [List.mem_singleton.1 hy, hvs v hmem'.1]
      exact nofun
  · exact absurd h Eval.throw_ok

/-- **A loop runs as the style runs it**, wherever its test and its body have been compiled. -/
def SimLoop (c : Activation) (run : Procedure → Eval Unit) (condition body : Procedure) (s s' : State) : Prop :=
  ∀ (vs : List VarId) (m m₁ m₂ : Machine) (setup : Block) (value : Expr) (code : Block),
    m.frame.stack = vs.map .var → vs.Nodup → (∀ v ∈ vs, m.scope.origin? v = some .local) →
    Eval.loopTest (run condition) (vs.map .var) m = .ok (setup, value) m₁ → Eval.loopBody (run body) vs m₁ = .ok code m₂ →
    c.Foresees m₂ → ∀ ρ w, c.Stands [] s m ρ w →
      ∃ ρ' w', Runs c.runtime (.stmt (.loop setup value code)) c.entry ⟨ρ, w⟩ ⟨ρ', w'⟩ ∧ c.KeepsBut m.scope vs ρ ρ' ∧
        c.Stands [] s' m ρ' w'

variable {run : Procedure → Eval Unit} {condition body : Procedure} {k : Int32} {st : List Item} {σ : World}

theorem simLoop_done (hrun : ∀ p, Eval.Steady (run p)) (hk : ¬ 0 < k)
    (htest : c.Sim (run condition) (c.Stands [] s) (fun _ => c.Stands [] ⟨.value (.int k) :: st, σ⟩)) :
    c.SimLoop run condition body s ⟨st, σ⟩ := by
  intro vs m m₁ m₂ setup value code hstack hnodup hvs hsetup hcode hc ρ w hs
  have hc₁ := hc.back (Eval.steady_loopBody (hrun body) vs _ _ _ hcode)
  obtain ⟨ρ', w', hruns, hgives, hkeeps, hs'⟩ := loopTest_runs htest hsetup hc₁ hstack hvs hs
  exact ⟨ρ', w', .done hruns hgives hk, fun x hx _ => hkeeps x hx, hs'⟩

theorem simLoop_again (hrun : ∀ p, Eval.Steady (run p)) (hk : 0 < k) {s₁ : State}
    (htest : c.Sim (run condition) (c.Stands [] s) (fun _ => c.Stands [] ⟨.value (.int k) :: st, σ⟩))
    (hbody : c.Sim (run body) (c.Stands [] ⟨st, σ⟩) (fun _ => c.Stands [] s₁)) (hrest : c.SimLoop run condition body s₁ s') :
    c.SimLoop run condition body s s' := by
  intro vs m m₁ m₂ setup value code hstack hnodup hvs hsetup hcode hc ρ w hs
  have hc₁ := hc.back (Eval.steady_loopBody (hrun body) vs _ _ _ hcode)
  obtain ⟨ρ₁, w₁, hruns, hgives, hkeeps, hs₁⟩ := loopTest_runs htest hsetup hc₁ hstack hvs hs
  have hframe := Eval.loopTest_frame (hrun condition) hsetup
  have hgrows : m.scope.Grows m₁.scope := (Eval.steady_loopTest (hrun condition) _ _ _ _ hsetup).grown.grows
  have hstack₁ : m₁.frame.stack = vs.map .var := hframe ▸ hstack
  have hs₁' : c.Stands [] ⟨st, σ⟩ m₁ ρ₁ w₁ := by
    refine hs₁.move ?_ ?_ hgrows .refl <;> rw [hframe]
  obtain ⟨ρ₂, w₂, hruns', hkept, hs₂⟩ :=
    loopBody_runs hbody hcode hc hnodup (fun v hv => hgrows _ _ (hvs v hv)) hstack₁ hs₁'
  have hs₂' : c.Stands [] s₁ m ρ₂ w₂ := by
    refine hs₂.rescope (by rw [hframe]) (by rw [hframe]) (fun e he x hx => ?_)
    rw [hstack₁] at he
    obtain ⟨v, hv, rfl⟩ := List.mem_map.1 he
    rw [List.mem_singleton.1 hx, hvs v hv]
    exact nofun
  obtain ⟨ρ₃, w₃, hruns'', hkept', hs₃⟩ := hrest vs m m₁ m₂ setup value code hstack hnodup hvs hsetup hcode hc ρ₂ w₂ hs₂'
  refine ⟨ρ₃, w₃, .again hruns hgives hk hruns' hruns'', fun x hx hnot => ?_, hs₃⟩
  have hx' : m₁.scope.origin? x ≠ none ∨ c.scope.IsParam x := hx.imp_left (fun hold hnone => hold (hgrows.eq_none hnone))
  rw [hkept' x hx hnot, hkept x hx' hnot, hkeeps x hx]

/-- **A loop does what the style's loop does.** -/
theorem sim_loop (hc : c.Supplied) (hrun : ∀ p, Eval.Steady (run p)) (h : c.SimLoop run condition body ⟨st, σ⟩ s') :
    c.Sim (Eval.loop run) (c.Stands [] ⟨.procedure body :: .procedure condition :: st, σ⟩) (fun _ => c.Stands [] s') := by
  have hrest : ∀ condition body, Eval.Steady (do
      let vars ← Eval.spillAll "while$"
      let test ← Eval.loopTest (run condition) (vars.map .var)
      let code ← Eval.loopBody (run body) vars
      Eval.emit (.loop test.1 test.2 code)) := fun condition body =>
    .bind (Eval.steady_spillAll _) (fun vs => .bind (Eval.steady_loopTest (hrun condition) _) (fun r =>
      .bind (Eval.steady_loopBody (hrun body) vs) (fun _ => Eval.steady_emit _)))
  unfold Eval.loop
  refine .bind (sim_popProcedure hc "while$") (fun body' => .given ?_ (fun hbody => ?_))
  · exact .bind (Eval.steady_popProcedure _) (fun condition => hrest condition body')
  subst hbody
  refine .bind (sim_popProcedure hc "while$") (fun condition' => .given (hrest _ _) (fun hcondition => ?_))
  subst hcondition
  refine ⟨hrest _ _, fun m r m' hx hforesees ρ w hs => ?_⟩
  obtain ⟨vs, m₀, hspill, hx⟩ := Eval.bind_ok.1 hx
  obtain ⟨⟨setup, value⟩, m₁, htest, hx⟩ := Eval.bind_ok.1 hx
  obtain ⟨code, m₂, hcode, hx⟩ := Eval.bind_ok.1 hx
  obtain ⟨hstack, hnodup, hvs⟩ := (Eval.spillAll_fresh "while$").ok (.refl _) hspill
  have hfollows₁ := Eval.steady_loopTest (hrun condition') _ _ _ _ htest
  have hfollows₂ := Eval.steady_loopBody (hrun body') vs _ _ _ hcode
  have hframe : m₂.frame = m₀.frame :=
    (Eval.loopBody_frame (hrun body') hcode).trans (Eval.loopTest_frame (hrun condition') htest)
  obtain ⟨⟩ := hx
  have hc₂ : c.Foresees m₂ := hforesees
  have hc₀ : c.Foresees m₀ := (hc₂.back hfollows₂).back hfollows₁
  obtain ⟨new, ρ₁, w₁, hnew, hruns, hkeeps, hs₁⟩ := (sim_spillAll "while$").2 m vs m₀ hspill hc₀ ρ w hs
  obtain ⟨ρ₂, w₂, hruns', hkept, hs₂⟩ :=
    h vs m₀ m₁ m₂ setup value code hstack hnodup (fun v hv => (hvs v hv).2) htest hcode hc₂ ρ₁ w₁ hs₁
  refine ⟨new ++ [.loop setup value code], ρ₂, w₂, ?_, hruns.append hruns'.single, fun x hx => ?_, ?_⟩
  · rw [← List.append_assoc, ← hnew, ← hframe]
  · -- the loop variables are new, so they are none of what was known
    have hnot : x ∉ vs := by
      intro hmem
      rcases hx with hx | ⟨d, hd⟩
      · exact hx (hvs x hmem).1
      · rw [hc₀.1 _ _ (hvs x hmem).2] at hd
        cases hd
    have hgrows := (Eval.steady_spillAll "while$" _ _ _ hspill).grown.grows
    rw [hkept x (hx.imp_left (fun hold hnone => hold (hgrows.eq_none hnone))) hnot, hkeeps x hx]
  · refine hs₂.move ?_ ?_ (hfollows₁.grown.grows.trans hfollows₂.grown.grows) .refl
    · rw [← hframe]
    · rw [← hframe]
      rfl

end Loops

end Activation
end Bibstyle
