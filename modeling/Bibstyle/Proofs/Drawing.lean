import Bibstyle.Proofs.Triple
import Bibstyle.Proofs.Variables
/-!
# Drawing — what a symbolic run takes from the caller

Whatever runs, and whether it is on the path that is taken or not, variables stay what they are, an entry once touched
stays touched, and the values drawn from the caller are those from the top of its stack down to some depth.  There is one
parameter for each of them, because a branch that draws less than the other side is made to draw as much.
-/
namespace Bibstyle
namespace Scope

/-- No two parameters stand for one value of the caller. -/
def Distinct (s : Scope) : Prop :=
  ∀ v v' d, s.origin? v = some (.param d) → s.origin? v' = some (.param d) → v = v'

theorem origin?_ne_of_findParam? {s : Scope} {d : Nat} (h : s.findParam? d = none) (v : VarId) :
    s.origin? v ≠ some (.param d) := by
  intro hv
  simp only [origin?, get?, Option.map_eq_some_iff] at hv
  obtain ⟨x, hx, ho⟩ := hv
  have hfind := Array.findIdx?_eq_none_iff.1 h x (Array.mem_of_getElem? hx)
  rw [ho] at hfind
  simp at hfind

theorem origin?_param_cases {s : Scope} {k d : Nat} {t : Ty} {v : VarId}
    (h : (s.param k t).2.origin? v = some (.param d)) : s.origin? v = some (.param d) ∨ d = k := by
  unfold param at h
  split at h
  · exact .inl h
  · dsimp only at h
    rw [origin?_push] at h
    split at h
    · simp only [Option.some.injEq, Origin.param.injEq] at h
      exact .inr h.symm
    · exact .inl h

theorem Distinct.param {s : Scope} (h : s.Distinct) (k : Nat) (t : Ty) : (s.param k t).2.Distinct := by
  unfold Scope.param
  split
  · exact h
  · rename_i hnone
    intro v v' d hv hv'
    dsimp only at hv hv'
    rw [origin?_push] at hv hv'
    split at hv <;> split at hv'
    · rename_i hv₁ hv₂
      exact hv₁.trans hv₂.symm
    · cases hv
      exact absurd hv' (origin?_ne_of_findParam? hnone v')
    · cases hv'
      exact absurd hv (origin?_ne_of_findParam? hnone v)
    · exact h v v' d hv hv'

theorem origin?_of_newLocal {s : Scope} {t : Ty} {v : VarId} {d : Nat}
    (h : (s.newLocal t).2.origin? v = some (.param d)) : s.origin? v = some (.param d) := by
  unfold newLocal at h
  dsimp only at h
  rw [origin?_push] at h
  split at h
  · cases h
  · exact h

/-- **A scope grows while values are drawn** whose depths begin at `i` and end before `k`. -/
structure Grown (s : Scope) (i : Nat) (s' : Scope) (k : Nat) : Prop where
  grows : s.Grows s'
  le : i ≤ k
  shallow : ∀ v d, s'.origin? v = some (.param d) → s.origin? v = some (.param d) ∨ d < k
  reached : ∀ d, d < k → d < i ∨ ∃ v, s'.origin? v = some (.param d)
  distinct : s.Distinct → s'.Distinct

namespace Grown

variable {s s₁ s₂ : Scope} {i j k : Nat}

/-- No parameter is new. -/
theorem of_params (hs : s.Grows s₁) (h : ∀ v d, s₁.origin? v = some (.param d) → s.origin? v = some (.param d)) (k : Nat) :
    Grown s k s₁ k where
  grows := hs
  le := Nat.le_refl k
  shallow v d hv := .inl (h v d hv)
  reached _ hd := .inl hd
  distinct hs v v' d hv hv' := hs v v' d (h v d hv) (h v' d hv')

theorem refl (s : Scope) (k : Nat) : Grown s k s k :=
  of_params (.refl s) (fun _ _ hv => hv) k

theorem trans (h : Grown s i s₁ j) (h' : Grown s₁ j s₂ k) : Grown s i s₂ k where
  grows := h.grows.trans h'.grows
  le := Nat.le_trans h.le h'.le
  shallow v d hv := by
    rcases h'.shallow v d hv with hv | hd
    · exact (h.shallow v d hv).imp_right (fun hd => Nat.lt_of_lt_of_le hd h'.le)
    · exact .inr hd
  reached d hd := by
    rcases h'.reached d hd with hd | hv
    · refine (h.reached d hd).imp_right ?_
      rintro ⟨v, hv⟩
      exact ⟨v, h'.grows v _ hv⟩
    · exact .inr hv
  distinct hs := h'.distinct (h.distinct hs)

/-- Two sides draw from the same depth on, one after the other: together they draw as much as the hungrier one. -/
theorem join (h : Grown s i s₁ j) (h' : Grown s₁ i s₂ k) : Grown s i s₂ (max j k) where
  grows := h.grows.trans h'.grows
  le := Nat.le_trans h.le (Nat.le_max_left j k)
  shallow v d hv := by
    rcases h'.shallow v d hv with hv | hd
    · exact (h.shallow v d hv).imp_right (fun hd => Nat.lt_of_lt_of_le hd (Nat.le_max_left j k))
    · exact .inr (Nat.lt_of_lt_of_le hd (Nat.le_max_right j k))
  reached d hd := by
    by_cases hk : d < k
    · exact h'.reached d hk
    · have hj : d < j := by omega
      refine (h.reached d hj).imp_right ?_
      rintro ⟨v, hv⟩
      exact ⟨v, h'.grows v _ hv⟩
  distinct hs := h'.distinct (h.distinct hs)

/-- What draws nothing draws nothing deeper either. -/
theorem deepen (h : Grown s i s₁ i) (hk : i ≤ k) : Grown s k s₁ k where
  grows := h.grows
  le := Nat.le_refl k
  shallow v d hv := (h.shallow v d hv).imp_right (fun hd => Nat.lt_of_lt_of_le hd hk)
  reached _ hd := .inl hd
  distinct := h.distinct

theorem param (s : Scope) (t : Ty) (hk : i < k) : Grown s k (s.param i t).2 k where
  grows := s.grows_param i t
  le := Nat.le_refl k
  shallow _ d hv := (origin?_param_cases hv).imp_right (fun hd : d = i => hd ▸ hk)
  reached _ hd := .inl hd
  distinct hs := hs.param i t

/-- The next value is drawn. -/
theorem draw (s : Scope) (k : Nat) (t : Ty) : Grown s k (s.param k t).2 (k + 1) where
  grows := s.grows_param k t
  le := Nat.le_succ k
  shallow _ d hv := (origin?_param_cases hv).imp_right (fun hd : d = k => hd ▸ Nat.lt_succ_self k)
  reached d hd := by
    rcases Nat.lt_succ_iff_lt_or_eq.1 hd with hd | rfl
    · exact .inl hd
    · exact .inr ⟨_, s.origin?_param d t⟩
  distinct hs := hs.param k t

end Grown
end Scope

/-- How deep into the caller's stack a frame and those around it have drawn. -/
def Frame.reach (f : Frame) : Nat :=
  f.base + f.drawn

/-- **One machine may follow another** in a run, whatever runs. -/
structure Machine.Follows (m m' : Machine) : Prop where
  base : m'.frame.base = m.frame.base
  entry : m.usesEntry = true → m'.usesEntry = true
  grown : m.scope.Grown m.frame.reach m'.scope m'.frame.reach

theorem Machine.Follows.refl (m : Machine) : m.Follows m :=
  ⟨rfl, id, .refl _ _⟩

theorem Machine.Follows.trans {m m₁ m₂ : Machine} (h : m.Follows m₁) (h' : m₁.Follows m₂) : m.Follows m₂ :=
  ⟨h'.base.trans h.base, fun he => h'.entry (h.entry he), h.grown.trans h'.grown⟩

namespace Eval

variable {α β : Type}

/-- **A run that only draws**: any machine it ends in may follow the one it began in. -/
def Steady (x : Eval α) : Prop :=
  ∀ m a m', x m = .ok a m' → m.Follows m'

theorem Steady.bind {x : Eval α} {f : α → Eval β} (hx : Steady x) (hf : ∀ a, Steady (f a)) : Steady (x >>= f) := by
  intro m b m' h
  obtain ⟨a, m₁, hxm, hfm⟩ := bind_ok.1 h
  exact (hx m a m₁ hxm).trans (hf a m₁ b m' hfm)

theorem Steady.pure {a : α} : Steady (pure a) := by
  intro m b m' h
  rw [(pure_ok.1 h).2]
  exact .refl m

theorem Steady.throw {e : AnalysisFault} : Steady (throw e : Eval α) :=
  fun _ _ _ h => absurd h throw_ok

theorem Steady.ite {p : Prop} [Decidable p] {x y : Eval α} (hx : Steady x) (hy : Steady y) : Steady (if p then x else y) := by
  split
  · exact hx
  · exact hy

/-- A change after which the machine may follow itself. -/
theorem Steady.modify {f : Machine → Machine} (h : ∀ m : Machine, m.Follows (f m)) : Steady (modify f) := by
  intro m a m' hm
  obtain ⟨⟩ := hm
  exact h m

theorem Steady.modifyGet {f : Machine → α × Machine} (h : ∀ m : Machine, m.Follows (f m).2) : Steady (modifyGet f) := by
  intro m a m' hm
  obtain ⟨⟩ := hm
  exact h m

theorem Steady.get : Steady get := by
  intro m a m' hm
  obtain ⟨⟩ := hm
  exact .refl m

/-! ## Single operations -/

theorem steady_newLocal (t : Ty) : Steady (newLocal t) :=
  .modifyGet (fun m => ⟨rfl, id, .of_params (m.scope.grows_newLocal t) (fun _ _ => Scope.origin?_of_newLocal) _⟩)

theorem steady_tyOf (e : Expr) : Steady (tyOf e) :=
  .bind .get (fun _ => .pure)

theorem steady_link (h : Helper) : Steady (link h) :=
  .modify (fun m => by split <;> exact ⟨rfl, id, .refl _ _⟩)

theorem steady_touchEntry : Steady touchEntry :=
  .modify (fun _ => ⟨rfl, fun _ => rfl, .refl _ _⟩)

theorem steady_push (e : Expr) : Steady (push e) :=
  .modify (fun _ => ⟨rfl, id, .refl _ _⟩)

theorem steady_emit (t : Stmt) : Steady (emit t) :=
  .modify (fun _ => ⟨rfl, id, .refl _ _⟩)

theorem steady_setStack (es : List Expr) : Steady (setStack es) :=
  .modify (fun _ => ⟨rfl, id, .refl _ _⟩)

theorem steady_clear : Steady clear :=
  .modify (fun _ => ⟨rfl, id, .refl _ _⟩)

theorem steady_mismatch (p t : String) (e : Expr) : Steady (mismatch p t e : Eval α) :=
  .bind .get (fun _ => .throw)

theorem steady_popAs (t : Ty) : Steady (popAs t) := by
  intro m a m' h
  cases hs : m.frame.stack with
  | nil =>
    rw [popAs_nil hs] at h
    obtain ⟨⟩ := h
    exact ⟨rfl, id, .draw m.scope _ t⟩
  | cons e rest =>
    rw [popAs_cons hs] at h
    obtain ⟨⟩ := h
    exact ⟨rfl, id, .refl _ _⟩

theorem steady_check (e : Expr) (t : Ty) (p : String) : Steady (check e t p) := by
  unfold check
  refine .bind (steady_tyOf e) (fun found => .ite (steady_mismatch _ _ _) ?_)
  split
  · refine .bind (.modify (fun m => ⟨rfl, id, ?_⟩)) (fun _ => .pure)
    have horigin := Scope.origin?_refine m.scope
    exact .of_params (.of_eq (horigin _ _)) (fun v d hv => (horigin _ _ v).symm.trans hv) _
  · exact .pure

theorem steady_popTyped (t : Ty) (p : String) : Steady (popTyped t p) :=
  .bind (steady_popAs t) (fun e => steady_check e t p)

theorem steady_popProcedure (p : String) : Steady (popProcedure p) := by
  unfold popProcedure
  refine .bind (steady_popAs .generic) (fun e => ?_)
  split
  · exact .pure
  · exact .pure
  · exact steady_mismatch _ _ _

theorem steady_popArgs (p : String) : ∀ ts : List Ty, Steady (popArgs p ts)
  | [] => .pure
  | t :: ts => .bind (steady_popArgs p ts) (fun _ => .bind (steady_popTyped t p) (fun _ => .pure))

theorem steady_spillSlots (which : Expr → Bool) (es : List Expr) : Steady (spillSlots which es) := by
  induction es with
  | nil => exact .pure
  | cons e below ih =>
    unfold spillSlots
    refine .bind ih (fun slots => .ite ?_ .pure)
    refine .bind (steady_tyOf e) (fun t => .bind (steady_newLocal t) (fun v => ?_))
    exact .bind (steady_emit _) (fun _ => .pure)

theorem steady_spillWhere (changes : Expr → Bool) : Steady (spillWhere changes) :=
  .bind .get (fun _ => .bind (steady_spillSlots _ _) (fun slots => steady_setStack slots))

theorem steady_spillAll (p : String) : Steady (spillAll p) := by
  unfold spillAll
  refine .bind .get (fun m => .bind (steady_spillSlots _ _) (fun slots => .bind (steady_setStack _) (fun _ => ?_)))
  exact .ite .pure .throw

/-- **When every slot is spilled, every slot is a local**, each its own and new to whoever began. -/
theorem spillSlots_fresh {s : Scope} (es : List Expr) :
    Triple (fun m => s.Grows m.scope) (spillSlots (fun _ => true) es)
      (fun slots m => s.Grows m.scope ∧ ∃ vs : List VarId, slots = vs.map .var ∧ vs.Nodup ∧
        ∀ v ∈ vs, s.origin? v = none ∧ m.scope.origin? v = some .local) (fun _ => True) := by
  induction es with
  | nil => exact .pure (fun _ hs => ⟨hs, [], rfl, .nil, nofun⟩)
  | cons e below ih =>
    unfold spillSlots
    refine .bind ih (fun slots => .pointwise (fun m hm => ?_))
    obtain ⟨hs, vs, rfl, hnodup, hvs⟩ := hm
    refine .ite (fun _ => ?_) (fun h => absurd rfl h)
    refine .bind (Q := fun _ => (· = m)) (fun _ hm => hm) (fun t => ?_)
    have hnew : Triple (· = m) (newLocal t) (fun v m' => v = (m.scope.newLocal t).1 ∧ m'.scope = (m.scope.newLocal t).2)
        (fun _ => True) := fun m' h => by subst h; exact ⟨rfl, rfl⟩
    refine .bind hnew (fun v => .pointwise (fun m' h => ?_))
    obtain ⟨rfl, hscope⟩ := h
    refine .bind (Q := fun _ m'' => m''.scope = (m.scope.newLocal t).2) (.modify (fun m'' h => by rw [h]; exact hscope)) (fun _ => ?_)
    refine .pure (fun m'' h => ?_)
    rw [h]
    refine ⟨hs.trans (m.scope.grows_newLocal t), _ :: vs, rfl, List.nodup_cons.2 ⟨fun hv => ?_, hnodup⟩, ?_⟩
    · have hlocal := (hvs _ hv).2
      rw [m.scope.origin?_newLocal_old t] at hlocal
      cases hlocal
    · refine List.forall_mem_cons.2 ⟨⟨hs.eq_none (m.scope.origin?_newLocal_old t), m.scope.origin?_newLocal t⟩, fun v hv => ?_⟩
      exact ⟨(hvs v hv).1, m.scope.grows_newLocal t _ _ (hvs v hv).2⟩

theorem spillAll_fresh {s : Scope} (p : String) :
    Triple (fun m => s.Grows m.scope) (spillAll p)
      (fun vs m => m.frame.stack = vs.map .var ∧ vs.Nodup ∧ ∀ v ∈ vs, s.origin? v = none ∧ m.scope.origin? v = some .local)
      (fun _ => True) := by
  unfold spillAll
  refine .bind (Q := fun _ m => s.Grows m.scope) (fun _ hm => hm) (fun m₀ => .bind (spillSlots_fresh _) (fun slots => ?_))
  refine .pointwise (fun m hm => ?_)
  obtain ⟨-, vs, rfl, hnodup, hvs⟩ := hm
  refine .bind (Q := fun _ m' => m'.frame.stack = _ ++ vs.map .var ∧ m'.scope = m.scope)
    (.modify (fun m' h => ⟨rfl, by rw [h]⟩)) (fun _ => ?_)
  refine .ite (fun hempty => .pure (fun m' h => ?_)) (fun _ => .throw (fun _ _ => trivial))
  rw [List.isEmpty_iff] at hempty
  have hvars : (vs.map Expr.var).filterMap Expr.var? = vs := by
    rw [List.filterMap_map]
    exact List.filterMap_some
  rw [hvars, h.1, h.2, hempty, List.nil_append]
  exact ⟨rfl, hnodup, hvs⟩

/-! ## Branches and loops -/

/-- The machine is in a frame, and its scope has grown since. -/
def At (f : Frame) (s : Scope) (m : Machine) : Prop :=
  m.frame = f ∧ s.Grows m.scope

theorem check_at {f : Frame} {s : Scope} (e : Expr) (t : Ty) (primitive : String) :
    Triple (At f s) (check e t primitive) (fun a m => (a = e ∧ e.isValue = true) ∧ At f s m) (fun _ => True) := by
  unfold check
  refine .bind (Q := fun _ => At f s) (fun _ hm => hm) (fun found => .ite (fun _ => .mismatch (fun _ => trivial)) (fun h => ?_))
  have hvalue : e.isValue = true := by
    simp only [Bool.or_eq_true, Bool.not_eq_true', not_or, Bool.not_eq_false] at h
    exact h.1
  split
  · refine .bind (Q := fun _ => At f s) (.modify (fun m hm => ⟨hm.1, ?_⟩)) (fun _ => .pure (fun _ hm => ⟨⟨rfl, hvalue⟩, hm⟩))
    exact hm.2.trans (.of_eq (Scope.origin?_refine m.scope _ _))
  · exact .pure (fun _ hm => ⟨⟨rfl, hvalue⟩, hm⟩)

/-- **One machine may follow another that is in the same frame**, after something ran elsewhere that drew values down to
some depth. -/
structure Returns (m m' : Machine) (k : Nat) : Prop where
  frame : m'.frame = m.frame
  entry : m.usesEntry = true → m'.usesEntry = true
  grown : m.scope.Grown m.frame.reach m'.scope k

theorem inNested_returns {x : Eval Unit} (hx : Steady x) {m m' : Machine} {g : Frame} (h : inNested x m = .ok g m') :
    g.base = m.frame.reach ∧ Returns m m' (m.frame.reach + g.drawn) := by
  obtain ⟨m₁, hrun, rfl, rfl⟩ := inNested_ok.1 h
  have hfollows := hx _ _ _ hrun
  have hbase : m₁.frame.base = m.frame.reach := hfollows.base
  refine ⟨hbase, rfl, hfollows.entry, ?_⟩
  have hgrown : m.scope.Grown m.frame.reach m₁.scope (m₁.frame.base + m₁.frame.drawn) := hfollows.grown
  rw [hbase] at hgrown
  exact hgrown

theorem paramsTo_grown (base : Nat) : ∀ {depth n : Nat} {m m' : Machine} {es : List Expr},
    paramsTo base depth n m = .ok es m' →
      m'.frame = m.frame ∧ m'.usesEntry = m.usesEntry ∧ ∀ k, base + depth + n ≤ k → m.scope.Grown k m'.scope k
  | _, 0, m, m', es, h => by
    obtain ⟨-, rfl⟩ := pure_ok.1 h
    exact ⟨rfl, rfl, fun k _ => .refl _ k⟩
  | depth, n + 1, m, m', es, h => by
    unfold paramsTo at h
    obtain ⟨deeper, m₁, hdeeper, h⟩ := bind_ok.1 h
    obtain ⟨v, m₂, hv, h⟩ := bind_ok.1 h
    obtain ⟨-, rfl⟩ := pure_ok.1 h
    rw [param_apply] at hv
    obtain ⟨⟩ := hv
    obtain ⟨hframe, hentry, hgrown⟩ := paramsTo_grown base hdeeper
    refine ⟨hframe, hentry, fun k hk => ?_⟩
    exact (hgrown k (by omega)).trans (.param m₁.scope .generic (by omega))

theorem fullView_grown {g : Frame} {drawn : Nat} {m m' : Machine} {es : List Expr} (h : fullView g drawn m = .ok es m')
    (hdrawn : g.drawn ≤ drawn) :
    m'.frame = m.frame ∧ m'.usesEntry = m.usesEntry ∧ ∀ k, g.base + drawn ≤ k → m.scope.Grown k m'.scope k := by
  obtain ⟨ps, m₁, hps, h⟩ := bind_ok.1 h
  obtain ⟨-, rfl⟩ := pure_ok.1 h
  obtain ⟨hframe, hentry, hgrown⟩ := paramsTo_grown g.base hps
  exact ⟨hframe, hentry, fun k hk => hgrown k (by omega)⟩

theorem mergeSlot_steady (yes no : Expr) (below : Merged) : Steady (mergeSlot yes no below) := by
  unfold mergeSlot
  refine .ite .pure (.ite .throw ?_)
  refine .bind (steady_tyOf yes) (fun a => .bind (steady_tyOf no) (fun b => ?_))
  split
  · exact .throw
  · refine .bind (steady_check _ _ _) (fun _ => .bind (steady_check _ _ _) (fun _ => ?_))
    exact .bind (steady_newLocal _) (fun _ => .bind (steady_emit _) (fun _ => .pure))

theorem mergeSlots_steady : ∀ yes no : List Expr, Steady (mergeSlots yes no)
  | [], _ => .pure
  | _ :: _, [] => .pure
  | yes :: yeses, no :: nos => .bind (mergeSlots_steady yeses nos) (fun below => mergeSlot_steady yes no below)

/-- Merging draws nothing. -/
theorem mergeSlot_drawn {n : Nat} (yes no : Expr) (below : Merged) :
    Triple (·.frame.drawn = n) (mergeSlot yes no below) (fun _ m => m.frame.drawn = n) (fun _ => True) := by
  have hcheck : ∀ e t, Triple (·.frame.drawn = n) (check e t "if$") (fun _ m => m.frame.drawn = n) (fun _ => True) :=
    fun e t => .pointwise (fun m hm => by
      have hat : Triple (· = m) (check e t "if$") (fun a m' => (a = e ∧ e.isValue = true) ∧ At m.frame m.scope m') (fun _ => True) :=
        (check_at e t "if$").pre (fun m' h => by rw [h]; exact ⟨rfl, .refl _⟩)
      exact hat.post (fun a m' h => by rw [h.2.1]; exact hm))
  unfold mergeSlot
  refine .ite (fun _ => .pure (fun _ h => h)) (fun _ => .ite (fun _ => .throw (fun _ _ => trivial)) (fun _ => ?_))
  refine .bind (Q := fun _ m => m.frame.drawn = n) (fun _ h => h) (fun a => ?_)
  refine .bind (Q := fun _ m => m.frame.drawn = n) (fun _ h => h) (fun b => ?_)
  split
  · exact .throw (fun _ _ => trivial)
  · refine .bind (hcheck _ _) (fun _ => .bind (hcheck _ _) (fun _ => ?_))
    refine .bind (Q := fun _ m => m.frame.drawn = n) (fun _ h => h) (fun _ => ?_)
    exact .bind (Q := fun _ m => m.frame.drawn = n) (.modify (fun _ h => h)) (fun _ => .pure (fun _ h => h))

theorem mergeSlots_drawn {n : Nat} : ∀ yes no : List Expr,
    Triple (·.frame.drawn = n) (mergeSlots yes no) (fun _ m => m.frame.drawn = n) (fun _ => True)
  | [], _ => .pure (fun _ h => h)
  | _ :: _, [] => .pure (fun _ h => h)
  | yes :: yeses, no :: nos => .bind (mergeSlots_drawn yeses nos) (fun below => mergeSlot_drawn yes no below)

/-- **Both sides of a branch draw**, and the frame has drawn as much as the hungrier one. -/
theorem steady_runSides {run : Procedure → Eval Unit} (hrun : ∀ p, Steady (run p)) (yes no : Procedure) (e : Expr) :
    Steady (runSides run yes no e) := by
  intro m _ m' h
  obtain ⟨gy, m₁, hyes, h⟩ := bind_ok.1 h
  obtain ⟨gn, m₂, hno, h⟩ := bind_ok.1 h
  obtain ⟨yesView, m₃, hyesView, h⟩ := bind_ok.1 h
  obtain ⟨noView, m₄, hnoView, h⟩ := bind_ok.1 h
  split at h
  · obtain ⟨merged, m₅, hmerged, h⟩ := bind_ok.1 h
    obtain ⟨_, m₆, hemit, h⟩ := bind_ok.1 h
    obtain ⟨⟩ := hemit
    obtain ⟨⟩ := h
    obtain ⟨hybase, hy⟩ := inNested_returns (hrun yes) hyes
    obtain ⟨hnbase, hn⟩ := inNested_returns (hrun no) hno
    obtain ⟨hframe₃, hentry₃, hgrown₃⟩ := fullView_grown hyesView (Nat.le_max_left _ _)
    obtain ⟨hframe₄, hentry₄, hgrown₄⟩ := fullView_grown hnoView (Nat.le_max_right _ _)
    have hframe : m₄.frame = m.frame := by rw [hframe₄, hframe₃, hn.frame, hy.frame]
    have hmerge := mergeSlots_steady _ _ _ _ _ hmerged
    have hdrawn : m₅.frame.drawn = m₄.frame.drawn := (mergeSlots_drawn _ _).ok rfl hmerged
    have hreach : m₅.frame.reach = m₄.frame.reach := by
      rw [Frame.reach, Frame.reach, hmerge.base, hdrawn]
    have hsides : m.scope.Grown m.frame.reach m₂.scope (m.frame.reach + max gy.drawn gn.drawn) := by
      have hgn := hn.grown
      rw [hy.frame] at hgn
      rw [← Nat.add_max_add_left]
      exact hy.grown.join hgn
    have hviews : m₂.scope.Grown (m.frame.reach + max gy.drawn gn.drawn) m₄.scope (m.frame.reach + max gy.drawn gn.drawn) :=
      (hgrown₃ _ (by simp only [hybase, Nat.le_refl])).trans
        (hgrown₄ _ (by simp only [hnbase, hy.frame, Nat.le_refl]))
    have hmerging : m₄.scope.Grown (m.frame.reach + max gy.drawn gn.drawn) m₅.scope (m.frame.reach + max gy.drawn gn.drawn) := by
      have hgrown := hmerge.grown
      rw [hreach, hframe] at hgrown
      exact hgrown.deepen (Nat.le_add_right _ _)
    refine ⟨hmerge.base.trans (congrArg _ hframe), fun he => hmerge.entry ?_, ?_⟩
    · rw [hentry₄, hentry₃]
      exact hn.entry (hy.entry he)
    · have hend : m₅.frame.base + (m₅.frame.drawn + max gy.drawn gn.drawn) = m.frame.reach + max gy.drawn gn.drawn := by
        rw [← Nat.add_assoc]
        exact congrArg (· + _) (hreach.trans (congrArg Frame.reach hframe))
      show m.scope.Grown _ _ (m₅.frame.base + (m₅.frame.drawn + max gy.drawn gn.drawn))
      rw [hend]
      exact (hsides.trans hviews).trans hmerging
  · exact absurd h throw_ok

theorem steady_branch {run : Procedure → Eval Unit} (hrun : ∀ p, Steady (run p)) : Steady (branch run) := by
  unfold branch
  refine .bind (steady_popProcedure _) (fun no => .bind (steady_popProcedure _) (fun yes => ?_))
  exact .bind (steady_popTyped _ _) (fun e => steady_runSides hrun yes no e)

theorem steady_changedSlots : ∀ (vs : List VarId) (es : List Expr), Steady (changedSlots vs es)
  | [], _ => .pure
  | _ :: _, [] => .pure
  | v :: vs, e :: es => by
    unfold changedSlots
    refine .bind (steady_changedSlots vs es) (fun below => .ite .pure ?_)
    exact .bind (steady_tyOf _) (fun t => .bind (steady_check e t _) (fun _ => .pure))

/-- **The slots that a body changed** are values. -/
theorem changedSlots_at {f : Frame} {s : Scope} : ∀ (vs : List VarId) (es : List Expr),
    Triple (At f s) (changedSlots vs es)
      (fun changed m => (∀ q, q ∈ changed ↔ q ∈ vs.zip es ∧ q.2 ≠ .var q.1) ∧ (∀ q ∈ changed, q.2.isValue = true) ∧ At f s m)
      (fun _ => True)
  | [], _ => .pure (fun _ hm => ⟨fun q => by simp, nofun, hm⟩)
  | _ :: _, [] => .pure (fun _ hm => ⟨fun q => by simp, nofun, hm⟩)
  | v :: vs, e :: es => by
    unfold changedSlots
    refine .bind (changedSlots_at vs es) (fun below => .pointwise (fun m hm => ?_))
    obtain ⟨hbelow, hvalues, hat⟩ := hm
    refine .pre (P := At f s) ?_ (fun m' h => by rw [h]; exact hat)
    refine .ite (fun heq => .pure (fun _ h => ⟨fun q => ?_, hvalues, h⟩)) (fun hne => ?_)
    · rw [hbelow, List.zip_cons_cons, List.mem_cons]
      constructor
      · exact fun h => ⟨.inr h.1, h.2⟩
      · rintro ⟨rfl | hq, hne⟩
        · exact absurd heq hne
        · exact ⟨hq, hne⟩
    · refine .bind (Q := fun _ => At f s) (fun _ h => h) (fun t => .bind (check_at e t _) (fun a => .pure (fun m' h => ?_)))
      obtain ⟨⟨rfl, hvalue⟩, h⟩ := h
      refine ⟨fun q => ?_, fun q hq => ?_, h⟩
      · rw [List.mem_append, hbelow, List.mem_singleton, List.zip_cons_cons, List.mem_cons]
        constructor
        · rintro (hq | rfl)
          · exact ⟨.inr hq.1, hq.2⟩
          · exact ⟨.inl rfl, hne⟩
        · rintro ⟨hq | hq, hchanged⟩
          · exact .inr hq
          · exact .inl ⟨hq, hchanged⟩
      · rcases List.mem_append.1 hq with hq | hq
        · exact hvalues q hq
        · rw [List.mem_singleton.1 hq]
          exact hvalue

theorem steady_temporaries : ∀ changed : List (VarId × Expr), Steady (temporaries changed)
  | [] => .pure
  | (v, e) :: rest => by
    unfold temporaries
    refine .bind (steady_tyOf e) (fun t => .bind (steady_newLocal t) (fun v => ?_))
    exact .bind (steady_temporaries rest) (fun _ => .pure)

theorem steady_updates (changed : List (VarId × Expr)) : Steady (updates changed) := by
  unfold updates
  split
  · exact .pure
  · exact .bind (steady_temporaries _) (fun _ => .pure)

/-- A nested frame that drew nothing leaves a machine that may follow. -/
theorem Returns.follows {m m' : Machine} {g : Frame} (h : Returns m m' (m.frame.reach + g.drawn)) (hg : ¬ 0 < g.drawn) :
    m.Follows m' := by
  have hzero : g.drawn = 0 := Nat.eq_zero_of_not_pos hg
  refine ⟨congrArg _ h.frame, h.entry, ?_⟩
  have hgrown := h.grown
  rw [hzero, Nat.add_zero] at hgrown
  rw [h.frame]
  exact hgrown

theorem steady_loopTest {x : Eval Unit} (hx : Steady x) (start : List Expr) : Steady (loopTest x start) := by
  intro m r m' h
  rw [loopTest_eq] at h
  obtain ⟨g, m₁, hg, h⟩ := bind_ok.1 h
  split at h
  · exact absurd h throw_ok
  rename_i hdrawn
  refine ((inNested_returns hx hg).2.follows hdrawn).trans ?_
  cases hstack : g.stack with
  | nil =>
    rw [hstack] at h
    exact absurd h throw_ok
  | cons value rest =>
    rw [hstack] at h
    have htest : Steady (do
        let value ← check value .int "while$"
        if rest = start then return (g.code, value) else throw (.unsupported .conditionChangesStack)) :=
      .bind (steady_check _ _ _) (fun _ => .ite .pure .throw)
    exact Steady.ite htest .throw _ _ _ h

theorem steady_loopBody {x : Eval Unit} (hx : Steady x) (vs : List VarId) : Steady (loopBody x vs) := by
  intro m code m' h
  obtain ⟨g, m₁, hg, h⟩ := bind_ok.1 h
  split at h
  · exact absurd h throw_ok
  rename_i hdrawn
  refine ((inNested_returns hx hg).2.follows hdrawn).trans ?_
  split at h
  · obtain ⟨changed, m₂, hchanged, h⟩ := bind_ok.1 h
    obtain ⟨new, m₃, hnew, h⟩ := bind_ok.1 h
    obtain ⟨-, rfl⟩ := pure_ok.1 h
    exact (steady_changedSlots _ _ _ _ _ hchanged).trans (steady_updates _ _ _ _ hnew)
  · exact absurd h throw_ok

theorem temporaries_frame {f : Frame} : ∀ changed : List (VarId × Expr),
    Triple (·.frame = f) (temporaries changed) (fun _ m => m.frame = f) (fun _ => True)
  | [] => .pure (fun _ h => h)
  | (v, e) :: rest => by
    unfold temporaries
    refine .bind (Q := fun _ m => m.frame = f) (fun _ h => h) (fun t => ?_)
    refine .bind (Q := fun _ m => m.frame = f) (fun _ h => h) (fun u => ?_)
    exact .bind (temporaries_frame rest) (fun _ => .pure (fun _ h => h))

theorem updates_frame {f : Frame} (changed : List (VarId × Expr)) :
    Triple (·.frame = f) (updates changed) (fun _ m => m.frame = f) (fun _ => True) := by
  unfold updates
  split
  · exact .pure (fun _ h => h)
  · exact .bind (temporaries_frame _) (fun _ => .pure (fun _ h => h))

/-- Compiling the test of a loop leaves the frame around it alone. -/
theorem loopTest_frame {x : Eval Unit} (hx : Steady x) {start : List Expr} {m m' : Machine} {r : Block × Expr}
    (h : loopTest x start m = .ok r m') : m'.frame = m.frame := by
  rw [loopTest_eq] at h
  obtain ⟨g, m₁, hg, h⟩ := bind_ok.1 h
  rw [← (inNested_returns hx hg).2.frame]
  by_cases hdraws : 0 < g.drawn
  · rw [if_pos hdraws] at h
    exact absurd h throw_ok
  rw [if_neg hdraws] at h
  cases hstack : g.stack with
  | nil =>
    rw [hstack] at h
    exact absurd h throw_ok
  | cons top rest =>
    rw [hstack] at h
    dsimp only at h
    split at h
    · obtain ⟨value, m₂, hvalue, h⟩ := bind_ok.1 h
      obtain ⟨-, hat⟩ := (check_at _ _ _).ok ⟨rfl, .refl _⟩ hvalue
      split at h
      · obtain ⟨-, rfl⟩ := pure_ok.1 h
        exact hat.1
      · exact absurd h throw_ok
    · exact absurd h throw_ok

theorem loopBody_frame {x : Eval Unit} (hx : Steady x) {vs : List VarId} {m m' : Machine} {code : Block}
    (h : loopBody x vs m = .ok code m') : m'.frame = m.frame := by
  obtain ⟨g, m₁, hg, h⟩ := bind_ok.1 h
  rw [← (inNested_returns hx hg).2.frame]
  split at h
  · exact absurd h throw_ok
  split at h
  · obtain ⟨changed, m₂, hchanged, h⟩ := bind_ok.1 h
    obtain ⟨new, m₃, hnew, h⟩ := bind_ok.1 h
    obtain ⟨-, rfl⟩ := pure_ok.1 h
    obtain ⟨-, -, hat⟩ := (changedSlots_at vs g.stack).ok ⟨rfl, .refl _⟩ hchanged
    rw [(updates_frame changed).ok rfl hnew]
    exact hat.1
  · exact absurd h throw_ok

theorem steady_loop {run : Procedure → Eval Unit} (hrun : ∀ p, Steady (run p)) : Steady (loop run) := by
  unfold loop
  refine .bind (steady_popProcedure _) (fun body => .bind (steady_popProcedure _) (fun condition => ?_))
  refine .bind (steady_spillAll _) (fun vs => .bind (steady_loopTest (hrun condition) _) (fun r => ?_))
  exact .bind (steady_loopBody (hrun body) vs) (fun _ => steady_emit _)

/-! ## Whole bodies -/

theorem steady_callMethod (p : String) (ts : List Ty) (m : String) (t : Ty) : Steady (callMethod p ts m t) :=
  .bind (steady_popArgs p ts) (fun _ => steady_push _)

theorem steady_callHelper (p : String) (ts : List Ty) (h : Helper) (t : Ty) : Steady (callHelper p ts h t) :=
  .bind (steady_link h) (fun _ => steady_callMethod _ _ _ _)

theorem steady_callWriter (p : String) (ts : List Ty) (m : String) : Steady (callWriter p ts m) :=
  .bind (steady_popArgs p ts) (fun _ => steady_emit _)

theorem steady_operands {t : Ty} {p : String} {make : Expr → Expr → Expr} : Steady (do
    let right ← popTyped t p
    let left ← popTyped t p
    push (make left right)) :=
  .bind (steady_popTyped t p) (fun _ => .bind (steady_popTyped t p) (fun _ => steady_push _))

theorem steady_equal : Steady equal := by
  unfold equal
  refine .bind (steady_popTyped _ _) (fun right => .bind (steady_tyOf _) (fun t => .bind (steady_popTyped t _) (fun left => ?_)))
  exact .bind (steady_tyOf _) (fun t => .bind (steady_check _ _ _) (fun _ => steady_push _))

theorem steady_storeTop (target : Target) (t : Ty) : Steady (storeTop target t) :=
  .bind (steady_popTyped _ _) (fun _ => .bind (steady_spillWhere _) (fun _ => steady_emit _))

theorem steady_assign (dict : Dictionary) : Steady (assign dict) := by
  unfold assign
  refine .bind (steady_popAs _) (fun e => ?_)
  split
  · split
    · exact .throw
    · dsimp only
      split
      · exact .bind steady_touchEntry (fun _ => steady_storeTop _ _)
      · exact steady_storeTop _ _
  · exact steady_mismatch _ _ _

theorem steady_missing : Steady missing := by
  unfold missing
  refine .bind (steady_popAs _) (fun e => .bind (steady_check e _ _) (fun e => ?_))
  split
  · exact .bind steady_touchEntry (fun _ => steady_push _)
  · refine .bind .get (fun m => .ite ?_ (steady_push _))
    exact .bind (steady_link _) (fun _ => steady_push _)

theorem steady_callType : Steady callType :=
  .bind (steady_link _) (fun _ => .bind (steady_spillWhere _) (fun _ => .bind steady_touchEntry (fun _ => steady_emit _)))

theorem steady_duplicate : Steady duplicate :=
  .bind (steady_popAs _) (fun _ => .bind (steady_push _) (fun _ => steady_push _))

theorem steady_swap : Steady swap :=
  .bind (steady_popAs _) (fun _ => .bind (steady_popAs _) (fun _ => .bind (steady_push _) (fun _ => steady_push _)))

theorem steady_invoke (s : Signature) (args : List Expr) : Steady (invoke s args) := by
  refine .bind (steady_spillWhere _) (fun _ => .ite (steady_emit _) ?_)
  exact .bind (steady_newLocal _) (fun v => .bind (steady_emit _) (fun _ => steady_push _))

theorem steady_callRoutine (n : String) (s : Signature) : Steady (callRoutine n s) := by
  rw [callRoutine_eq]
  refine .bind (steady_popArgs _ _) (fun args => .ite ?_ (steady_invoke s args))
  exact .bind steady_touchEntry (fun _ => steady_invoke s _)

section Runs

variable {run : Procedure → Eval Unit} (hrun : ∀ p, Steady (run p))

include hrun

theorem steady_primitive (dict : Dictionary) (p : Primitive) : Steady (primitive dict run p) := by
  cases p with
  | branch => exact steady_branch hrun
  | loop => exact steady_loop hrun
  | add | sub | concat | lt | gt => exact steady_operands
  | eq => exact steady_equal
  | assign => exact steady_assign dict
  | callType => exact steady_callType
  | missing => exact steady_missing
  | clear => exact steady_clear
  | duplicate => exact steady_duplicate
  | swap => exact steady_swap
  | skip => exact .pure
  | quote | preamble => exact steady_push _
  | cite | entryType => exact .bind steady_touchEntry (fun _ => steady_push _)
  | pop | top => exact .bind (steady_popAs _) (fun _ => .pure)
  | newline | warning | write => exact steady_callWriter _ _ _
  | changeCase | intToStr | purify | width => exact steady_callMethod _ _ _ _
  | addPeriod | chrToInt | empty | formatName | intToChr | numNames | substring | textLength | textPrefix =>
    exact steady_callHelper _ _ _ _

theorem steady_name (dict : Dictionary) (n : String) : Steady (name dict run n) := by
  unfold name
  split
  · exact .throw
  · exact steady_primitive hrun dict _
  · exact steady_callRoutine _ _
  · exact .bind steady_touchEntry (fun _ => steady_push _)
  · exact steady_push _
  · exact steady_push _
  · exact .bind steady_touchEntry (fun _ => steady_push _)
  · exact .bind steady_touchEntry (fun _ => steady_push _)
  · exact steady_push _

theorem steady_term (dict : Dictionary) (t : Term) : Steady (term dict run t) := by
  unfold term
  refine .bind (.modify (fun _ => ⟨rfl, id, .refl _ _⟩)) (fun _ => ?_)
  cases t with
  | integer | string | quoted | block => exact steady_push _
  | name n => exact steady_name hrun dict n
  | field | entryInteger | entryString => exact .throw

theorem steady_terms (dict : Dictionary) : ∀ ts : List Term, Steady (terms dict run ts)
  | [] => .pure
  | t :: ts => .bind (steady_term hrun dict t) (fun _ => steady_terms dict ts)

end Runs

/-- **Whatever a style runs, it only draws.** -/
theorem steady_procedure (dict : Dictionary) : ∀ (depth : Nat) (p : Procedure), Steady (procedure dict depth p)
  | 0, _ => .throw
  | depth + 1, .group g => steady_terms (steady_procedure dict depth) dict g.terms
  | depth + 1, .named n => steady_name (steady_procedure dict depth) dict n

end Eval
end Bibstyle
