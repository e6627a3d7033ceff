import Bibstyle.Proofs.Conduct
import Bibstyle.Proofs.Lookups
import Bibstyle.Proofs.Reduction
/-!
# Footprint — the variables that a run can touch

A run sets no variable but those that its code declares or assigns to, and it runs alike on two states that agree on the
variables of its code.  A symbolic run only adds to the code of its frame, and what it adds sets only variables that are
new: so the code of a procedure cannot change a variable that was there when the procedure was entered.  Whatever can be
said of code statement by statement is said of what a run adds in the same way, once for all.
-/
namespace Bibstyle

/-! ## What code sets -/

/-- The variable that an act sets, if it sets one. -/
def Act.sets : Act → List VarId
  | .eval _ | .test _ => []
  | .declare v _ => [v]
  | .assign t _ => t.vars

/-- The acts of what can be run. -/
def Job.acts : Job → List Act
  | .stmt t => (Stmt.acts false t).map (·.2)
  | .block b | .entries _ b => (Stmt.actsAll false b).map (·.2)

/-- **The variables that code sets**, at any depth. -/
def Block.sets (b : Block) : List VarId :=
  (Job.block b).acts.flatMap Act.sets

namespace Job

theorem acts_branch (c : Expr) (yes no : Block) :
    (stmt (.branch c yes no)).acts = .test c :: ((block yes).acts ++ (block no).acts) := by
  simp [acts, Stmt.acts]

theorem acts_loop (setup : Block) (c : Expr) (body : Block) :
    (stmt (.loop setup c body)).acts = .test c :: ((block setup).acts ++ (block body).acts) := by
  simp [acts, Stmt.acts]

theorem acts_each (reverse : Bool) (es : List Entry) (b : Block) : (stmt (.each reverse b)).acts = (entries es b).acts := by
  simp [acts, Stmt.acts, Stmt.actsAll_true]

theorem acts_cons (t : Stmt) (b : Block) : (block (t :: b)).acts = (stmt t).acts ++ (block b).acts := by
  simp [acts, Stmt.actsAll]

theorem acts_append (b b' : Block) : (block (b ++ b')).acts = (block b).acts ++ (block b').acts := by
  simp [acts, Stmt.actsAll_append]

end Job

theorem Block.mem_vars {b : Block} {x : VarId} : x ∈ Block.vars b ↔ ∃ a ∈ (Job.block b).acts, x ∈ a.vars := by
  rw [Block.vars, ← List.flatMap_map, List.mem_flatMap]
  rfl

theorem Block.sets_append (b b' : Block) : Block.sets (b ++ b') = Block.sets b ++ Block.sets b' := by
  rw [sets, Job.acts_append, List.flatMap_append]
  rfl

/-! ## Runs -/

section Runs

variable {rt : Runtime} {ent : Option Entry}

theorem Locals.set_ne {ρ : Locals} {x y : VarId} {v : Option Value} (h : y ≠ x) : ρ.set x v y = ρ y :=
  if_neg h

theorem Locals.set_self (ρ : Locals) (x : VarId) (v : Option Value) : ρ.set x v x = v :=
  if_pos rfl

theorem Store.locals_of_assign? {s s' : Store} {v : Value} {t : Target} {x : VarId} (h : s.assign? ent v t = some s')
    (hx : x ∉ t.vars) : s'.locals x = s.locals x := by
  cases t with
  | var y =>
    cases h
    exact Locals.set_ne (fun heq => hx (by rw [heq]; exact List.mem_singleton_self y))
  | global n =>
    cases h
    rfl
  | entryVar n =>
    obtain ⟨e, -, rfl⟩ := Option.map_eq_some_iff.1 h
    rfl

/-- **A run changes only variables that its code sets.** -/
theorem Runs.keeps {x : VarId} {j : Job} {s s' : Store} (h : Runs rt j ent s s') :
    (∀ a ∈ j.acts, x ∉ a.sets) → s'.locals x = s.locals x := by
  induction h with
  | eval | comment | nil | noEntry => exact fun _ => rfl
  | declare | init =>
    intro hx
    exact Locals.set_ne (fun heq => hx _ List.mem_cons_self (by rw [heq]; exact List.mem_cons_self))
  | assign _ ht =>
    intro hx
    have hlocals := Store.locals_of_assign? ht (hx _ List.mem_cons_self)
    exact hlocals
  | yes _ _ _ ih =>
    intro hx
    rw [Job.acts_branch, List.forall_mem_cons, List.forall_mem_append] at hx
    exact ih hx.2.1
  | no _ _ _ ih =>
    intro hx
    rw [Job.acts_branch, List.forall_mem_cons, List.forall_mem_append] at hx
    exact ih hx.2.2
  | done _ _ _ ih =>
    intro hx
    rw [Job.acts_loop, List.forall_mem_cons, List.forall_mem_append] at hx
    exact ih hx.2.1
  | again _ _ _ _ _ ihsetup ihbody ihloop =>
    intro hx
    have hparts := hx
    rw [Job.acts_loop, List.forall_mem_cons, List.forall_mem_append] at hparts
    rw [ihloop hx, ihbody hparts.2.2, ← ihsetup hparts.2.1]
  | each _ ih =>
    intro hx
    rw [Job.acts_each] at hx
    exact ih hx
  | cons _ _ ih ihs =>
    intro hx
    rw [Job.acts_cons, List.forall_mem_append] at hx
    rw [ihs hx.2, ih hx.1]
  | nextEntry _ _ ih ihs =>
    intro hx
    rw [ihs hx, ih hx]

theorem Runs.block_keeps {x : VarId} {b : Block} {s s' : Store} (h : Runs rt (.block b) ent s s') (hx : x ∉ Block.sets b) :
    s'.locals x = s.locals x :=
  h.keeps (fun a ha hs => hx (List.mem_flatMap.2 ⟨a, ha, hs⟩))

/-- **A run depends only on the variables of its code.** -/
theorem Runs.agree {dead : VarId → Bool} {j : Job} {s s' : Store} (h : Runs rt j ent s s') :
    (∀ a ∈ j.acts, ∀ x ∈ a.vars, dead x = false) → ∀ t, s.Agree dead t → ∃ t', Runs rt j ent t t' ∧ s'.Agree dead t' := by
  induction h with
  | eval h =>
    intro hlive t hst
    exact ⟨_, .eval (hst.gives (hlive _ List.mem_cons_self) h), hst.withWorld⟩
  | declare =>
    intro _ t hst
    exact ⟨_, .declare, by rw [hst.world]; exact hst.set⟩
  | init h =>
    intro hlive t hst
    have hinit := (List.forall_mem_cons.1 (hlive _ List.mem_cons_self)).2
    exact ⟨_, .init (hst.gives hinit h), hst.set⟩
  | @assign _ _ _ _ _ _ w h ht =>
    intro hlive t hst
    have hvalue := (List.forall_mem_append.1 (hlive _ List.mem_cons_self)).2
    obtain ⟨t', ht', hagree⟩ := (hst.withWorld (w := w)).assign? ht
    exact ⟨t', .assign (hst.gives hvalue h) ht', hagree⟩
  | yes h hn _ ih =>
    intro hlive t hst
    rw [Job.acts_branch, List.forall_mem_cons, List.forall_mem_append] at hlive
    obtain ⟨t', ht', hagree⟩ := ih hlive.2.1 _ hst.withWorld
    exact ⟨t', .yes (hst.gives hlive.1 h) hn ht', hagree⟩
  | no h hn _ ih =>
    intro hlive t hst
    rw [Job.acts_branch, List.forall_mem_cons, List.forall_mem_append] at hlive
    obtain ⟨t', ht', hagree⟩ := ih hlive.2.2 _ hst.withWorld
    exact ⟨t', .no (hst.gives hlive.1 h) hn ht', hagree⟩
  | done _ h hn ih =>
    intro hlive t hst
    rw [Job.acts_loop, List.forall_mem_cons, List.forall_mem_append] at hlive
    obtain ⟨t₁, ht₁, hagree⟩ := ih hlive.2.1 t hst
    exact ⟨_, .done ht₁ (hagree.gives hlive.1 h) hn, hagree.withWorld⟩
  | again _ h hn _ _ ihsetup ihbody ihloop =>
    intro hlive t hst
    have hparts := hlive
    rw [Job.acts_loop, List.forall_mem_cons, List.forall_mem_append] at hparts
    obtain ⟨t₁, ht₁, hagree₁⟩ := ihsetup hparts.2.1 t hst
    obtain ⟨t₂, ht₂, hagree₂⟩ := ihbody hparts.2.2 _ hagree₁.withWorld
    obtain ⟨t', ht', hagree⟩ := ihloop hlive t₂ hagree₂
    exact ⟨t', .again ht₁ (hagree₁.gives hparts.1 h) hn ht₂ ht', hagree⟩
  | each _ ih =>
    intro hlive t hst
    rw [Job.acts_each] at hlive
    obtain ⟨t', ht', hagree⟩ := ih hlive t hst
    rw [← hst.world] at ht'
    exact ⟨t', .each ht', hagree⟩
  | comment => exact fun _ t hst => ⟨t, .comment, hst⟩
  | nil => exact fun _ t hst => ⟨t, .nil, hst⟩
  | cons _ _ ih ihs =>
    intro hlive t hst
    rw [Job.acts_cons, List.forall_mem_append] at hlive
    obtain ⟨t₁, ht₁, hagree₁⟩ := ih hlive.1 t hst
    obtain ⟨t', ht', hagree⟩ := ihs hlive.2 t₁ hagree₁
    exact ⟨t', .cons ht₁ ht', hagree⟩
  | noEntry => exact fun _ t hst => ⟨t, .noEntry, hst⟩
  | nextEntry _ _ ih ihs =>
    intro hlive t hst
    obtain ⟨t₁, ht₁, hagree₁⟩ := ih hlive t hst
    obtain ⟨t', ht', hagree⟩ := ihs hlive t₁ hagree₁
    exact ⟨t', .nextEntry ht₁ ht', hagree⟩

theorem Runs.block_agree {dead : VarId → Bool} {b : Block} {s s' t : Store} (h : Runs rt (.block b) ent s s')
    (hlive : ∀ x ∈ Block.vars b, dead x = false) (hst : s.Agree dead t) :
    ∃ t', Runs rt (.block b) ent t t' ∧ s'.Agree dead t' :=
  h.agree (fun a ha x hx => hlive x (Block.mem_vars.2 ⟨a, ha, hx⟩)) t hst

/-- A run of one block after another is a run of each. -/
theorem Runs.of_append {a b : Block} {s s' : Store} (h : Runs rt (.block (a ++ b)) ent s s') :
    ∃ s₁, Runs rt (.block a) ent s s₁ ∧ Runs rt (.block b) ent s₁ s' := by
  induction a generalizing s with
  | nil => exact ⟨s, .nil, h⟩
  | cons t ts ih =>
    cases h with
    | cons h hs =>
      obtain ⟨s₁, ha, hb⟩ := ih hs
      exact ⟨s₁, .cons h ha, hb⟩

theorem Runs.of_single {t : Stmt} {s s' : Store} (h : Runs rt (.block [t]) ent s s') : Runs rt (.stmt t) ent s s' := by
  cases h with
  | cons h hs =>
    cases hs
    exact h

end Runs

/-! ## Symbolic runs -/

theorem Scope.Grows.size_le {s s' : Scope} (h : s.Grows s') : s.vars.size ≤ s'.vars.size := by
  refine Nat.le_of_not_lt (fun hlt => ?_)
  have hnone : s.origin? s'.vars.size = none := h.eq_none s'.origin?_size
  rw [Scope.origin?, Scope.get?, Array.getElem?_eq_getElem hlt] at hnone
  cases hnone

/-- **Code that keeps the first `n` variables.** -/
def Block.Spares (n : Nat) (b : Block) : Prop :=
  ∀ x ∈ Block.sets b, n ≤ x

namespace Block.Spares

variable {n : Nat} {a b : Block}

theorem nil : Spares n [] :=
  List.forall_mem_nil _

theorem append (ha : Spares n a) (hb : Spares n b) : Spares n (a ++ b) := by
  rw [Spares, sets_append]
  exact List.forall_mem_append.2 ⟨ha, hb⟩

theorem declare {x : VarId} (init : Option Expr) (h : n ≤ x) : Spares n [.declare x init] :=
  List.forall_mem_singleton.2 h

theorem assign {t : Target} (e : Expr) (h : ∀ x ∈ t.vars, n ≤ x) : Spares n [.assign t e] := by
  unfold Spares sets
  rw [show (Job.block [.assign t e]).acts = [.assign t e] from rfl, List.flatMap_singleton]
  exact h

theorem eval (e : Expr) : Spares n [.eval e] :=
  List.forall_mem_nil _

theorem sets_test (c : Expr) : sets [.branch c a b] = sets a ++ sets b := by
  rw [sets, Job.acts_cons, Job.acts_branch]
  simp [sets, Job.acts, Stmt.actsAll, Act.sets]

theorem branch (c : Expr) (ha : Spares n a) (hb : Spares n b) : Spares n [.branch c a b] := by
  rw [Spares, sets_test]
  exact List.forall_mem_append.2 ⟨ha, hb⟩

theorem loop (c : Expr) (ha : Spares n a) (hb : Spares n b) : Spares n [.loop a c b] := by
  -- a loop and a branch have the same acts
  rw [Spares, show sets [.loop a c b] = sets [.branch c a b] from rfl, sets_test]
  exact List.forall_mem_append.2 ⟨ha, hb⟩

end Block.Spares

/-- **A kind of code** that a symbolic run can add to: whatever it puts together of code of the kind is of the kind, as long
as it sets none of the first `n` variables. -/
structure Block.Kind (n : Nat) where
  Is : Block → Prop
  nil : Is []
  append {a b : Block} : Is a → Is b → Is (a ++ b)
  eval (e : Expr) : Is [.eval e]
  declare {x : VarId} (init : Option Expr) : n ≤ x → Is [.declare x init]
  assign {t : Target} (e : Expr) : (∀ x ∈ t.vars, n ≤ x) → Is [.assign t e]
  branch {a b : Block} (c : Expr) : Is a → Is b → Is [.branch c a b]
  loop {a b : Block} (c : Expr) : Is a → Is b → Is [.loop a c b]

/-- The code that keeps the first `n` variables. -/
def Block.sparing (n : Nat) : Block.Kind n where
  Is := Block.Spares n
  nil := .nil
  append := .append
  eval := .eval
  declare := .declare
  assign := .assign
  branch := .branch
  loop := .loop

/-- A machine with at least `n` variables, whose frame has added code of a kind to some code. -/
structure Machine.Beyond {n : Nat} (K : Block.Kind n) (code : Block) (m : Machine) : Prop where
  size : n ≤ m.scope.vars.size
  added : ∃ new, m.frame.code = code ++ new ∧ K.Is new

theorem Machine.Beyond.step {n : Nat} {K : Block.Kind n} {code : Block} {m m' : Machine} (h : m.Beyond K code)
    (hsize : m.scope.vars.size ≤ m'.scope.vars.size)
    (hcode : ∃ new, m'.frame.code = m.frame.code ++ new ∧ K.Is new) : m'.Beyond K code := by
  obtain ⟨old, hold, hkind⟩ := h.added
  obtain ⟨new, hnew, hkind'⟩ := hcode
  exact ⟨Nat.le_trans h.size hsize, old ++ new, by rw [hnew, hold, List.append_assoc], K.append hkind hkind'⟩

namespace Eval

variable {α β : Type} {n : Nat} {K : Block.Kind n}

/-- **A run that adds code of a kind**, and no other. -/
def Adds (K : Block.Kind n) (x : Eval α) (Q : α → Prop) : Prop :=
  ∀ code, Triple (·.Beyond K code) x (fun a m => Q a ∧ m.Beyond K code) (fun _ => True)

section Rules

variable {P : α → Prop} {Q : β → Prop}

theorem Adds.bind {x : Eval α} {f : α → Eval β} (hx : Adds K x P) (hf : ∀ a, P a → Adds K (f a) Q) :
    Adds K (x >>= f) Q :=
  fun code => .bind (hx code) (fun a m h => hf a h.1 code m h.2)

theorem Adds.pure {b : β} (h : Q b) : Adds K (pure b) Q :=
  fun _ => .pure (fun _ hm => ⟨h, hm⟩)

theorem Adds.throw {e : AnalysisFault} : Adds K (throw e : Eval β) Q :=
  fun _ => .throw (fun _ _ => trivial)

theorem Adds.ite {p : Prop} [Decidable p] {x y : Eval β} (hx : Adds K x Q) (hy : Adds K y Q) :
    Adds K (if p then x else y) Q := by
  split
  · exact hx
  · exact hy

theorem Adds.get : Adds K get (fun _ => True) :=
  fun _ _ hm => ⟨trivial, hm⟩

/-- A change that leaves the code alone. -/
theorem Adds.modify {f : Machine → Machine} (hcode : ∀ m, (f m).frame.code = m.frame.code)
    (hsize : ∀ m, m.scope.vars.size ≤ (f m).scope.vars.size) : Adds K (modify f) (fun _ => True) :=
  fun _ m hm => ⟨trivial, hm.step (hsize m) ⟨[], by rw [hcode, List.append_nil], K.nil⟩⟩

/-- A run that has ended. -/
theorem Adds.ok {x : Eval β} {m m' : Machine} {b : β} (h : Adds K x Q) (hn : n ≤ m.scope.vars.size)
    (hx : x m = .ok b m') : Q b ∧ m'.Beyond K m.frame.code :=
  (h m.frame.code).ok ⟨hn, [], (List.append_nil _).symm, K.nil⟩ hx

end Rules

/-! ## Single operations -/

theorem adds_param (depth : Nat) (t : Ty) : Adds K (param depth t) (fun _ => True) := by
  intro b m hm
  rw [param_apply]
  exact ⟨trivial, hm.step (m.scope.size_param depth t).1 ⟨[], (List.append_nil _).symm, K.nil⟩⟩

theorem adds_newLocal (t : Ty) : Adds K (newLocal t) (n ≤ ·) :=
  fun _ m hm => ⟨hm.size, hm.step (m.scope.size_newLocal t).1 ⟨[], (List.append_nil _).symm, K.nil⟩⟩

theorem adds_tyOf (e : Expr) : Adds K (tyOf e) (fun _ => True) :=
  .bind .get (fun _ _ => .pure trivial)

theorem adds_link (h : Helper) : Adds K (link h) (fun _ => True) :=
  .modify (fun m => by split <;> rfl) (fun m => by split <;> exact Nat.le_refl _)

theorem adds_touchEntry : Adds K touchEntry (fun _ => True) :=
  .modify (fun _ => rfl) (fun _ => Nat.le_refl _)

theorem adds_push (e : Expr) : Adds K (push e) (fun _ => True) :=
  .modify (fun _ => rfl) (fun _ => Nat.le_refl _)

theorem adds_setStack (es : List Expr) : Adds K (setStack es) (fun _ => True) :=
  .modify (fun _ => rfl) (fun _ => Nat.le_refl _)

theorem adds_clear : Adds K clear (fun _ => True) :=
  .modify (fun _ => rfl) (fun _ => Nat.le_refl _)

theorem adds_emit {t : Stmt} (h : K.Is [t]) : Adds K (emit t) (fun _ => True) :=
  fun _ _ hm => ⟨trivial, hm.step (Nat.le_refl _) ⟨[t], rfl, h⟩⟩

theorem adds_mismatch {Q : α → Prop} (p t : String) (e : Expr) : Adds K (mismatch p t e : Eval α) Q :=
  .bind .get (fun _ _ => .throw)

theorem adds_popAs (t : Ty) : Adds K (popAs t) (fun _ => True) := by
  intro code m hm
  cases hstack : m.frame.stack with
  | nil =>
    rw [popAs_nil hstack]
    exact ⟨trivial, hm.step (m.scope.size_param _ t).1 ⟨[], (List.append_nil _).symm, K.nil⟩⟩
  | cons e rest =>
    rw [popAs_cons hstack]
    exact ⟨trivial, hm.step (Nat.le_refl _) ⟨[], (List.append_nil _).symm, K.nil⟩⟩

theorem adds_check (e : Expr) (t : Ty) (p : String) : Adds K (check e t p) (fun _ => True) := by
  unfold check
  refine .bind (adds_tyOf e) (fun found _ => .ite (adds_mismatch _ _ _) ?_)
  split
  · refine .bind (.modify (fun _ => rfl) (fun m => ?_)) (fun _ _ => .pure trivial)
    exact Nat.le_of_eq (m.scope.size_refine _ t).symm
  · exact .pure trivial

theorem adds_popTyped (t : Ty) (p : String) : Adds K (popTyped t p) (fun _ => True) :=
  .bind (adds_popAs t) (fun e _ => adds_check e t p)

theorem adds_popProcedure (p : String) : Adds K (popProcedure p) (fun _ => True) := by
  unfold popProcedure
  refine .bind (adds_popAs _) (fun e _ => ?_)
  split
  · exact .pure trivial
  · exact .pure trivial
  · exact adds_mismatch _ _ _

theorem adds_popArgs (p : String) (ts : List Ty) : Adds K (popArgs p ts) (fun _ => True) := by
  induction ts with
  | nil => exact .pure trivial
  | cons t ts ih => exact .bind ih (fun _ _ => .bind (adds_popTyped t p) (fun _ _ => .pure trivial))

theorem adds_spillSlots (which : Expr → Bool) (es : List Expr) : Adds K (spillSlots which es) (fun _ => True) := by
  induction es with
  | nil => exact .pure trivial
  | cons e below ih =>
    unfold spillSlots
    refine .bind ih (fun slots _ => .ite ?_ (.pure trivial))
    refine .bind (adds_tyOf e) (fun t _ => .bind (adds_newLocal t) (fun v hv => ?_))
    exact .bind (adds_emit (K.declare _ hv)) (fun _ _ => .pure trivial)

theorem adds_spillWhere (changes : Expr → Bool) : Adds K (spillWhere changes) (fun _ => True) :=
  .bind .get (fun _ _ => .bind (adds_spillSlots _ _) (fun slots _ => adds_setStack slots))

/-! ## Branches and loops -/

/-- The code of a nested frame is all its own. -/
theorem adds_inNested {x : Eval Unit} (hx : Adds K x (fun _ => True)) :
    Adds K (inNested x) (fun g => K.Is g.code) := by
  intro code m hm
  have hstart : Machine.Beyond K [] { m with frame := m.frame.nested } := ⟨hm.size, [], rfl, K.nil⟩
  have hrun := hx [] _ hstart
  unfold inNested
  cases hxm : x { m with frame := m.frame.nested } with
  | error e after => trivial
  | ok _ after =>
    rw [hxm] at hrun
    obtain ⟨-, hsize, new, hnew, hkind⟩ := hrun
    rw [List.nil_append] at hnew
    rw [← hnew] at hkind
    exact ⟨hkind, hsize, hm.added⟩

theorem adds_paramsTo (base depth count : Nat) : Adds K (paramsTo base depth count) (fun _ => True) := by
  induction count generalizing depth with
  | zero => exact .pure trivial
  | succ count ih => exact .bind (ih _) (fun _ _ => .bind (adds_param _ _) (fun _ _ => .pure trivial))

theorem adds_fullView (g : Frame) (drawn : Nat) : Adds K (fullView g drawn) (fun _ => True) :=
  .bind (adds_paramsTo _ _ _) (fun _ _ => .pure trivial)

theorem adds_mergeSlot (yes no : Expr) {below : Merged} (h : K.Is below.yes ∧ K.Is below.no) :
    Adds K (mergeSlot yes no below) (fun g => K.Is g.yes ∧ K.Is g.no) := by
  unfold mergeSlot
  refine .ite (.pure h) (.ite .throw ?_)
  refine .bind (adds_tyOf _) (fun a _ => .bind (adds_tyOf _) (fun b _ => ?_))
  split
  · exact .throw
  · refine .bind (adds_check _ _ _) (fun _ _ => .bind (adds_check _ _ _) (fun _ _ => ?_))
    refine .bind (adds_newLocal _) (fun v hv => .bind (adds_emit (K.declare _ hv)) (fun _ _ => .pure ?_))
    have hassign : ∀ e, K.Is [.assign (.var v) e] := fun e => K.assign e (List.forall_mem_singleton.2 hv)
    exact ⟨K.append h.1 (hassign _), K.append h.2 (hassign _)⟩

theorem adds_mergeSlots (yes no : List Expr) :
    Adds K (mergeSlots yes no) (fun g => K.Is g.yes ∧ K.Is g.no) := by
  induction yes generalizing no with
  | nil => exact .pure ⟨K.nil, K.nil⟩
  | cons y yes ih =>
    cases no with
    | nil => exact .pure ⟨K.nil, K.nil⟩
    | cons o no => exact .bind (ih no) (fun below h => adds_mergeSlot y o h)

theorem adds_sides : Adds K sides (fun _ => True) :=
  .bind (adds_popProcedure _) (fun _ _ => .bind (adds_popProcedure _) (fun _ _ =>
    .bind (adds_popTyped _ _) (fun _ _ => .pure trivial)))

theorem adds_branch {run : Procedure → Eval Unit} (hrun : ∀ p, Adds K (run p) (fun _ => True)) :
    Adds K (branch run) (fun _ => True) := by
  rw [branch_eq]
  refine .bind adds_sides (fun (no, yes, condition) _ => ?_)
  refine .bind (adds_inNested (hrun yes)) (fun gy hy => .bind (adds_inNested (hrun no)) (fun gn hn => ?_))
  refine .bind (adds_fullView _ _) (fun _ _ => .bind (adds_fullView _ _) (fun _ _ => .ite ?_ .throw))
  refine .bind (adds_mergeSlots _ _) (fun merged hmerged => ?_)
  refine .bind (adds_emit (K.branch _ (K.append hy hmerged.1) (K.append hn hmerged.2))) (fun _ _ => ?_)
  exact .modify (fun _ => rfl) (fun _ => Nat.le_refl _)

theorem adds_changedSlots {vs : List VarId} (h : ∀ v ∈ vs, n ≤ v) (es : List Expr) :
    Adds K (changedSlots vs es) (fun changed => ∀ q ∈ changed, n ≤ q.1) := by
  induction vs generalizing es with
  | nil => exact .pure (List.forall_mem_nil _)
  | cons v vs ih =>
    rw [List.forall_mem_cons] at h
    cases es with
    | nil => exact .pure (List.forall_mem_nil _)
    | cons e es =>
      unfold changedSlots
      refine .bind (ih h.2 es) (fun below hbelow => .ite (.pure hbelow) ?_)
      refine .bind (adds_tyOf _) (fun t _ => .bind (adds_check _ _ _) (fun e _ => .pure ?_))
      exact List.forall_mem_append.2 ⟨hbelow, List.forall_mem_singleton.2 h.1⟩

theorem adds_temporaries {changed : List (VarId × Expr)} (h : ∀ q ∈ changed, n ≤ q.1) :
    Adds K (temporaries changed) (fun blocks => K.Is blocks.1 ∧ K.Is blocks.2) := by
  induction changed with
  | nil => exact .pure ⟨K.nil, K.nil⟩
  | cons q rest ih =>
    rw [List.forall_mem_cons] at h
    unfold temporaries
    refine .bind (adds_tyOf _) (fun t _ => .bind (adds_newLocal t) (fun u hu => ?_))
    refine .bind (ih h.2) (fun blocks hblocks => .pure ⟨?_, ?_⟩)
    · exact K.append (K.declare _ hu) hblocks.1
    · exact K.append (K.assign (t := .var q.1) _ (List.forall_mem_singleton.2 h.1)) hblocks.2

theorem adds_updates {changed : List (VarId × Expr)} (h : ∀ q ∈ changed, n ≤ q.1) :
    Adds K (updates changed) K.Is := by
  unfold updates
  split
  · exact .pure (K.assign _ (List.forall_mem_singleton.2 (h _ List.mem_cons_self)))
  · exact .bind (adds_temporaries h) (fun blocks hblocks => .pure (K.append hblocks.1 hblocks.2))

theorem adds_spillAll (p : String) : Adds K (spillAll p) (fun vars => ∀ v ∈ vars, n ≤ v) := by
  -- that the variables are new is known of the slots of a run that spills them all
  have hslots : ∀ es, Adds K (spillSlots (fun _ => true) es) (fun slots => ∀ e ∈ slots, ∀ v ∈ e.var?, n ≤ v) := by
    intro es
    induction es with
    | nil => exact .pure (List.forall_mem_nil _)
    | cons e below ih =>
      unfold spillSlots
      refine .bind ih (fun slots hslots => ?_)
      rw [if_pos rfl]
      refine .bind (adds_tyOf e) (fun t _ => .bind (adds_newLocal t) (fun v hv => ?_))
      refine .bind (adds_emit (K.declare _ hv)) (fun _ _ => .pure (List.forall_mem_cons.2 ⟨fun u hu => ?_, hslots⟩))
      cases hu
      exact hv
  refine .bind .get (fun m _ => .bind (hslots _) (fun slots h => .bind (adds_setStack _) (fun _ _ => .ite (.pure ?_) .throw)))
  intro v hv
  obtain ⟨e, he, hvar⟩ := List.mem_filterMap.1 hv
  exact h e he v hvar

theorem adds_loopStart : Adds K loopStart (fun r => ∀ v ∈ r.2.2, n ≤ v) :=
  .bind (adds_popProcedure _) (fun _ _ => .bind (adds_popProcedure _) (fun _ _ =>
    .bind (adds_spillAll _) (fun _ hvars => .pure hvars)))

theorem adds_loopTest {x : Eval Unit} (hx : Adds K x (fun _ => True)) (start : List Expr) :
    Adds K (loopTest x start) (fun r => K.Is r.1) := by
  rw [loopTest_eq]
  refine .bind (adds_inNested hx) (fun g hg => .ite .throw ?_)
  split
  · exact .throw
  · exact .ite (.bind (adds_check _ _ _) (fun _ _ => .ite (.pure hg) .throw)) .throw

theorem adds_loopBody {x : Eval Unit} (hx : Adds K x (fun _ => True)) {vars : List VarId} (hvars : ∀ v ∈ vars, n ≤ v) :
    Adds K (loopBody x vars) K.Is := by
  unfold loopBody
  refine .bind (adds_inNested hx) (fun g hg => .ite .throw (.ite ?_ .throw))
  refine .bind (adds_changedSlots hvars _) (fun changed hchanged => ?_)
  exact .bind (adds_updates hchanged) (fun code hcode => .pure (K.append hg hcode))

theorem adds_loop {run : Procedure → Eval Unit} (hrun : ∀ p, Adds K (run p) (fun _ => True)) :
    Adds K (loop run) (fun _ => True) := by
  rw [loop_eq]
  refine .bind adds_loopStart (fun (body, condition, vars) hvars => ?_)
  refine .bind (adds_loopTest (hrun condition) _) (fun (setup, value) hsetup => ?_)
  exact .bind (adds_loopBody (hrun body) hvars) (fun code hcode => adds_emit (K.loop _ hsetup hcode))

/-! ## Whole bodies -/

theorem adds_callMethod (p method : String) (ts : List Ty) (t : Ty) : Adds K (callMethod p ts method t) (fun _ => True) :=
  .bind (adds_popArgs p ts) (fun _ _ => adds_push _)

theorem adds_callHelper (p : String) (ts : List Ty) (h : Helper) (t : Ty) : Adds K (callHelper p ts h t) (fun _ => True) :=
  .bind (adds_link h) (fun _ _ => adds_callMethod p _ ts t)

theorem adds_callWriter (p method : String) (ts : List Ty) : Adds K (callWriter p ts method) (fun _ => True) :=
  .bind (adds_popArgs p ts) (fun _ _ => adds_emit (K.eval _))

theorem adds_operands (t : Ty) (p : String) (make : Expr → Expr → Expr) :
    Adds K (do
      let right ← popTyped t p
      let left ← popTyped t p
      push (make left right)) (fun _ => True) :=
  .bind (adds_popTyped t p) (fun _ _ => .bind (adds_popTyped t p) (fun _ _ => adds_push _))

theorem adds_equal : Adds K equal (fun _ => True) :=
  .bind (adds_popTyped _ _) (fun _ _ => .bind (adds_tyOf _) (fun _ _ => .bind (adds_popTyped _ _) (fun _ _ =>
    .bind (adds_tyOf _) (fun _ _ => .bind (adds_check _ _ _) (fun _ _ => adds_push _)))))

theorem adds_storeTop (t : Ty) {target : Target} (htarget : ∀ x ∈ target.vars, n ≤ x) :
    Adds K (storeTop target t) (fun _ => True) :=
  .bind (adds_popTyped t _) (fun value _ => .bind (adds_spillWhere _) (fun _ _ => adds_emit (K.assign value htarget)))

theorem adds_assign (d : Dictionary) : Adds K (assign d) (fun _ => True) := by
  unfold assign
  refine .bind (adds_popAs _) (fun e _ => ?_)
  split
  · rename_i name _
    split
    · exact .throw
    · rename_i target t hassign
      have htarget : ∀ x ∈ target.vars, n ≤ x := by
        cases target with
        | var v => exact absurd rfl (assignable_target hassign v)
        | global | entryVar => exact List.forall_mem_nil _
      dsimp only
      split
      · exact .bind adds_touchEntry (fun _ _ => adds_storeTop t htarget)
      · exact adds_storeTop t htarget
  · exact adds_mismatch _ _ _

theorem adds_missing : Adds K missing (fun _ => True) := by
  unfold missing
  refine .bind (adds_popAs _) (fun e _ => .bind (adds_check _ _ _) (fun e _ => ?_))
  split
  · exact .bind adds_touchEntry (fun _ _ => adds_push _)
  · exact .bind .get (fun _ _ => .ite (.bind (adds_link _) (fun _ _ => adds_push _)) (adds_push _))

theorem adds_callType : Adds K callType (fun _ => True) :=
  .bind (adds_link _) (fun _ _ => .bind (adds_spillWhere _) (fun _ _ => .bind adds_touchEntry (fun _ _ =>
    adds_emit (K.eval _))))

theorem adds_invoke (s : Signature) (args : List Expr) : Adds K (invoke s args) (fun _ => True) := by
  refine .bind (adds_spillWhere _) (fun _ _ => .ite (adds_emit (K.eval _)) ?_)
  exact .bind (adds_newLocal _) (fun v hv => .bind (adds_emit (K.declare _ hv)) (fun _ _ => adds_push _))

theorem adds_callRoutine (name : String) (s : Signature) : Adds K (callRoutine name s) (fun _ => True) := by
  rw [callRoutine_eq]
  refine .bind (adds_popArgs _ _) (fun args _ => .ite ?_ (adds_invoke s args))
  exact .bind adds_touchEntry (fun _ _ => adds_invoke s _)

section Bodies

variable {d : Dictionary} {run : Procedure → Eval Unit} (hrun : ∀ p, Adds K (run p) (fun _ => True))

include hrun

theorem adds_primitive (p : Primitive) : Adds K (primitive d run p) (fun _ => True) := by
  cases p with
  | branch => exact adds_branch hrun
  | loop => exact adds_loop hrun
  | add | sub | concat | lt | gt => exact adds_operands _ _ _
  | eq => exact adds_equal
  | assign => exact adds_assign d
  | callType => exact adds_callType
  | missing => exact adds_missing
  | clear => exact adds_clear
  | duplicate => exact .bind (adds_popAs _) (fun _ _ => .bind (adds_push _) (fun _ _ => adds_push _))
  | swap =>
    exact .bind (adds_popAs _) (fun _ _ => .bind (adds_popAs _) (fun _ _ =>
      .bind (adds_push _) (fun _ _ => adds_push _)))
  | skip => exact .pure trivial
  | quote | preamble => exact adds_push _
  | cite | entryType => exact .bind adds_touchEntry (fun _ _ => adds_push _)
  | pop | top => exact .bind (adds_popAs _) (fun _ _ => .pure trivial)
  | newline | warning | write => exact adds_callWriter _ _ _
  | changeCase | intToStr | purify | width => exact adds_callMethod _ _ _ _
  | addPeriod | chrToInt | empty | formatName | intToChr | numNames | substring | textLength | textPrefix =>
    exact adds_callHelper _ _ _ _

theorem adds_name (name : String) : Adds K (Eval.name d run name) (fun _ => True) := by
  unfold Eval.name
  split
  · exact .throw
  · exact adds_primitive hrun _
  · exact adds_callRoutine _ _
  · exact .bind adds_touchEntry (fun _ _ => adds_push _)
  · exact adds_push _
  · exact adds_push _
  · exact .bind adds_touchEntry (fun _ _ => adds_push _)
  · exact .bind adds_touchEntry (fun _ _ => adds_push _)
  · exact adds_push _

theorem adds_term (t : Term) : Adds K (term d run t) (fun _ => True) := by
  unfold term
  refine .bind (.modify (fun _ => rfl) (fun _ => Nat.le_refl _)) (fun _ _ => ?_)
  cases t with
  | integer | string | quoted | block => exact adds_push _
  | name name => exact adds_name hrun name
  | field | entryInteger | entryString => exact .throw

theorem adds_terms (ts : List Term) : Adds K (terms d run ts) (fun _ => True) := by
  induction ts with
  | nil => exact .pure trivial
  | cons t ts ih => exact .bind (adds_term hrun t) (fun _ _ => ih)

end Bodies

/-- **A procedure adds code of a kind**, however deeply procedures run each other. -/
theorem adds_procedure (d : Dictionary) (depth : Nat) (p : Procedure) : Adds K (procedure d depth p) (fun _ => True) := by
  induction depth generalizing p with
  | zero => exact .throw
  | succ depth ih =>
    cases p with
    | group g => exact adds_terms ih g.terms
    | named name => exact adds_name ih name

/-! ## Variables that a run does not set -/

/-- **A run that spares the first `n` variables**: whatever code it adds sets others. -/
abbrev Spares (n : Nat) (x : Eval α) (Q : α → Prop) : Prop :=
  Adds (Block.sparing n) x Q

theorem spares_inNested {x : Eval Unit} (hx : Spares n x (fun _ => True)) :
    Spares n (inNested x) (fun g => Block.Spares n g.code) :=
  adds_inNested hx

theorem spares_loopStart : Spares n loopStart (fun r => ∀ v ∈ r.2.2, n ≤ v) :=
  adds_loopStart

theorem spares_loopTest {x : Eval Unit} (hx : Spares n x (fun _ => True)) (start : List Expr) :
    Spares n (loopTest x start) (fun r => Block.Spares n r.1) :=
  adds_loopTest hx start

/-- **A procedure sets only variables that it made itself**, however deeply procedures run each other. -/
theorem spares_procedure (d : Dictionary) (depth : Nat) (p : Procedure) : Spares n (procedure d depth p) (fun _ => True) :=
  adds_procedure d depth p

end Eval
end Bibstyle
