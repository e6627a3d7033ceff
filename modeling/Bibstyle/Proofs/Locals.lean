import Bibstyle.Proofs.Drawing
import Bibstyle.Proofs.Placement
/-!
# Locals — the locals that a symbolic run makes

A symbolic run writes statements while it goes, and the values on its stack read variables.  Between two steps every such
variable is a parameter, is known where the frame begins, or was declared by the statements written so far, which leave it
with a value.  A nested frame begins where the frame around it stands.  What it declares is newer than anything the frame
around it knows, so it cannot be read outside: a slot that both sides of a branch leave alike reads only what was known
before, and every other slot goes through a local of the frame around.
-/
namespace Bibstyle

/-! ## Statements that leave variables with values -/

theorem safe_mono : ∀ (tr : List Touch) {held held' : VarId → Prop}, (∀ v, held v → held' v) → Safe held tr → Safe held' tr
  | [], _, _, _, _ => trivial
  | .opens _ :: tr, _, _, h, hs => safe_mono tr (fun v hv => ⟨hv.1, h v hv.2⟩) hs
  | .stores _ :: tr, _, _, h, hs => safe_mono tr (fun v hv => hv.imp_right (h v)) hs
  | .loads x :: tr, _, _, h, hs => ⟨h x hs.1, safe_mono tr h hs.2⟩

theorem marks_mono : ∀ (tr : List Touch) {held held' : VarId → Prop}, (∀ v, held v → held' v) →
    ∀ v, marks held tr v → marks held' tr v
  | [], _, _, h, v, hv => h v hv
  | .opens _ :: tr, _, _, h, v, hv => marks_mono tr (fun x hx => ⟨hx.1, h x hx.2⟩) v hv
  | .stores _ :: tr, _, _, h, v, hv => marks_mono tr (fun x hx => hx.imp_right (h x)) v hv
  | .loads _ :: tr, _, _, h, v, hv => marks_mono tr h v hv

theorem marks_of_not_opens {v : VarId} : ∀ (tr : List Touch) {held : VarId → Prop}, .opens v ∉ tr → held v → marks held tr v
  | [], _, _, hv => hv
  | .opens x :: tr, _, ho, hv => by
    rw [List.mem_cons, not_or] at ho
    exact marks_of_not_opens tr ho.2 ⟨fun heq => ho.1 (congrArg Touch.opens heq), hv⟩
  | .stores _ :: tr, _, ho, hv => marks_of_not_opens tr (fun h => ho (List.mem_cons_of_mem _ h)) (.inr hv)
  | .loads _ :: tr, _, ho, hv => marks_of_not_opens tr (fun h => ho (List.mem_cons_of_mem _ h)) hv

/-- The variables that what can be run declares. -/
def Job.declares : Job → List VarId
  | stmt t => t.declares
  | block b | entries _ b => Stmt.declaresAll b

theorem Expr.not_opens_mem_loads {e : Expr} {v : VarId} : Touch.opens v ∉ e.loads := by
  simp [loads]

/-- A trail opens only variables that are declared. -/
theorem Trail.opens_declared {j : Job} {tr : List Touch} (h : Trail j tr) : ∀ v, Touch.opens v ∈ tr → v ∈ j.declares := by
  induction h with
  | eval | global | entryVar => exact fun v hv => absurd hv Expr.not_opens_mem_loads
  | declare => intro v hv; simpa [Job.declares, Stmt.declares] using hv
  | init =>
    intro v hv
    simpa [Job.declares, Stmt.declares, Expr.not_opens_mem_loads] using hv
  | store =>
    intro v hv
    simp [Expr.not_opens_mem_loads] at hv
  | yes _ ih =>
    intro v hv
    exact List.mem_append_left _ (ih v ((List.mem_append.1 hv).resolve_left Expr.not_opens_mem_loads))
  | no _ ih =>
    intro v hv
    exact List.mem_append_right _ (ih v ((List.mem_append.1 hv).resolve_left Expr.not_opens_mem_loads))
  | done _ ih =>
    intro v hv
    exact List.mem_append_left _ (ih v ((List.mem_append.1 hv).resolve_right Expr.not_opens_mem_loads))
  | again _ _ _ ih₁ ih₂ ih₃ =>
    intro v hv
    simp only [List.mem_append, Expr.not_opens_mem_loads, or_false] at hv
    rcases hv with (hv | hv) | hv
    · exact List.mem_append_left _ (ih₁ v hv)
    · exact List.mem_append_right _ (ih₂ v hv)
    · exact ih₃ v hv
  | each _ ih => exact ih
  | comment | nil | noEntry => intro v hv; cases hv
  | cons _ _ ih₁ ih₂ =>
    intro v hv
    rcases List.mem_append.1 hv with hv | hv
    · exact List.mem_append_left _ (ih₁ v hv)
    · exact List.mem_append_right _ (ih₂ v hv)
  | nextEntry _ _ ih₁ ih₂ => exact fun v hv => (List.mem_append.1 hv).elim (ih₁ v) (ih₂ v)

/-- **Statements that load only what holds a value, and leave all of `after` with one**, if all of `before` has one. -/
def Delivers (before : VarId → Prop) (b : Block) (after : VarId → Prop) : Prop :=
  ∀ tr, Trail (.block b) tr → Safe before tr ∧ ∀ v, after v → marks before tr v

namespace Delivers

variable {P P' Q Q' R : VarId → Prop} {a b : Block} {x : VarId} {e c : Expr}

theorem mono (h : Delivers P b Q) (hP : ∀ v, P v → P' v) (hQ : ∀ v, Q' v → Q v) : Delivers P' b Q' := by
  intro tr htr
  obtain ⟨hs, hm⟩ := h tr htr
  exact ⟨safe_mono _ hP hs, fun v hv => marks_mono _ hP v (hm v (hQ v hv))⟩

theorem nil (h : ∀ v, Q v → P v) : Delivers P [] Q := by
  intro tr htr
  cases htr
  exact ⟨trivial, h⟩

theorem append (ha : Delivers P a Q) (hb : Delivers Q b R) : Delivers P (a ++ b) R := by
  intro tr htr
  obtain ⟨ta, tb, hta, htb, rfl⟩ := htr.split
  obtain ⟨hsa, hma⟩ := ha ta hta
  obtain ⟨hsb, hmb⟩ := hb tb htb
  rw [safe_append, marks_append]
  exact ⟨⟨hsa, safe_mono _ hma hsb⟩, fun v hv => marks_mono _ hma v (hmb v hv)⟩

/-- A statement that loads the variables of one expression and touches no local besides. -/
theorem quiet {t : Stmt} (ht : ∀ tr, Trail (.stmt t) tr → tr = e.loads) (he : ∀ v ∈ e.vars, P v) : Delivers P [t] P := by
  intro tr htr
  rw [ht tr (trail_single.1 htr), safe_loads, marks_loads]
  exact ⟨he, fun _ hv => hv⟩

theorem eval (he : ∀ v ∈ e.vars, P v) : Delivers P [.eval e] P :=
  quiet (fun tr htr => by cases htr; rfl) he

theorem assignGlobal {n : String} (he : ∀ v ∈ e.vars, P v) : Delivers P [.assign (.global n) e] P :=
  quiet (fun tr htr => by cases htr; rfl) he

theorem assignEntryVar {n : String} (he : ∀ v ∈ e.vars, P v) : Delivers P [.assign (.entryVar n) e] P :=
  quiet (fun tr htr => by cases htr; rfl) he

theorem declare : Delivers P [.declare x none] (fun v => v ≠ x ∧ P v) := by
  intro tr htr
  cases trail_single.1 htr
  exact ⟨trivial, fun _ hv => hv⟩

theorem init (he : ∀ v ∈ e.vars, P v) : Delivers P [.declare x (some e)] (fun v => v = x ∨ P v) := by
  intro tr htr
  cases trail_single.1 htr
  rw [safe_append, safe_loads, marks_append, marks_loads]
  refine ⟨⟨he, trivial⟩, fun v hv => ?_⟩
  by_cases hvx : v = x
  · exact .inl hvx
  · exact .inr ⟨hvx, hv.resolve_left hvx⟩

theorem store (he : ∀ v ∈ e.vars, P v) : Delivers P [.assign (.var x) e] (fun v => v = x ∨ P v) := by
  intro tr htr
  cases trail_single.1 htr
  rw [safe_append, safe_loads, marks_append, marks_loads]
  exact ⟨⟨he, trivial⟩, fun _ hv => hv⟩

theorem branch (hc : ∀ v ∈ c.vars, P v) (ha : Delivers P a Q) (hb : Delivers P b Q) : Delivers P [.branch c a b] Q := by
  intro tr htr
  cases trail_single.1 htr with
  | yes hside =>
    rw [safe_append, safe_loads, marks_append, marks_loads]
    exact ⟨⟨hc, (ha _ hside).1⟩, (ha _ hside).2⟩
  | no hside =>
    rw [safe_append, safe_loads, marks_append, marks_loads]
    exact ⟨⟨hc, (hb _ hside).1⟩, (hb _ hside).2⟩

/-- A loop whose body leaves what its setup needs may go around any number of times. -/
theorem loop (ha : Delivers P a Q) (hc : ∀ v ∈ c.vars, Q v) (hb : Delivers Q b P) : Delivers P [.loop a c b] Q := by
  have hloop : ∀ {j : Job} {tr : List Touch}, Trail j tr → j = .stmt (.loop a c b) →
      Safe P tr ∧ ∀ v, Q v → marks P tr v := by
    intro j tr htr
    induction htr with
    | done hs =>
      rintro ⟨⟩
      obtain ⟨hsa, hma⟩ := ha _ hs
      rw [safe_append, safe_loads, marks_append, marks_loads]
      exact ⟨⟨hsa, fun v hv => hma v (hc v hv)⟩, hma⟩
    | again hs hbody _ _ _ ih =>
      rintro ⟨⟩
      obtain ⟨hsa, hma⟩ := ha _ hs
      obtain ⟨hsb, hmb⟩ := hb _ hbody
      obtain ⟨hsr, hmr⟩ := ih rfl
      have hround : ∀ v, P v → marks (marks P _) _ v := fun v hv => marks_mono _ hma v (hmb v hv)
      rw [safe_append, safe_append, safe_append, safe_loads]
      simp only [marks_append, marks_loads]
      refine ⟨⟨⟨⟨hsa, fun v hv => hma v (hc v hv)⟩, safe_mono _ hma hsb⟩, safe_mono _ hround hsr⟩, fun v hv => ?_⟩
      exact marks_mono _ hround v (hmr v hv)
    | _ => rintro ⟨⟩
  exact fun tr htr => hloop (trail_single.1 htr) rfl

/-- What is not declared on the way keeps its value. -/
theorem frame (h : Delivers P b Q) : Delivers P b (fun v => Q v ∨ (P v ∧ v ∉ Stmt.declaresAll b)) := by
  intro tr htr
  obtain ⟨hs, hm⟩ := h tr htr
  refine ⟨hs, fun v hv => hv.elim (hm v) (fun hv => marks_of_not_opens tr (fun ho => hv.2 ?_) hv.1)⟩
  exact htr.opens_declared v ho

end Delivers

/-! ## Frames between two steps -/

/-- **Where a frame begins**: the scope there, and the variables that hold values there. -/
structure Setting where
  base : Scope
  known : VarId → Prop

namespace Frame

/-- The variables that hold a value where a frame stands; those still `pending` are declared but do not. -/
def Ready (c : Setting) (pending : List VarId) (f : Frame) (s : Scope) (v : VarId) : Prop :=
  c.known v ∨ s.IsParam v ∨ (v ∈ Stmt.introducesAll f.code ∧ v ∉ pending)

/-- **A frame whose variables are in order.**  Its statements are well placed, and declare new locals, each once; every
variable read by its stack or by a value in hands holds a value. -/
structure Settled (c : Setting) (pending : List VarId) (held : List Expr) (f : Frame) (s : Scope) : Prop where
  grows : c.base.Grows s
  known_old : ∀ v, c.known v → c.base.origin? v ≠ none
  placed : Stmt.PlacedAll (fun v => c.known v ∨ s.IsParam v) f.code
  delivers : Delivers (fun v => c.known v ∨ s.IsParam v) f.code (fun v => v ∈ Stmt.introducesAll f.code ∧ v ∉ pending)
  once : (Stmt.declaresAll f.code).Nodup
  fresh : ∀ v ∈ Stmt.declaresAll f.code, c.base.origin? v = none ∧ s.origin? v = some .local
  ready : ∀ v ∈ Expr.varsAll (held ++ f.stack), f.Ready c pending s v

/-- A local that nothing has declared yet. -/
def Free (c : Setting) (f : Frame) (s : Scope) (v : VarId) : Prop :=
  c.base.origin? v = none ∧ s.origin? v = some .local ∧ v ∉ Stmt.declaresAll f.code

namespace Settled

variable {c : Setting} {p p' : List VarId} {held held' : List Expr} {f : Frame} {s s' : Scope}

theorem ready_mono (hs : s.Grows s') {v : VarId} (h : f.Ready c p s v) : f.Ready c p s' v :=
  h.imp_right (Or.imp_left hs.isParam)

theorem grow (h : f.Settled c p held s) (hs : s.Grows s') : f.Settled c p held s' where
  grows := h.grows.trans hs
  known_old := h.known_old
  placed := Stmt.placedAll_mono (fun _ => Or.imp_right hs.isParam) _ h.placed
  delivers := h.delivers.mono (fun _ => Or.imp_right hs.isParam) (fun _ hv => hv)
  once := h.once
  fresh v hv := ⟨(h.fresh v hv).1, hs v _ (h.fresh v hv).2⟩
  ready v hv := ready_mono hs (h.ready v hv)

/-- The stack and what is in hands may be anything that reads only what holds a value. -/
theorem restack (h : f.Settled c p held s) {f' : Frame} (hcode : f'.code = f.code)
    (hready : ∀ v ∈ Expr.varsAll (held' ++ f'.stack), f.Ready c p s v) : f'.Settled c p held' s where
  grows := h.grows
  known_old := h.known_old
  placed := by rw [hcode]; exact h.placed
  delivers := by rw [hcode]; exact h.delivers
  once := by rw [hcode]; exact h.once
  fresh := by rw [hcode]; exact h.fresh
  ready := by unfold Ready; rw [hcode]; exact hready

/-- A declared variable is not known where the frame begins, nor is it a parameter. -/
theorem not_declared (h : f.Settled c p held s) {v : VarId} (hv : c.known v ∨ s.IsParam v) : v ∉ Stmt.declaresAll f.code := by
  intro hd
  obtain ⟨hnone, hlocal⟩ := h.fresh v hd
  rcases hv with hk | ⟨depth, hparam⟩
  · exact h.known_old v hk hnone
  · rw [hlocal] at hparam; cases hparam

theorem delivers_ready (h : f.Settled c p held s) :
    Delivers (fun v => c.known v ∨ s.IsParam v) f.code (f.Ready c p s) := by
  refine h.delivers.frame.mono (fun _ hv => hv) (fun v hv => ?_)
  rcases hv with hv | hv | hv
  · exact .inr ⟨.inl hv, h.not_declared (.inl hv)⟩
  · exact .inr ⟨.inr hv, h.not_declared (.inr hv)⟩
  · exact .inl hv

/-- Every variable that holds a value is in the scope. -/
theorem ready_old (h : f.Settled c p held s) {v : VarId} (hv : f.Ready c p s v) : s.origin? v ≠ none := by
  intro hnone
  rcases hv with hv | ⟨depth, hv⟩ | ⟨hv, -⟩
  · exact h.known_old v hv (h.grows.eq_none hnone)
  · rw [hnone] at hv; cases hv
  · rw [(h.fresh v (Stmt.introducesAll_subset _ hv)).2] at hnone; cases hnone

/-- **One more statement.** -/
theorem write (h : f.Settled c p held s) {t : Stmt}
    (hplaced : t.Placed (fun v => (c.known v ∨ s.IsParam v) ∨ v ∈ Stmt.introducesAll f.code))
    (hdelivers : Delivers (f.Ready c p s) [t] (fun v => v ∈ Stmt.introducesAll (f.code ++ [t]) ∧ v ∉ p'))
    (honce : t.declares.Nodup) (hfree : ∀ v ∈ t.declares, f.Free c s v)
    (hp : ∀ v ∈ Stmt.introducesAll f.code, v ∉ p → v ∉ p') :
    Settled c p' held { f with code := f.code ++ [t] } s where
  grows := h.grows
  known_old := h.known_old
  placed := Stmt.placedAll_append.2 ⟨h.placed, Stmt.placedAll_single.2 hplaced⟩
  delivers := h.delivers_ready.append hdelivers
  once := by
    rw [Stmt.declaresAll_append, List.nodup_append]
    refine ⟨h.once, by simpa [Stmt.declaresAll] using honce, ?_⟩
    rintro v hv _ ht rfl
    exact (hfree v (by simpa [Stmt.declaresAll] using ht)).2.2 hv
  fresh := by
    intro v hv
    rw [Stmt.declaresAll_append, List.mem_append] at hv
    rcases hv with hv | hv
    · exact h.fresh v hv
    · obtain ⟨hbase, hlocal, -⟩ := hfree v (by simpa [Stmt.declaresAll] using hv)
      exact ⟨hbase, hlocal⟩
  ready := by
    intro v hv
    refine (h.ready v hv).imp_right (Or.imp_right (fun hi => ⟨?_, hp v hi.1 hi.2⟩))
    rw [Stmt.introducesAll_append]
    exact List.mem_append_left _ hi.1

/-- What `write` asks of a statement that declares nothing. -/
theorem write_quiet (h : f.Settled c [] held s) {t : Stmt} (ht : t.introduces = []) (hd : t.declares = [])
    (hplaced : t.Placed (f.Ready c [] s)) (hdelivers : Delivers (f.Ready c [] s) [t] (f.Ready c [] s)) :
    Settled c [] held { f with code := f.code ++ [t] } s := by
  have hintro : Stmt.introducesAll (f.code ++ [t]) = Stmt.introducesAll f.code := by
    rw [Stmt.introducesAll_append, Stmt.introducesAll_cons, ht]
    exact List.append_nil _
  refine h.write (Stmt.placed_mono (fun v hv => ?_) t hplaced) ?_ (by rw [hd]; exact .nil) (by simp [hd]) (fun _ _ hv => hv)
  · rcases hv with hv | hv | hv
    · exact .inl (.inl hv)
    · exact .inl (.inr hv)
    · exact .inr hv.1
  · rw [hintro]
    exact hdelivers.mono (fun _ hv => hv) (fun v hv => .inr (.inr hv))

theorem vars_ready (h : f.Settled c p held s) {e : Expr} (he : e ∈ held) : ∀ v ∈ e.vars, f.Ready c p s v :=
  fun v hv => h.ready v (List.mem_flatMap.2 ⟨e, List.mem_append_left _ he, hv⟩)

/-- **A new local gets a value that is in hands.** -/
theorem write_init (h : f.Settled c [] held s) {x : VarId} {e : Expr} (hx : f.Free c s x) (he : ∀ v ∈ e.vars, f.Ready c [] s v) :
    Settled c [] (.var x :: held) { f with code := f.code ++ [.declare x (some e)] } s := by
  have hwritten : Settled c [] held { f with code := f.code ++ [.declare x (some e)] } s := by
    refine h.write (fun v hv => ?_) ?_ (by simp [Stmt.declares]) (by simpa [Stmt.declares] using hx) (fun _ _ hv => hv)
    · rcases he v hv with hv | hv | hv
      · exact .inl (.inl hv)
      · exact .inl (.inr hv)
      · exact .inr hv.1
    · refine (Delivers.init he).mono (fun _ hv => hv) (fun v hv => ?_)
      have hmem := hv.1
      rw [Stmt.introducesAll_append, List.mem_append] at hmem
      rcases hmem with hmem | hmem
      · exact .inr (.inr (.inr ⟨hmem, hv.2⟩))
      · exact .inl (by simpa [Stmt.introducesAll, Stmt.introduces] using hmem)
  refine hwritten.restack rfl (fun v hv => ?_)
  rcases List.mem_append.1 hv with hv | hv
  · obtain rfl : v = x := by simpa [Expr.vars, Expr.nodes, Expr.var?] using hv
    exact .inr (.inr ⟨by simp [Stmt.introducesAll, Stmt.introduces], List.not_mem_nil⟩)
  · exact hwritten.ready v hv

end Settled
end Frame

theorem Expr.vars_pureCall (m : String) (args : List Expr) (t : Ty) : (Expr.pureCall m args t).vars = Expr.varsAll args :=
  Expr.vars_call _ _ _ _

theorem Expr.vars_effectCall (m : String) (args : List Expr) : (Expr.effectCall m args).vars = Expr.varsAll args :=
  Expr.vars_call _ _ _ _

theorem Expr.mem_varsAll {es : List Expr} {v : VarId} : v ∈ Expr.varsAll es ↔ ∃ e ∈ es, v ∈ e.vars :=
  List.mem_flatMap

theorem Expr.varsAll_append (a b : List Expr) : Expr.varsAll (a ++ b) = Expr.varsAll a ++ Expr.varsAll b :=
  List.flatMap_append

namespace Eval

variable {α β : Type}

/-! ## Runs that keep frames in order -/

/-- The frame of a machine is in order, with some values in hands. -/
def Tidy (c : Setting) (held : List Expr) (m : Machine) : Prop :=
  m.frame.Settled c [] held m.scope

/-- **A run that keeps its frame in order.**  It uses up some values in hands, and gives others. -/
def Uses (used : List Expr) (x : Eval α) (given : α → List Expr) : Prop :=
  ∀ c held, Triple (Tidy c (used ++ held)) x (fun a => Tidy c (given a ++ held)) (fun _ => True)

theorem Tidy.weaken {c : Setting} {held held' : List Expr} {m : Machine} (h : Tidy c held m)
    (hsub : Expr.varsAll held' ⊆ Expr.varsAll held) : Tidy c held' m := by
  refine Frame.Settled.restack h rfl (fun v hv => h.ready v ?_)
  rw [Expr.varsAll_append, List.mem_append] at hv ⊢
  exact hv.imp_left (fun hv => hsub hv)

/-- A machine that differs only in what it linked, told and touched, or in a scope that has grown. -/
theorem Tidy.grow {c : Setting} {held : List Expr} {m m' : Machine} (h : Tidy c held m) (hframe : m'.frame = m.frame)
    (hscope : m.scope.Grows m'.scope) : Tidy c held m' := by
  unfold Tidy
  rw [hframe]
  exact Frame.Settled.grow h hscope

section Rules

variable {u u' r : List Expr} {g : α → List Expr} {g' : β → List Expr}

/-- What is in hands besides stays there. -/
theorem Uses.bind {x : Eval α} {f : α → Eval β} (hx : Uses u x g) (hf : ∀ a, Uses (g a ++ r) (f a) g') :
    Uses (u ++ r) (x >>= f) g' := by
  intro c held
  refine Triple.bind ?_ (fun a => hf a c held)
  rw [List.append_assoc]
  simp only [List.append_assoc]
  exact hx c (r ++ held)

theorem Uses.weaken {x : Eval α} (hx : Uses u x g) (hsub : Expr.varsAll u ⊆ Expr.varsAll u') : Uses u' x g := by
  intro c held
  refine (hx c held).pre (fun m hm => hm.weaken ?_)
  rw [Expr.varsAll_append, Expr.varsAll_append]
  exact List.append_subset.2 ⟨fun v hv => List.mem_append_left _ (hsub hv), List.subset_append_right _ _⟩

theorem Uses.pure {a : α} (hsub : Expr.varsAll (g a) ⊆ Expr.varsAll u) : Uses u (pure a) g := by
  intro c held
  refine .pure (fun m hm => hm.weaken ?_)
  rw [Expr.varsAll_append, Expr.varsAll_append]
  exact List.append_subset.2 ⟨fun v hv => List.mem_append_left _ (hsub hv), List.subset_append_right _ _⟩

theorem Uses.throw {e : AnalysisFault} : Uses u (throw e : Eval α) g :=
  fun _ _ => .throw (fun _ _ => trivial)

theorem Uses.ite {p : Prop} [Decidable p] {x y : Eval α} (hx : Uses u x g) (hy : Uses u y g) :
    Uses u (if p then x else y) g := by
  split
  · exact hx
  · exact hy

/-- A change of the machine outside its frame, after which the scope has only grown. -/
theorem Uses.modify {f : Machine → Machine} (hframe : ∀ m, (f m).frame = m.frame)
    (hscope : ∀ m : Machine, m.scope.Grows (f m).scope) :
    Uses [] (modify f) (fun _ => []) :=
  fun _ _ => .modify (fun m hm => hm.grow (hframe m) (hscope m))

end Rules

theorem uses_mismatch {u : List Expr} {g : α → List Expr} (p t : String) (e : Expr) : Uses u (mismatch p t e : Eval α) g :=
  fun _ _ => .mismatch (fun _ => trivial)

theorem uses_tyOf (e : Expr) : Uses [] (tyOf e) (fun _ => []) :=
  fun _ _ _ hm => hm

theorem uses_link (h : Helper) : Uses [] (link h) (fun _ => []) :=
  .modify (fun m => by split <;> rfl) (fun m => by split <;> exact .refl _)

theorem uses_touchEntry : Uses [] touchEntry (fun _ => []) :=
  .modify (fun _ => rfl) (fun _ => .refl _)

theorem uses_push {u : List Expr} {e : Expr} (he : e.vars ⊆ Expr.varsAll u) : Uses u (push e) (fun _ => []) := by
  intro c held
  refine .modify (fun m hm => Frame.Settled.restack hm rfl (fun v hv => hm.ready v ?_))
  simp only [List.nil_append, Expr.varsAll_append, Expr.varsAll_cons, List.mem_append] at hv ⊢
  rcases hv with hv | hv | hv
  · exact .inl (.inr hv)
  · exact .inl (.inl (he hv))
  · exact .inr hv

theorem uses_clear : Uses [] clear (fun _ => []) := by
  intro c held
  refine .modify (fun m hm => Frame.Settled.restack hm rfl (fun v hv => hm.ready v ?_))
  simp only [List.nil_append, List.append_nil, Expr.varsAll_append, List.mem_append] at hv ⊢
  exact .inl hv

/-- Taking a value moves it from the stack into hands; a parameter is always known. -/
theorem uses_popAs (t : Ty) : Uses [] (popAs t) (fun e => [e]) := by
  intro c held m hm
  cases hs : m.frame.stack with
  | nil =>
    rw [popAs_nil hs]
    have hgrown := Frame.Settled.grow hm (m.scope.grows_param (m.frame.base + m.frame.drawn) t)
    refine hgrown.restack rfl (fun v hv => ?_)
    simp only [List.cons_append, List.nil_append, Expr.varsAll_cons, List.mem_append] at hv
    rcases hv with hv | hv
    · obtain rfl := List.mem_singleton.1 hv
      exact .inr (.inl ⟨_, Scope.origin?_param _ _ _⟩)
    · exact hgrown.ready v hv
  | cons e rest =>
    rw [popAs_cons hs]
    refine Frame.Settled.restack hm rfl (fun v hv => hm.ready v ?_)
    simp only [List.cons_append, List.nil_append, Expr.varsAll_append, Expr.varsAll_cons, List.mem_append, hs] at hv ⊢
    rcases hv with hv | hv | hv
    · exact .inr (.inl hv)
    · exact .inl hv
    · exact .inr (.inr hv)

theorem uses_check {u : List Expr} (e : Expr) (t : Ty) (p : String) (he : e.vars ⊆ Expr.varsAll u) :
    Uses u (check e t p) (fun e => [e]) := by
  have hgiven : Expr.varsAll [e] ⊆ Expr.varsAll u := by
    intro v hv
    exact he (by simpa [Expr.varsAll] using hv)
  unfold check
  refine Uses.bind (u := []) (uses_tyOf e) (fun found => .ite (uses_mismatch _ _ _) ?_)
  split
  · refine Uses.bind (u := []) (.modify (fun _ => rfl) (fun m => ?_)) (fun _ => .pure hgiven)
    exact .of_eq (Scope.origin?_refine m.scope _ _)
  · exact .pure hgiven

theorem uses_popTyped (t : Ty) (p : String) : Uses [] (popTyped t p) (fun e => [e]) := by
  unfold popTyped
  refine Uses.bind (r := []) (uses_popAs t) (fun e => uses_check e t p (fun v hv => ?_))
  simpa [Expr.varsAll] using hv

theorem uses_popProcedure (p : String) : Uses [] (popProcedure p) (fun _ => []) := by
  unfold popProcedure
  refine Uses.bind (r := []) (uses_popAs .generic) (fun e => ?_)
  split
  · exact .pure (List.nil_subset _)
  · exact .pure (List.nil_subset _)
  · exact uses_mismatch _ _ _

theorem uses_popArgs (p : String) : ∀ ts : List Ty, Uses [] (popArgs p ts) id
  | [] => .pure (List.nil_subset _)
  | t :: ts => by
    unfold popArgs
    refine Uses.bind (r := []) (uses_popArgs p ts) (fun rest => ?_)
    refine Uses.bind (u := []) (uses_popTyped t p) (fun e => .pure ?_)
    simp [Expr.varsAll]

/-! ## Statements and spilling -/

/-- A statement that declares nothing and reads only what is in hands. -/
theorem uses_emit {u : List Expr} {t : Stmt} (ht : t.introduces = []) (hd : t.declares = [])
    (h : ∀ P : VarId → Prop, (∀ v ∈ Expr.varsAll u, P v) → t.Placed P ∧ Delivers P [t] P) : Uses u (emit t) (fun _ => []) := by
  intro c held
  refine .modify (fun m hm => ?_)
  have hready : ∀ v ∈ Expr.varsAll u, m.frame.Ready c [] m.scope v := fun v hv =>
    hm.ready v (by rw [Expr.varsAll_append, Expr.varsAll_append]; exact List.mem_append_left _ (List.mem_append_left _ hv))
  obtain ⟨hplaced, hdelivers⟩ := h _ hready
  exact Frame.Settled.write_quiet (hm.weaken (by simp [Expr.varsAll_append])) ht hd hplaced hdelivers

theorem uses_emit_eval {u : List Expr} {e : Expr} (he : e.vars ⊆ Expr.varsAll u) : Uses u (emit (.eval e)) (fun _ => []) :=
  uses_emit rfl rfl (fun _ hP => ⟨fun v hv => hP v (he hv), .eval (fun v hv => hP v (he hv))⟩)

/-- A new local is new to any frame whose variables are in the scope. -/
theorem free_newLocal {c : Setting} {p : List VarId} {held : List Expr} {f : Frame} {s : Scope}
    (h : f.Settled c p held s) (t : Ty) : f.Free c (s.newLocal t).2 (s.newLocal t).1 := by
  refine ⟨h.grows.eq_none (s.origin?_newLocal_old t), s.origin?_newLocal t, fun hv => ?_⟩
  have hlocal := (h.fresh _ hv).2
  rw [s.origin?_newLocal_old t] at hlocal
  cases hlocal

theorem newLocal_free (t : Ty) (c : Setting) (held : List Expr) :
    Triple (Tidy c held) (newLocal t) (fun v m => Tidy c held m ∧ m.frame.Free c m.scope v) (fun _ => True) :=
  fun m hm => ⟨Frame.Settled.grow hm (m.scope.grows_newLocal t), free_newLocal hm t⟩

/-- **Storing a value in a new local.** -/
theorem uses_store {u : List Expr} {e : Expr} {t : Ty} {k : VarId → Eval α} {g : α → List Expr} (he : e.vars ⊆ Expr.varsAll u)
    (hk : ∀ v, Uses (.var v :: u) (k v) g) :
    Uses u (newLocal t >>= fun v => emit (.declare v (some e)) >>= fun _ => k v) g := by
  intro c held
  refine .bind (newLocal_free t c (u ++ held)) (fun v => .bind (Q := fun _ => Tidy c (.var v :: u ++ held)) ?_ (fun _ => hk v c held))
  refine .modify (fun m hm => Frame.Settled.write_init hm.1 hm.2 (fun x hx => hm.1.ready x ?_))
  rw [Expr.varsAll_append, Expr.varsAll_append]
  exact List.mem_append_left _ (List.mem_append_left _ (he hx))

theorem uses_spillSlots (which : Expr → Bool) (es : List Expr) : Uses es (spillSlots which es) id := by
  induction es with
  | nil => exact .pure (List.nil_subset _)
  | cons e below ih =>
    unfold spillSlots
    refine Uses.weaken (u := below ++ [e]) (Uses.bind ih (fun slots => .ite ?_ (.pure ?_))) ?_
    · refine Uses.bind (u := []) (uses_tyOf e) (fun t => uses_store ?_ (fun v => .pure ?_))
      · simp [Expr.varsAll]
      · simp [Expr.varsAll]
    · simp [Expr.varsAll]
    · simp [Expr.varsAll]

theorem uses_setStack (es : List Expr) : Uses es (setStack es) (fun _ => []) := by
  intro c held
  refine .modify (fun m hm => Frame.Settled.restack hm rfl (fun v hv => hm.ready v ?_))
  simp only [List.nil_append, Expr.varsAll_append, List.mem_append] at hv ⊢
  exact .inl hv.symm

/-- What lies on the stack may be taken for in hands too. -/
theorem Tidy.hold {c : Setting} {held es : List Expr} {m : Machine} (h : Tidy c held m)
    (hes : ∀ e ∈ es, e ∈ m.frame.stack) : Tidy c (es ++ held) m := by
  refine Frame.Settled.restack h rfl (fun v hv => h.ready v ?_)
  rw [Expr.mem_varsAll] at hv ⊢
  obtain ⟨e, he, hv⟩ := hv
  refine ⟨e, ?_, hv⟩
  simp only [List.mem_append] at he ⊢
  rcases he with (he | he) | he
  · exact .inr (hes e he)
  · exact .inl he
  · exact .inr he

theorem uses_spillWhere (changes : Expr → Bool) : Uses [] (spillWhere changes) (fun _ => []) := by
  intro c held
  unfold spillWhere
  refine .bind .get (fun m₀ => .pre (P := Tidy c (m₀.frame.stack ++ held)) ?_ ?_)
  · exact .bind (uses_spillSlots _ m₀.frame.stack c held) (fun slots => uses_setStack slots c held)
  · rintro m ⟨rfl, hm⟩
    exact hm.hold (fun e he => he)

/-- **Spilling everything leaves the locals on the stack.** -/
theorem spillAll_tidy (p : String) (c : Setting) (held : List Expr) :
    Triple (Tidy c held) (spillAll p) (fun vs m => Tidy c held m ∧ m.frame.stack = vs.map .var) (fun _ => True) := by
  unfold spillAll
  refine .bind .get (fun m₀ => .pointwise (fun m hm => ?_))
  obtain ⟨rfl, hm⟩ := hm
  dsimp only
  generalize hbelow : (m₀.frame.stack.reverse.takeWhile Expr.isValue).reverse = below
  generalize habove : m₀.frame.stack.take (m₀.frame.stack.length - below.length) = above
  have hsplit : above ++ below = m₀.frame.stack := by
    rw [← habove, ← hbelow]
    exact take_append_values m₀.frame.stack
  have hheld : Tidy c (below ++ (above ++ held)) m₀ := by
    rw [← List.append_assoc]
    refine hm.hold (fun e he => ?_)
    rw [← hsplit, List.mem_append]
    exact (List.mem_append.1 he).symm
  have hslots : Triple (· = m₀) (spillSlots (fun _ => true) below)
      (fun slots m => Tidy c (slots ++ (above ++ held)) m ∧ ∃ vs : List VarId, slots = vs.map .var) (fun _ => True) := by
    have hboth := (uses_spillSlots (fun _ => true) below c (above ++ held)).and (spillSlots_fresh (s := m₀.scope) below)
    refine (hboth.pre (fun m h => ?_)).post (fun slots m h => ⟨h.1, h.2.2.imp (fun vs hvs => hvs.1)⟩)
    rw [h]
    exact ⟨hheld, .refl _⟩
  refine .bind hslots (fun slots => .pointwise (fun m₁ h₁ => ?_))
  obtain ⟨h₁, vs, rfl⟩ := h₁
  refine .bind (Q := fun _ m => Tidy c held m ∧ m.frame.stack = above ++ vs.map .var) (.modify (fun m h => ⟨?_, rfl⟩)) (fun _ => ?_)
  · rw [h]
    refine Frame.Settled.restack h₁ rfl (fun v hv => h₁.ready v ?_)
    simp only [Expr.varsAll_append, List.mem_append] at hv ⊢
    rcases hv with hv | hv | hv
    · exact .inl (.inr (.inr hv))
    · exact .inl (.inr (.inl hv))
    · exact .inl (.inl hv)
  · refine .ite (fun hempty => .pure (fun m h => ⟨h.1, ?_⟩)) (fun _ => .throw (fun _ _ => trivial))
    rw [List.isEmpty_iff] at hempty
    rw [h.2, hempty, List.nil_append, List.filterMap_map]
    simp [Function.comp_def, Expr.var?]

/-! ## Nested frames -/

/-- Where a frame nested in this one begins. -/
def setting (c : Setting) (f : Frame) (s : Scope) : Setting :=
  ⟨s, f.Ready c [] s⟩

section Nested

variable {c : Setting} {p : List VarId} {held : List Expr} {f : Frame} {s s₀ : Scope}

theorem nested_settled (h : f.Settled c [] held s) : f.nested.Settled (setting c f s) [] [] s where
  grows := .refl s
  known_old _ hv := h.ready_old hv
  placed := trivial
  delivers := .nil (fun v hv => by cases hv.1)
  once := .nil
  fresh v hv := by cases hv
  ready v hv := .inl (h.ready v (by rw [Expr.varsAll_append]; exact List.mem_append_right _ hv))

/-- A run in a nested frame leaves that frame in order, and the frame around it as it was. -/
theorem inNested_settled {x : Eval Unit} (hx : Uses [] x (fun _ => [])) (h : f.Settled c [] held s) :
    Triple (fun m => m.frame = f ∧ m.scope = s) (inNested x)
      (fun g m => m.frame = f ∧ g.Settled (setting c f s) [] [] m.scope) (fun _ => True) := by
  rintro m ⟨rfl, rfl⟩
  have hrun := hx (setting c m.frame m.scope) [] { m with frame := m.frame.nested } (nested_settled h)
  simp only [inNested]
  cases hm : x { m with frame := m.frame.nested } with
  | ok _ after => rw [hm] at hrun; exact ⟨rfl, hrun⟩
  | error e after => trivial

theorem newLocal_at {g : Frame} (t : Ty) (hs : g.Settled c p held s) :
    Triple (At f s) (newLocal t)
      (fun v m => At f s m ∧ g.Settled c p held m.scope ∧ g.Free c m.scope v ∧ s.origin? v = none) (fun _ => True) := by
  rintro m ⟨rfl, hm⟩
  have hnow := hs.grow hm
  exact ⟨⟨rfl, hm.trans (m.scope.grows_newLocal t)⟩, hnow.grow (m.scope.grows_newLocal t), free_newLocal hnow t,
    hm.eq_none (m.scope.origin?_newLocal_old t)⟩

theorem paramsTo_at (base : Nat) : ∀ depth n : Nat,
    Triple (At f s) (paramsTo base depth n)
      (fun es m => At f s m ∧ ∀ v ∈ Expr.varsAll es, m.scope.IsParam v) (fun _ => True)
  | _, 0 => .pure (fun _ hm => ⟨hm, fun v hv => by cases hv⟩)
  | depth, n + 1 => by
    unfold paramsTo
    refine .bind (paramsTo_at base (depth + 1) n) (fun es => .bind (Q := fun x m => At f s m ∧
      ∀ v ∈ Expr.varsAll (.var x :: es), m.scope.IsParam v) ?_ (fun x => .pure (fun _ hm => hm)))
    refine .param ?_
    rintro m ⟨hm, hes⟩
    have hgrows := m.scope.grows_param (base + depth) .generic
    refine ⟨⟨hm.1, hm.2.trans hgrows⟩, fun v hv => ?_⟩
    rw [Expr.varsAll_cons, List.mem_append] at hv
    rcases hv with hv | hv
    · obtain rfl := List.mem_singleton.1 hv
      exact ⟨_, m.scope.origin?_param _ _⟩
    · exact hgrows.isParam (hes v hv)

/-- Values that a frame never reached are parameters. -/
theorem fullView_at (g : Frame) (drawn : Nat) :
    Triple (At f s) (fullView g drawn)
      (fun es m => At f s m ∧ ∀ v ∈ Expr.varsAll es, v ∈ Expr.varsAll g.stack ∨ m.scope.IsParam v) (fun _ => True) := by
  unfold fullView
  refine .bind (paramsTo_at g.base g.drawn (drawn - g.drawn)) (fun es => .pure (fun m hm => ⟨hm.1, fun v hv => ?_⟩))
  rw [Expr.varsAll_append, List.mem_append] at hv
  exact hv.imp_right (hm.2 v)

end Nested

/-! ## Branches -/

/-- **Statements that give each of some locals a value**, and read only `source`. -/
structure Fills (source : VarId → Prop) (targets : List VarId) (b : Block) : Prop where
  declares : Stmt.declaresAll b = []
  placed : ∀ K : VarId → Prop, (∀ v, source v → K v) → (∀ v ∈ targets, K v) → Stmt.PlacedAll K b
  delivers : ∀ P : VarId → Prop, (∀ v, source v → P v) → Delivers P b (fun v => P v ∨ v ∈ targets)

theorem Fills.nil {source : VarId → Prop} : Fills source [] [] :=
  ⟨rfl, fun _ _ _ => trivial, fun _ _ => .nil (fun v hv => hv.elim id (fun h => by cases h))⟩

theorem Fills.store {source : VarId → Prop} {targets : List VarId} {b : Block} {x : VarId} {e : Expr}
    (h : Fills source targets b) (he : ∀ v ∈ e.vars, source v) :
    Fills source (targets ++ [x]) (b ++ [.assign (.var x) e]) where
  declares := by rw [Stmt.declaresAll_append, h.declares]; rfl
  placed K hK hx := by
    have htargets : ∀ v ∈ targets, K v := fun v hv => hx v (List.mem_append_left _ hv)
    refine Stmt.placedAll_append.2 ⟨h.placed K hK htargets, Stmt.placedAll_single.2 ⟨.inl (hx x (by simp)), ?_⟩⟩
    exact fun v hv => .inl (hK v (he v hv))
  delivers P hP := by
    refine (h.delivers P hP).append ((Delivers.store (fun v hv => .inl (hP v (he v hv)))).mono (fun _ hv => hv) ?_)
    intro v hv
    rcases hv with hv | hv
    · exact .inr (.inl hv)
    · rcases List.mem_append.1 hv with hv | hv
      · exact .inr (.inr hv)
      · exact .inl (List.mem_singleton.1 hv)

/-- **Two views made one.**  A slot that is kept reads only what both sides may read. -/
structure Fits (Y N : VarId → Prop) (pending : List VarId) (g : Merged) : Prop where
  stack : ∀ v ∈ Expr.varsAll g.stack, (Y v ∧ N v) ∨ v ∈ pending
  yes : Fills Y pending g.yes
  no : Fills N pending g.no

/-- A frame that has declared more locals, without values. -/
def opened (f : Frame) (vs : List VarId) : Frame :=
  { f with code := f.code ++ vs.map (fun v => .declare v none) }

theorem introducesAll_opened (f : Frame) (vs : List VarId) :
    Stmt.introducesAll (opened f vs).code = Stmt.introducesAll f.code ++ vs := by
  rw [opened, Stmt.introducesAll_append]
  congr 1
  induction vs with
  | nil => rfl
  | cons v vs ih => rw [List.map_cons, Stmt.introducesAll_cons, ih]; rfl

theorem declaresAll_opened (f : Frame) (vs : List VarId) :
    Stmt.declaresAll (opened f vs).code = Stmt.declaresAll f.code ++ vs := by
  rw [opened, Stmt.declaresAll_append]
  congr 1
  induction vs with
  | nil => rfl
  | cons v vs ih => rw [List.map_cons, Stmt.declaresAll, ih]; rfl

section Branch

variable {c : Setting} {p : List VarId} {held : List Expr} {f : Frame} {s : Scope} {Y N : VarId → Prop}

theorem open_settled {x : VarId} (h : f.Settled c p held s) (hx : f.Free c s x) :
    Frame.Settled c (p ++ [x]) held { f with code := f.code ++ [.declare x none] } s := by
  have hne : ∀ v ∈ Stmt.introducesAll f.code, v ≠ x := fun v hv heq =>
    hx.2.2 (heq ▸ Stmt.introducesAll_subset _ hv)
  refine h.write trivial ?_ (by simp [Stmt.declares]) (by simpa [Stmt.declares] using hx) (fun v hv hp => ?_)
  · refine Delivers.declare.mono (fun _ hv => hv) (fun v hv => ?_)
    simp only [Stmt.introducesAll_append, List.mem_append, not_or, List.mem_singleton] at hv
    refine ⟨hv.2.2, .inr (.inr ⟨hv.1.resolve_right (fun hi => hv.2.2 ?_), hv.2.1⟩)⟩
    simpa [Stmt.introducesAll, Stmt.introduces] using hi
  · simp only [List.mem_append, List.mem_singleton, not_or]
    exact ⟨hp, hne v hv⟩

/-- What the slots merged so far have made of the frame, its scope and the slots. -/
structure Merging (c : Setting) (held : List Expr) (f : Frame) (s : Scope) (Y N : VarId → Prop) (pending : List VarId)
    (g : Merged) (m : Machine) : Prop where
  fits : Fits Y N pending g
  frame : m.frame = opened f pending
  settled : m.frame.Settled c pending held m.scope
  grows : s.Grows m.scope
  fresh : ∀ v ∈ pending, s.origin? v = none

theorem mergeSlot_merging {y z : Expr} (hy : ∀ v ∈ y.vars, Y v) (hz : ∀ v ∈ z.vars, N v) (below : Merged) :
    Triple (Merging c held f s Y N p below) (mergeSlot y z below)
      (fun g m => ∃ pending, Merging c held f s Y N pending g m) (fun _ => True) := by
  refine .pointwise (fun m₀ h₀ => ?_)
  have hbelow := h₀.fits
  unfold mergeSlot
  refine .ite (fun heq => .pure (fun m hm => ⟨p, ?_⟩)) (fun _ => .ite (fun _ => .throw (fun _ _ => trivial)) (fun _ => ?_))
  · rw [hm]
    refine { h₀ with fits := ⟨fun v hv => ?_, hbelow.yes, hbelow.no⟩ }
    rw [Expr.varsAll_cons, List.mem_append] at hv
    rcases hv with hv | hv
    · exact .inl ⟨hy v hv, hz v (heq ▸ hv)⟩
    · exact hbelow.stack v hv
  · refine .pre (P := At m₀.frame m₀.scope) ?_ (fun m hm => by rw [hm]; exact ⟨rfl, .refl _⟩)
    refine .bind (Q := fun _ => At m₀.frame m₀.scope) (fun _ hm => hm) (fun a => ?_)
    refine .bind (Q := fun _ => At m₀.frame m₀.scope) (fun _ hm => hm) (fun b => ?_)
    split
    · exact .throw (fun _ _ => trivial)
    · refine .bind (check_at y _ _) (fun y' => .pointwise (fun m₁ h₁ => ?_))
      obtain ⟨⟨rfl, -⟩, h₁⟩ := h₁
      refine .pre (P := At m₀.frame m₀.scope) ?_ (fun m hm => by rw [hm]; exact h₁)
      refine .bind (check_at z _ _) (fun z' => .pointwise (fun m₂ h₂ => ?_))
      obtain ⟨⟨rfl, -⟩, h₂⟩ := h₂
      refine .pre (P := At m₀.frame m₀.scope) ?_ (fun m hm => by rw [hm]; exact h₂)
      refine .bind (newLocal_at _ h₀.settled) (fun x => .bind (Q := fun _ m => Frame.Settled c (p ++ [x]) held m.frame m.scope ∧
        m.frame = opened f (p ++ [x]) ∧ s.Grows m.scope ∧ s.origin? x = none) (.modify (fun m hm => ?_)) (fun _ => ?_))
      · obtain ⟨⟨hframe, hgrows⟩, hsettled, hfree, hnone⟩ := hm
        rw [hframe]
        refine ⟨open_settled hsettled hfree, ?_, h₀.grows.trans hgrows, h₀.grows.eq_none hnone⟩
        rw [h₀.frame, opened, opened]
        simp
      · refine .pure (fun m hm => ⟨p ++ [x], ⟨fun v hv => ?_, hbelow.yes.store hy, hbelow.no.store hz⟩, hm.2.1, hm.1,
          hm.2.2.1, fun v hv => ?_⟩)
        · rw [Expr.varsAll_cons, List.mem_append] at hv
          rcases hv with hv | hv
          · exact .inr (List.mem_append_right _ hv)
          · exact (hbelow.stack v hv).imp_right (List.mem_append_left _)
        · rcases List.mem_append.1 hv with hv | hv
          · exact h₀.fresh v hv
          · rw [List.mem_singleton.1 hv]; exact hm.2.2.2

theorem mergeSlots_merging (hs : f.Settled c [] held s) : ∀ {ys zs : List Expr}, (∀ v ∈ Expr.varsAll ys, Y v) →
    (∀ v ∈ Expr.varsAll zs, N v) →
    Triple (At f s) (mergeSlots ys zs) (fun g m => ∃ pending, Merging c held f s Y N pending g m) (fun _ => True)
  | [], _, _, _ | _ :: _, [], _, _ => by
    refine .pure (fun m hm => ⟨[], ⟨fun _ hv => (by cases hv), .nil, .nil⟩, ?_, ?_, hm.2, fun _ hv => (by cases hv)⟩)
    · rw [hm.1, opened]; simp
    · rw [hm.1]; exact hs.grow hm.2
  | y :: ys, z :: zs, hy, hz => by
    simp only [Expr.varsAll_cons, List.mem_append] at hy hz
    unfold mergeSlots
    refine .bind (mergeSlots_merging hs (fun v hv => hy v (.inr hv)) (fun v hv => hz v (.inr hv))) (fun below => ?_)
    refine .pointwise (fun m hm => ?_)
    obtain ⟨pending, hm⟩ := hm
    refine .pre (P := Merging c held f s Y N pending below) ?_ (fun m' hm' => by rw [hm']; exact hm)
    exact mergeSlot_merging (fun v hv => hy v (.inl hv)) (fun v hv => hz v (.inl hv)) below

/-! One side of a branch: what a nested frame wrote, and then the stores to the locals of the frame around. -/

section Side

variable {g : Frame} {s₁ s₂ s₃ : Scope} {pending : List VarId} {b : Block} {K P : VarId → Prop}

theorem fresh_nested {v : VarId} (hg : g.Settled (setting c f s) [] [] s₁) (hv : v ∈ Stmt.declaresAll g.code) :
    s.origin? v = none ∧ s₁.origin? v = some .local :=
  hg.fresh v hv

theorem side_placed (hg : g.Settled (setting c f s) [] [] s₁) (hs : s.Grows s₃) (hs₁ : s₁.Grows s₃)
    (hb : Fills (g.Ready (setting c f s) [] s₃) pending b) (hK : ∀ v, f.Ready c [] s₃ v → K v) (hp : ∀ v ∈ pending, K v) :
    Stmt.PlacedAll K (g.code ++ b) := by
  have hknown : ∀ v, f.Ready c [] s v ∨ s₃.IsParam v → K v := fun v hv =>
    hK v (hv.elim (Frame.Settled.ready_mono hs) (fun h => .inr (.inl h)))
  refine Stmt.placedAll_append.2 ⟨Stmt.placedAll_mono (fun v hv => hknown v (hv.imp_right hs₁.isParam)) _ hg.placed, ?_⟩
  refine hb.placed _ (fun v hv => ?_) (fun v hv => .inl (hp v hv))
  rcases hv with hv | hv | hv
  · exact .inl (hknown v (.inl hv))
  · exact .inl (hknown v (.inr hv))
  · exact .inr hv.1

theorem side_delivers (hg : g.Settled (setting c f s) [] [] s₁) (hs : s.Grows s₃) (hs₁ : s₁.Grows s₃)
    (hb : Fills (g.Ready (setting c f s) [] s₃) pending b) (hP : ∀ v, f.Ready c [] s₃ v → P v) :
    Delivers P (g.code ++ b) (fun v => f.Ready c [] s v ∨ v ∈ pending) := by
  have hnow := hg.grow hs₁
  have hknown : ∀ v, (setting c f s).known v ∨ s₃.IsParam v → P v := fun v hv =>
    hP v (hv.elim (Frame.Settled.ready_mono hs) (fun h => .inr (.inl h)))
  refine (hnow.delivers_ready.mono hknown (fun _ hv => hv)).append ((hb.delivers _ (fun _ hv => hv)).mono (fun _ hv => hv) ?_)
  exact fun v hv => hv.imp_left .inl

/-- A slot that both sides leave alike reads only what the frame around them may read. -/
theorem common_ready {gy gn : Frame} {v : VarId} (hf : f.Settled c [] held s) (hy : gy.Settled (setting c f s) [] [] s₁)
    (hn : gn.Settled (setting c f s₁) [] [] s₂) (hs₂ : s₂.Grows s₃) (hyv : gy.Ready (setting c f s) [] s₃ v)
    (hnv : gn.Ready (setting c f s₁) [] s₃ v) : f.Ready c [] s₃ v := by
  have hs₁ : s₁.Grows s₃ := hn.grows.trans hs₂
  rcases hyv with hyv | hyv | ⟨hyv, -⟩
  · exact Frame.Settled.ready_mono (hy.grows.trans hs₁) hyv
  · exact .inr (.inl hyv)
  · -- A local that the first side declared is unknown to the second.
    exfalso
    obtain ⟨hold, hlocal⟩ := fresh_nested hy (Stmt.introducesAll_subset _ hyv)
    rcases hnv with hnv | ⟨depth, hnv⟩ | ⟨hnv, -⟩
    · rcases hnv with hk | ⟨depth, hparam⟩ | ⟨hi, -⟩
      · exact hf.known_old v hk (hf.grows.eq_none hold)
      · rw [hlocal] at hparam; cases hparam
      · rw [(hf.fresh v (Stmt.introducesAll_subset _ hi)).2] at hold; cases hold
    · rw [hs₁ v _ hlocal] at hnv; cases hnv
    · rw [(fresh_nested hn (Stmt.introducesAll_subset _ hnv)).1] at hlocal; cases hlocal

/-- What a nested frame declares is new to the frame around it, and to locals made later. -/
theorem side_free {m : Machine} {v : VarId} (hf : f.Settled c [] held s) (hg : g.Settled (setting c f s) [] [] s₁)
    (hs₁ : s₁.Grows s₃) (hm : s₃.Grows m.scope) (hframe : m.frame = opened f pending)
    (hpending : ∀ v ∈ pending, s₃.origin? v = none) (hv : v ∈ Stmt.declaresAll g.code) : m.frame.Free c m.scope v := by
  obtain ⟨hold, hlocal⟩ := fresh_nested hg hv
  refine ⟨hf.grows.eq_none hold, hm v _ (hs₁ v _ hlocal), fun hd => ?_⟩
  rw [hframe, declaresAll_opened, List.mem_append] at hd
  rcases hd with hd | hd
  · rw [(hf.fresh v hd).2] at hold
    cases hold
  · have hnone := hpending v hd
    rw [hs₁ v _ hlocal] at hnone
    cases hnone

/-- **The frame after a branch**, with the merged slots for its stack. -/
theorem branch_settled {gy gn : Frame} {e : Expr} {g : Merged} {m : Machine} {drawn : Nat}
    (hf : f.Settled c [] (e :: held) s) (hy : gy.Settled (setting c f s) [] [] s₁)
    (hn : gn.Settled (setting c f s₁) [] [] s₂) (hs₂ : s₂.Grows s₃)
    (hm : Merging c held f s₃ (gy.Ready (setting c f s) [] s₃) (gn.Ready (setting c f s₁) [] s₃) pending g m) :
    Frame.Settled c [] held { m.frame with
      code := m.frame.code ++ [.branch e (gy.code ++ g.yes) (gn.code ++ g.no)]
      stack := g.stack
      drawn := drawn } m.scope := by
  have hs₁ : s₁.Grows s₃ := hn.grows.trans hs₂
  have hs : s.Grows s₃ := hy.grows.trans hs₁
  have hintro : Stmt.introducesAll m.frame.code = Stmt.introducesAll f.code ++ pending := by
    rw [hm.frame, introducesAll_opened]
  have hready : ∀ v, f.Ready c [] s₃ v → m.frame.Ready c pending m.scope v := by
    intro v hv
    rcases hv with hv | hv | ⟨hv, -⟩
    · exact .inl hv
    · exact .inr (.inl (hm.grows.isParam hv))
    · refine .inr (.inr ⟨hintro ▸ List.mem_append_left _ hv, fun hp => ?_⟩)
      have hnone := hm.fresh v hp
      rw [hs v _ (hf.fresh v (Stmt.introducesAll_subset _ hv)).2] at hnone
      cases hnone
  have hvisible : ∀ v, m.frame.Ready c pending m.scope v →
      (c.known v ∨ m.scope.IsParam v) ∨ v ∈ Stmt.introducesAll m.frame.code := by
    intro v hv
    rcases hv with hv | hv | hv
    · exact .inl (.inl hv)
    · exact .inl (.inr hv)
    · exact .inr hv.1
  have hpending : ∀ v ∈ pending, (c.known v ∨ m.scope.IsParam v) ∨ v ∈ Stmt.introducesAll m.frame.code := fun v hv =>
    .inr (hintro ▸ List.mem_append_right _ hv)
  have hcondition : ∀ v ∈ e.vars, m.frame.Ready c pending m.scope v := fun v hv =>
    hready v (Frame.Settled.ready_mono hs (hf.vars_ready List.mem_cons_self v hv))
  have hafter : Stmt.introducesAll (m.frame.code ++ [.branch e (gy.code ++ g.yes) (gn.code ++ g.no)]) =
      Stmt.introducesAll f.code ++ pending := by
    rw [Stmt.introducesAll_append, hintro]
    exact List.append_nil _
  have hdeclares : (Stmt.branch e (gy.code ++ g.yes) (gn.code ++ g.no)).declares =
      Stmt.declaresAll gy.code ++ Stmt.declaresAll gn.code := by
    rw [Stmt.declares, Stmt.declaresAll_append, Stmt.declaresAll_append, hm.fits.yes.declares, hm.fits.no.declares,
      List.append_nil, List.append_nil]
  have hwritten : Frame.Settled c [] held
      { m.frame with code := m.frame.code ++ [.branch e (gy.code ++ g.yes) (gn.code ++ g.no)] } m.scope := by
    refine hm.settled.write ⟨fun v hv => hvisible v (hcondition v hv), ?_, ?_⟩ (.branch hcondition ?_ ?_) ?_ ?_
      (fun _ _ _ => List.not_mem_nil)
    · exact side_placed hy hs hs₁ hm.fits.yes (fun v hv => hvisible v (hready v hv)) hpending
    · exact side_placed hn hs₁ hs₂ hm.fits.no (fun v hv => hvisible v (hready v hv)) hpending
    · refine (side_delivers hy hs hs₁ hm.fits.yes hready).mono (fun _ hv => hv) (fun v hv => ?_)
      rw [hafter, List.mem_append] at hv
      exact hv.1.imp_left (fun hi => .inr (.inr ⟨hi, List.not_mem_nil⟩))
    · refine (side_delivers hn hs₁ hs₂ hm.fits.no hready).mono (fun _ hv => hv) (fun v hv => ?_)
      rw [hafter, List.mem_append] at hv
      exact hv.1.imp_left (fun hi => .inr (.inr ⟨hi, List.not_mem_nil⟩))
    · rw [hdeclares, List.nodup_append]
      refine ⟨hy.once, hn.once, ?_⟩
      rintro v hvy _ hvn rfl
      have hnone := (fresh_nested hn hvn).1
      rw [(fresh_nested hy hvy).2] at hnone
      cases hnone
    · intro v hv
      rw [hdeclares, List.mem_append] at hv
      rcases hv with hv | hv
      · exact side_free hf hy hs₁ hm.grows hm.frame hm.fresh hv
      · exact side_free (hf.grow hy.grows) hn hs₂ hm.grows hm.frame hm.fresh hv
  refine hwritten.restack rfl (fun v hv => ?_)
  rw [Expr.varsAll_append, List.mem_append] at hv
  rcases hv with hv | hv
  · exact hwritten.ready v (by rw [Expr.varsAll_append]; exact List.mem_append_left _ hv)
  · rcases hm.fits.stack v hv with hboth | hp
    · rcases common_ready hf hy hn hs₂ hboth.1 hboth.2 with hv | hv | hv
      · exact .inl hv
      · exact .inr (.inl (hm.grows.isParam hv))
      · exact .inr (.inr ⟨hafter ▸ List.mem_append_left _ hv.1, List.not_mem_nil⟩)
    · exact .inr (.inr ⟨hafter ▸ List.mem_append_right _ hp, List.not_mem_nil⟩)

end Side

theorem uses_branch {run : Procedure → Eval Unit} (hrun : ∀ p, Uses [] (run p) (fun _ => [])) :
    Uses [] (branch run) (fun _ => []) := by
  intro c held
  unfold branch
  refine .bind (uses_popProcedure "if$" c held) (fun no => .bind (uses_popProcedure "if$" c held) (fun yes => ?_))
  refine .bind (uses_popTyped .int "if$" c held) (fun e => .pointwise (fun m hm => ?_))
  refine .pre (P := fun m' => m'.frame = m.frame ∧ m'.scope = m.scope) ?_ (fun m' h => by rw [h]; exact ⟨rfl, rfl⟩)
  refine .bind (inNested_settled (hrun yes) hm) (fun gy => .pointwise (fun m₁ h₁ => ?_))
  have hf₁ := Frame.Settled.grow hm h₁.2.grows
  refine .pre (P := fun m' => m'.frame = m.frame ∧ m'.scope = m₁.scope) ?_ (fun m' h => by rw [h]; exact ⟨h₁.1, rfl⟩)
  refine .bind (inNested_settled (hrun no) hf₁) (fun gn => .pointwise (fun m₂ h₂ => ?_))
  refine .pre (P := At m.frame m₂.scope) ?_ (fun m' h => by rw [h]; exact ⟨h₂.1, .refl _⟩)
  refine .bind (fullView_at gy _) (fun yesView => .pointwise (fun m₃ h₃ => ?_))
  refine .pre (P := At m.frame m₃.scope) ?_ (fun m' h => by rw [h]; exact ⟨h₃.1.1, .refl _⟩)
  refine .bind (fullView_at gn _) (fun noView => .pointwise (fun m₄ h₄ => ?_))
  refine .pre (P := At m.frame m₄.scope) ?_ (fun m' h => by rw [h]; exact ⟨h₄.1.1, .refl _⟩)
  refine .ite (fun _ => ?_) (fun _ => .throw (fun _ _ => trivial))
  have hs₂ : m₂.scope.Grows m₄.scope := h₃.1.2.trans h₄.1.2
  have hs : m.scope.Grows m₄.scope := h₁.2.grows.trans (Scope.Grows.trans h₂.2.grows hs₂)
  have hyes : ∀ v ∈ Expr.varsAll yesView, gy.Ready (setting c m.frame m.scope) [] m₄.scope v := fun v hv =>
    (h₃.2 v hv).elim (fun hv => (h₁.2.grow (Scope.Grows.trans h₂.2.grows hs₂)).ready v hv)
      (fun hv => .inr (.inl (h₄.1.2.isParam hv)))
  have hno : ∀ v ∈ Expr.varsAll noView, gn.Ready (setting c m.frame m₁.scope) [] m₄.scope v := fun v hv =>
    (h₄.2 v hv).elim (fun hv => (h₂.2.grow hs₂).ready v hv) (fun hv => .inr (.inl hv))
  have hheld : Tidy c held m := hm.weaken (List.subset_append_right _ _)
  have hf₄ : m.frame.Settled c [] held m₄.scope := Frame.Settled.grow hheld hs
  refine .bind (mergeSlots_merging hf₄ hyes hno) (fun g => .pointwise (fun m₅ h₅ => ?_))
  obtain ⟨pending, h₅⟩ := h₅
  refine .bind (Q := fun _ m' => m' = { m₅ with frame := { m₅.frame with
    code := m₅.frame.code ++ [.branch e (gy.code ++ g.yes) (gn.code ++ g.no)] } }) (.modify (fun m' h => by rw [h])) (fun _ => ?_)
  refine .modify (fun m' h => ?_)
  rw [h]
  exact branch_settled hm h₁.2 h₂.2 hs₂ h₅

end Branch

/-! ## Loops -/

section Loop

variable {c : Setting} {held : List Expr} {f g : Frame} {s s₁ s₂ : Scope}

theorem ready_or_isParam {v : VarId} (h : f.Ready c [] s₁ v) : f.Ready c [] s v ∨ s₁.IsParam v := by
  rcases h with h | h | h
  · exact .inl (.inl h)
  · exact .inr h
  · exact .inl (.inr (.inr h))

/-- **The frame after a loop.** -/
theorem loop_settled {gt gb : Frame} {e : Expr} (hf : f.Settled c [] held s) (ht : gt.Settled (setting c f s) [] [] s₁)
    (he : ∀ v ∈ e.vars, gt.Ready (setting c f s) [] s₁ v) (hb : gb.Settled (setting c f s₁) [] [] s₂) :
    Frame.Settled c [] held { f with code := f.code ++ [.loop gt.code e gb.code] } s₂ := by
  have hs₁ : s.Grows s₁ := ht.grows
  have hs₂ : s₁.Grows s₂ := hb.grows
  have hintro : Stmt.introducesAll (f.code ++ [.loop gt.code e gb.code]) = Stmt.introducesAll f.code := by
    rw [Stmt.introducesAll_append]
    exact List.append_nil _
  have hvisible : ∀ v, f.Ready c [] s v ∨ s₂.IsParam v →
      (c.known v ∨ s₂.IsParam v) ∨ v ∈ Stmt.introducesAll f.code := by
    rintro v ((hv | hv | hv) | hv)
    · exact .inl (.inl hv)
    · exact .inl (.inr ((hs₁.trans hs₂).isParam hv))
    · exact .inr hv.1
    · exact .inl (.inr hv)
  refine (hf.grow (hs₁.trans hs₂)).write ⟨?_, fun v hv => ?_, ?_⟩ ?_ ?_ ?_ (fun _ _ hv => hv)
  · exact Stmt.placedAll_mono (fun v hv => hvisible v (hv.imp_right hs₂.isParam)) _ ht.placed
  · rcases he v hv with hv | hv | hv
    · exact .inl (hvisible v (.inl hv))
    · exact .inl (hvisible v (.inr (hs₂.isParam hv)))
    · exact .inr hv.1
  · refine Stmt.placedAll_mono (fun v hv => .inl (hvisible v ?_)) _ hb.placed
    exact hv.elim (fun hk => (ready_or_isParam hk).imp_right hs₂.isParam) .inr
  · -- The setup leaves what the test and the body need, and the body leaves what the setup needs.
    have hsetup : Delivers (f.Ready c [] s₂) gt.code (gt.Ready (setting c f s) [] s₂) :=
      (ht.grow hs₂).delivers_ready.mono (fun v hv => hv.elim (Frame.Settled.ready_mono (hs₁.trans hs₂)) (fun h => .inr (.inl h)))
        (fun _ hv => hv)
    have hbody : Delivers (gt.Ready (setting c f s) [] s₂) gb.code (f.Ready c [] s₂) := by
      refine hb.delivers_ready.mono (fun v hv => ?_) (fun v hv => ?_)
      · rcases hv with hv | hv
        · exact (ready_or_isParam hv).elim .inl (fun h => .inr (.inl (hs₂.isParam h)))
        · exact .inr (.inl hv)
      · exact (ready_or_isParam hv).elim .inl (fun h => .inr (.inl h))
    have htest : ∀ v ∈ e.vars, gt.Ready (setting c f s) [] s₂ v := fun v hv => Frame.Settled.ready_mono hs₂ (he v hv)
    refine (Delivers.loop hsetup htest hbody).mono (fun _ hv => hv) (fun v hv => ?_)
    rw [hintro] at hv
    exact .inl (.inr (.inr hv))
  · rw [Stmt.declares, List.nodup_append]
    refine ⟨ht.once, hb.once, ?_⟩
    rintro v hvt _ hvb rfl
    have hnone := (fresh_nested hb hvb).1
    rw [(fresh_nested ht hvt).2] at hnone
    cases hnone
  · intro v hv
    rw [Stmt.declares, List.mem_append] at hv
    have hopened : ∀ {s' : Scope}, f.Settled c [] held s' → s'.origin? v = none → v ∉ Stmt.declaresAll f.code := by
      intro s' hf' hnone hd
      rw [(hf'.fresh v hd).2] at hnone
      cases hnone
    rcases hv with hv | hv
    · obtain ⟨hnone, hlocal⟩ := fresh_nested ht hv
      exact ⟨hf.grows.eq_none hnone, hs₂ v _ hlocal, hopened hf hnone⟩
    · obtain ⟨hnone, hlocal⟩ := fresh_nested hb hv
      exact ⟨(hf.grows.trans hs₁).eq_none hnone, hlocal, hopened (hf.grow hs₁) hnone⟩

theorem assign_settled {x : VarId} {e : Expr} (hg : g.Settled c [] held s) (hx : g.Ready c [] s x)
    (he : ∀ v ∈ e.vars, g.Ready c [] s v) :
    Frame.Settled c [] held { g with code := g.code ++ [.assign (.var x) e] } s :=
  hg.write_quiet rfl rfl ⟨hx, he⟩ ((Delivers.store he).mono (fun _ hv => hv) (fun _ hv => .inr hv))

/-- Assignments between variables in hands. -/
theorem moves_settled : ∀ (moves : Block) {g : Frame}, g.Settled c [] held s →
    (∀ t ∈ moves, ∃ x u, t = .assign (.var x) (.var u) ∧ x ∈ Expr.varsAll held ∧ u ∈ Expr.varsAll held) →
    Frame.Settled c [] held { g with code := g.code ++ moves } s
  | [], g, hg, _ => hg.restack (List.append_nil _) hg.ready
  | t :: moves, g, hg, h => by
    obtain ⟨x, u, rfl, hx, hu⟩ := h t List.mem_cons_self
    have hheld : ∀ v ∈ Expr.varsAll held, g.Ready c [] s v := fun v hv =>
      hg.ready v (by rw [Expr.varsAll_append]; exact List.mem_append_left _ hv)
    have hfirst := assign_settled hg (hheld x hx) (e := .var u) (fun v hv => by rw [List.mem_singleton.1 hv]; exact hheld u hu)
    have hrest := moves_settled moves hfirst (fun t ht => h t (List.mem_cons_of_mem _ ht))
    rw [List.append_assoc] at hrest
    exact hrest

/-- **Temporaries**: their declarations may follow what a frame has written, and then the moves from them. -/
theorem temporaries_settled : ∀ {changed : List (VarId × Expr)} {g : Frame} {held : List Expr} {s : Scope},
    g.Settled c [] held s → (∀ q ∈ changed, q.2 ∈ held) →
    Triple (At f s) (temporaries changed)
      (fun r m => At f s m ∧ ∃ ts : List VarId, Frame.Settled c [] (ts.map .var ++ held) { g with code := g.code ++ r.1 } m.scope ∧
        ∀ t ∈ r.2, ∃ x u, t = .assign (.var x) (.var u) ∧ x ∈ changed.map (·.1) ∧ u ∈ ts) (fun _ => True)
  | [], g, held, s, hg, _ => by
    refine .pure (fun m hm => ⟨hm, [], ?_, fun t ht => by cases ht⟩)
    exact (hg.grow hm.2).restack (List.append_nil _) (hg.grow hm.2).ready
  | (x, e) :: rest, g, held, s, hg, hheld => by
    unfold temporaries
    refine .bind (Q := fun _ => At f s) (fun _ hm => hm) (fun t => ?_)
    refine .bind (newLocal_at t hg) (fun u => .pointwise (fun m hm => ?_))
    obtain ⟨hat, hgm, hfree, -⟩ := hm
    have hstore := hgm.write_init hfree (hgm.vars_ready (hheld _ List.mem_cons_self))
    refine .pre (P := At f m.scope) ?_ (fun m' h => by rw [h]; exact ⟨hat.1, .refl _⟩)
    refine .bind (temporaries_settled hstore (fun q hq => List.mem_cons_of_mem _ (hheld q (List.mem_cons_of_mem _ hq))))
      (fun r => .pure (fun m' h => ⟨⟨h.1.1, hat.2.trans h.1.2⟩, ?_⟩))
    obtain ⟨-, ts, hsettled, hmoves⟩ := h
    refine ⟨ts ++ [u], ?_, fun t ht => ?_⟩
    · rw [List.append_assoc] at hsettled
      rw [List.map_append, List.append_assoc]
      exact hsettled
    · rcases List.mem_cons.1 ht with rfl | ht
      · exact ⟨x, u, rfl, List.mem_cons_self, List.mem_append_right _ List.mem_cons_self⟩
      · obtain ⟨y, w, rfl, hy, hw⟩ := hmoves t ht
        exact ⟨y, w, rfl, List.mem_cons_of_mem _ hy, List.mem_append_left _ hw⟩

/-- The updates of a loop may follow what its body has written. -/
theorem updates_settled {changed : List (VarId × Expr)} (hg : g.Settled c [] held s)
    (hheld : ∀ q ∈ changed, .var q.1 ∈ held ∧ q.2 ∈ held) :
    Triple (At f s) (updates changed)
      (fun code m => m.frame = f ∧ Frame.Settled c [] [] { g with code := g.code ++ code } m.scope) (fun _ => True) := by
  unfold updates
  split
  · rename_i x e
    obtain ⟨hx, he⟩ := hheld (x, e) List.mem_cons_self
    refine .pure (fun m hm => ⟨hm.1, ?_⟩)
    have hnow := hg.grow hm.2
    have hwritten := assign_settled hnow (hnow.vars_ready hx x List.mem_cons_self) (hnow.vars_ready he)
    refine hwritten.restack rfl (fun v hv => hwritten.ready v ?_)
    rw [Expr.varsAll_append]
    exact List.mem_append_right _ hv
  · refine .bind (temporaries_settled hg (fun q hq => (hheld q hq).2)) (fun r => .pure (fun m hm => ?_))
    obtain ⟨⟨hframe, -⟩, ts, hsettled, hmoves⟩ := hm
    have hwritten := moves_settled r.2 hsettled (fun t ht => by
      obtain ⟨x, u, rfl, hx, hu⟩ := hmoves t ht
      obtain ⟨q, hq, rfl⟩ := List.mem_map.1 hx
      refine ⟨q.1, u, rfl, Expr.mem_varsAll.2 ⟨.var q.1, ?_, List.mem_cons_self⟩, Expr.mem_varsAll.2 ⟨.var u, ?_, List.mem_cons_self⟩⟩
      · exact List.mem_append_right _ (hheld q hq).1
      · exact List.mem_append_left _ (List.mem_map_of_mem hu))
    refine ⟨hframe, hwritten.restack (by simp) (fun v hv => hwritten.ready v ?_)⟩
    rw [Expr.varsAll_append]
    exact List.mem_append_right _ hv

theorem loopTest_settled {x : Eval Unit} {start : List Expr} (hx : Uses [] x (fun _ => [])) (hf : f.Settled c [] held s) :
    Triple (fun m => m.frame = f ∧ m.scope = s) (loopTest x start)
      (fun r m => m.frame = f ∧ ∃ g : Frame, g.code = r.1 ∧ g.Settled (setting c f s) [] [] m.scope ∧
        ∀ v ∈ r.2.vars, g.Ready (setting c f s) [] m.scope v) (fun _ => True) := by
  rw [loopTest_eq]
  refine .bind (inNested_settled hx hf) (fun g => .pointwise (fun m hm => ?_))
  obtain ⟨hframe, hg⟩ := hm
  refine .pre (P := At f m.scope) ?_ (fun m' h => by rw [h]; exact ⟨hframe, .refl _⟩)
  refine .ite (fun _ => .throw (fun _ _ => trivial)) (fun _ => ?_)
  split
  · exact .throw (fun _ _ => trivial)
  rename_i value rest hstack
  refine .ite (fun _ => ?_) (fun _ => .throw (fun _ _ => trivial))
  refine .bind (check_at value .int "while$") (fun e => .ite (fun _ => ?_) (fun _ => .throw (fun _ _ => trivial)))
  refine .pure (fun m' h => ⟨h.2.1, g, rfl, hg.grow h.2.2, fun v hv => (hg.grow h.2.2).ready v ?_⟩)
  rw [h.1.1] at hv
  exact Expr.mem_varsAll.2 ⟨value, by rw [hstack]; exact List.mem_cons_self, hv⟩

theorem loopBody_settled {x : Eval Unit} {vs : List VarId} (hx : Uses [] x (fun _ => [])) (hf : f.Settled c [] held s)
    (hvs : f.stack = vs.map .var) :
    Triple (fun m => m.frame = f ∧ m.scope = s) (loopBody x vs)
      (fun code m => m.frame = f ∧ ∃ g : Frame, g.code = code ∧ g.Settled (setting c f s) [] [] m.scope) (fun _ => True) := by
  unfold loopBody
  refine .bind (inNested_settled hx hf) (fun g => .pointwise (fun m hm => ?_))
  obtain ⟨hframe, hg⟩ := hm
  refine .pre (P := At f m.scope) ?_ (fun m' h => by rw [h]; exact ⟨hframe, .refl _⟩)
  refine .ite (fun _ => .throw (fun _ _ => trivial)) (fun _ => .ite (fun _ => ?_) (fun _ => .throw (fun _ _ => trivial)))
  -- The loop variables are known from outside, so the updates may write them.
  have hheld : g.Settled (setting c f s) [] (vs.map .var ++ g.stack) m.scope := by
    refine hg.restack rfl (fun v hv => ?_)
    simp only [Expr.varsAll_append, List.mem_append] at hv
    rcases hv with (hv | hv) | hv
    · exact .inl (hf.ready v (by rw [Expr.varsAll_append, hvs]; exact List.mem_append_right _ hv))
    · exact hg.ready v hv
    · exact hg.ready v hv
  refine .bind (changedSlots_at vs g.stack) (fun changed => .pointwise (fun m₁ h₁ => ?_))
  obtain ⟨hchanged, -, hat⟩ := h₁
  refine .pre (P := At f m₁.scope) ?_ (fun m' h => by rw [h]; exact ⟨hat.1, .refl _⟩)
  refine .bind (updates_settled (hheld.grow hat.2) (fun q hq => ?_)) (fun code => .pure (fun m₂ h₂ => ⟨h₂.1, _, rfl, h₂.2⟩))
  have hzip := List.of_mem_zip ((hchanged q).1 hq).1
  exact ⟨List.mem_append_left _ (List.mem_map_of_mem hzip.1), List.mem_append_right _ hzip.2⟩

theorem uses_loop {run : Procedure → Eval Unit} (hrun : ∀ p, Uses [] (run p) (fun _ => [])) :
    Uses [] (loop run) (fun _ => []) := by
  intro c held
  unfold loop
  refine .bind (uses_popProcedure "while$" c held) (fun body => .bind (uses_popProcedure "while$" c held) (fun condition => ?_))
  refine .bind (spillAll_tidy "while$" c held) (fun vs => .pointwise (fun m hm => ?_))
  obtain ⟨hm, hstack⟩ := hm
  refine .pre (P := fun m' => m'.frame = m.frame ∧ m'.scope = m.scope) ?_ (fun m' h => by rw [h]; exact ⟨rfl, rfl⟩)
  refine .bind (loopTest_settled (hrun condition) hm) (fun r => .pointwise (fun m₁ h₁ => ?_))
  obtain ⟨hframe₁, gt, hsetup, ht, he⟩ := h₁
  refine .pre (P := fun m' => m'.frame = m.frame ∧ m'.scope = m₁.scope) ?_ (fun m' h => by rw [h]; exact ⟨hframe₁, rfl⟩)
  refine .bind (loopBody_settled (hrun body) (Frame.Settled.grow hm ht.grows) hstack) (fun code => .modify (fun m₂ h₂ => ?_))
  obtain ⟨hframe₂, gb, rfl, hb⟩ := h₂
  rw [← hsetup]
  unfold Tidy
  rw [hframe₂]
  exact loop_settled hm ht he hb

end Loop

/-! ## Whole bodies -/

theorem uses_callMethod (p : String) (ts : List Ty) (method : String) (t : Ty) :
    Uses [] (callMethod p ts method t) (fun _ => []) :=
  Uses.bind (r := []) (uses_popArgs p ts) (fun args => uses_push (by simp [Expr.vars_pureCall]))

theorem uses_callHelper (p : String) (ts : List Ty) (h : Helper) (t : Ty) : Uses [] (callHelper p ts h t) (fun _ => []) :=
  Uses.bind (u := []) (uses_link h) (fun _ => uses_callMethod p ts h.name t)

theorem uses_callWriter (p : String) (ts : List Ty) (method : String) : Uses [] (callWriter p ts method) (fun _ => []) :=
  Uses.bind (r := []) (uses_popArgs p ts) (fun args => uses_emit_eval (by simp [Expr.vars_effectCall]))

theorem uses_pushText (text : String) : Uses [] (pushText text) (fun _ => []) :=
  uses_push (List.nil_subset _)

/-- Two operands, and what is made of both. -/
theorem uses_operands {t : Ty} {p : String} {make : Expr → Expr → Expr} (hmake : ∀ l r, (make l r).vars = l.vars ++ r.vars) :
    Uses [] (do
      let right ← popTyped t p
      let left ← popTyped t p
      push (make left right)) (fun _ => []) := by
  refine Uses.bind (r := []) (uses_popTyped t p) (fun right => ?_)
  refine Uses.bind (u := []) (uses_popTyped t p) (fun left => uses_push (fun v hv => ?_))
  rw [hmake] at hv
  simpa [Expr.varsAll] using hv

theorem uses_equal : Uses [] equal (fun _ => []) := by
  unfold equal
  refine Uses.bind (r := []) (uses_popTyped .generic "=") (fun right => ?_)
  refine Uses.bind (u := []) (uses_tyOf right) (fun t => ?_)
  refine Uses.bind (u := []) (uses_popTyped t "=") (fun left => ?_)
  refine Uses.bind (u := []) (uses_tyOf left) (fun t' => ?_)
  refine Uses.weaken (u := [right] ++ [left]) ?_ (by simp [Expr.varsAll])
  refine Uses.bind (uses_check right t' "=" (by simp [Expr.varsAll])) (fun right' => uses_push ?_)
  simp [Expr.varsAll, Expr.vars_compare]

theorem uses_storeTop {target : Target} (htarget : ∀ x, target ≠ .var x) (t : Ty) :
    Uses [] (storeTop target t) (fun _ => []) := by
  refine Uses.bind (r := []) (uses_popTyped t ":=") (fun value => ?_)
  refine Uses.bind (u := []) (uses_spillWhere _) (fun _ => ?_)
  have hvalue : ∀ P : VarId → Prop, (∀ v ∈ Expr.varsAll ([] ++ ([value] ++ [])), P v) → ∀ v ∈ value.vars, P v :=
    fun P hP v hv => hP v (by simpa [Expr.varsAll] using hv)
  cases target with
  | var x => exact absurd rfl (htarget x)
  | global id => exact uses_emit rfl rfl (fun P hP => ⟨hvalue P hP, .assignGlobal (hvalue P hP)⟩)
  | entryVar n => exact uses_emit rfl rfl (fun P hP => ⟨hvalue P hP, .assignEntryVar (hvalue P hP)⟩)

theorem uses_assign (dict : Dictionary) : Uses [] (assign dict) (fun _ => []) := by
  unfold assign
  refine Uses.bind (r := []) (uses_popAs .generic) (fun e => ?_)
  split
  · split
    · exact .throw
    · rename_i target t hassign
      have hstore := uses_storeTop (assignable_target hassign) t
      refine Uses.weaken (u := []) ?_ (List.nil_subset _)
      dsimp only
      split
      · exact Uses.bind (u := []) uses_touchEntry (fun _ => hstore)
      · exact hstore
  · exact uses_mismatch _ _ _

theorem uses_missing : Uses [] missing (fun _ => []) := by
  unfold missing
  refine Uses.bind (r := []) (uses_popAs .generic) (fun e => ?_)
  refine Uses.bind (uses_check e .generic "missing$" (by simp [Expr.varsAll])) (fun e => ?_)
  split
  · exact Uses.bind (u := []) uses_touchEntry (fun _ => uses_push (List.nil_subset _))
  · intro c held
    refine .bind .get (fun m₀ => .pre (P := Tidy c ([e] ++ [] ++ held)) ?_ (fun m h => h.2))
    refine .ite (fun _ => ?_) (fun _ => uses_push (List.nil_subset _) c held)
    exact Uses.bind (u := []) (uses_link _) (fun _ => uses_push (by simp [Expr.vars_pureCall])) c held

theorem uses_callType : Uses [] callType (fun _ => []) := by
  unfold callType
  refine Uses.bind (u := []) (uses_link _) (fun _ => ?_)
  refine Uses.bind (u := []) (uses_spillWhere _) (fun _ => ?_)
  exact Uses.bind (u := []) uses_touchEntry (fun _ => uses_emit_eval (List.nil_subset _))

theorem uses_duplicate : Uses [] duplicate (fun _ => []) := by
  unfold duplicate
  refine Uses.bind (r := []) (uses_popAs .generic) (fun e => ?_)
  refine Uses.weaken (u := [e] ++ [e]) ?_ (by simp [Expr.varsAll])
  exact Uses.bind (uses_push (by simp [Expr.varsAll])) (fun _ => uses_push (by simp [Expr.varsAll]))

theorem uses_swap : Uses [] swap (fun _ => []) := by
  unfold swap
  refine Uses.bind (r := []) (uses_popAs .generic) (fun top => ?_)
  refine Uses.bind (u := []) (uses_popAs .generic) (fun below => ?_)
  refine Uses.weaken (u := [top] ++ [below]) ?_ (by simp [Expr.varsAll])
  exact Uses.bind (uses_push (by simp [Expr.varsAll])) (fun _ => uses_push (by simp [Expr.varsAll]))

theorem uses_invoke (s : Signature) {args used : List Expr} (hargs : Expr.varsAll args ⊆ Expr.varsAll used) :
    Uses used (invoke s args) (fun _ => []) := by
  have hvars : (Expr.call (.style s.method) args s.result true).vars ⊆ Expr.varsAll used := by
    rw [Expr.vars_call]
    exact hargs
  refine Uses.bind (u := []) (uses_spillWhere _) (fun _ => .ite (uses_emit_eval hvars) (uses_store hvars (fun v => ?_)))
  exact uses_push (by simp [Expr.varsAll])

theorem uses_callRoutine (name : String) (s : Signature) : Uses [] (callRoutine name s) (fun _ => []) := by
  rw [callRoutine_eq]
  refine Uses.bind (r := []) (uses_popArgs name s.params) (fun args => .ite ?_ (uses_invoke s (by simp)))
  refine Uses.bind (u := []) uses_touchEntry (fun _ => uses_invoke s ?_)
  show Expr.varsAll args ⊆ Expr.varsAll (args ++ [])
  rw [List.append_nil]
  exact fun v hv => hv

section Runs

variable {run : Procedure → Eval Unit} (hrun : ∀ p, Uses [] (run p) (fun _ => []))

include hrun

theorem uses_primitive (dict : Dictionary) (p : Primitive) : Uses [] (primitive dict run p) (fun _ => []) := by
  cases p with
  | branch => exact uses_branch hrun
  | loop => exact uses_loop hrun
  | add | sub | concat => exact uses_operands (Expr.vars_binary _)
  | lt | gt => exact uses_operands (Expr.vars_compare _)
  | eq => exact uses_equal
  | assign => exact uses_assign dict
  | callType => exact uses_callType
  | missing => exact uses_missing
  | clear => exact uses_clear
  | duplicate => exact uses_duplicate
  | swap => exact uses_swap
  | skip => exact Uses.pure (List.nil_subset _)
  | quote => exact uses_push (List.nil_subset _)
  | preamble => exact uses_pushText _
  | cite | entryType => exact Uses.bind (u := []) uses_touchEntry (fun _ => uses_pushText _)
  | pop | top => exact Uses.bind (r := []) (uses_popAs .generic) (fun _ => .pure (List.nil_subset _))
  | newline | warning | write => exact uses_callWriter _ _ _
  | changeCase | intToStr | purify | width => exact uses_callMethod _ _ _ _
  | addPeriod | chrToInt | empty | formatName | intToChr | numNames | substring | textLength | textPrefix =>
    exact uses_callHelper _ _ _ _

theorem uses_name (dict : Dictionary) (n : String) : Uses [] (name dict run n) (fun _ => []) := by
  have hleaf : ∀ e : Expr, e.vars = [] → Uses [] (push e) (fun _ => []) := fun e he =>
    uses_push (by rw [he]; exact List.nil_subset _)
  have hentry : ∀ e : Expr, e.vars = [] → Uses [] (do touchEntry; push e) (fun _ => []) := fun e he =>
    Uses.bind (u := []) uses_touchEntry (fun _ => hleaf e he)
  unfold name
  split
  · exact .throw
  · exact uses_primitive hrun dict _
  · exact uses_callRoutine _ _
  · exact hentry _ rfl
  · exact hleaf _ rfl
  · exact hleaf _ rfl
  · exact hentry _ rfl
  · exact hentry _ rfl
  · exact hleaf _ rfl

theorem uses_term (dict : Dictionary) (t : Term) : Uses [] (term dict run t) (fun _ => []) := by
  unfold term
  refine Uses.bind (u := []) (.modify (fun _ => rfl) (fun _ => .refl _)) (fun _ => ?_)
  cases t with
  | integer | string | quoted | block => exact uses_push (List.nil_subset _)
  | name n => exact uses_name hrun dict n
  | field | entryInteger | entryString => exact .throw

theorem uses_terms (dict : Dictionary) : ∀ ts : List Term, Uses [] (terms dict run ts) (fun _ => [])
  | [] => .pure (List.nil_subset _)
  | t :: ts => Uses.bind (u := []) (uses_term hrun dict t) (fun _ => uses_terms dict ts)

end Runs

theorem uses_procedure (dict : Dictionary) : ∀ (depth : Nat) (p : Procedure), Uses [] (procedure dict depth p) (fun _ => [])
  | 0, _ => .throw
  | depth + 1, .group g => uses_terms (uses_procedure dict depth) dict g.terms
  | depth + 1, .named n => uses_name (uses_procedure dict depth) dict n

/-- Outside any frame nothing is known. -/
def outermost : Setting :=
  ⟨.empty, fun _ => False⟩

theorem start_tidy (linkage : Linkage) (log : Array Event) : Tidy outermost [] (.start linkage log) where
  grows := .refl _
  known_old _ hv := hv.elim
  placed := trivial
  delivers := .nil (fun v hv => by cases hv.1)
  once := .nil
  fresh v hv := by cases hv
  ready v hv := by cases hv

/-- What a frame in order has written is well placed, and so is anything on its stack as a result. -/
theorem Tidy.wellPlaced {m : Machine} {result : Option Expr} (h : Tidy outermost [] m)
    (hresult : ∀ e ∈ result, e ∈ m.frame.stack) : Block.WellPlaced m.scope.IsParam m.frame.code result := by
  have hknown : ∀ v, outermost.known v ∨ m.scope.IsParam v → m.scope.IsParam v := fun v hv => hv.resolve_left id
  have hready : ∀ e ∈ result, ∀ v ∈ e.vars, m.scope.IsParam v ∨ v ∈ Stmt.introducesAll m.frame.code := by
    intro e he v hv
    rcases h.ready v (Expr.mem_varsAll.2 ⟨e, hresult e he, hv⟩) with hv | hv | hv
    · exact hv.elim
    · exact .inl hv
    · exact .inr hv.1
  refine ⟨h.once, Stmt.placedAll_mono hknown _ h.placed, hready, fun tr htr => ?_⟩
  obtain ⟨hsafe, hmarks⟩ := (h.delivers_ready.mono hknown (fun _ hv => hv)) tr htr
  refine safe_append.2 ⟨hsafe, ?_⟩
  cases result with
  | none => trivial
  | some e => exact safe_loads.2 (fun v hv => hmarks v (h.ready v (Expr.mem_varsAll.2 ⟨e, hresult e rfl, hv⟩)))

theorem routine_tidy (dict : Dictionary) (depth : Nat) (function method : String) (body : Group) :
    Triple (fun m => Tidy outermost [] m.cleared) (routine dict depth function method body)
      (fun r _ => r.WellPlaced) (fun _ => True) := by
  refine .routine (uses_terms (uses_procedure dict depth) dict body.terms outermost []) (fun _ _ _ _ => trivial) ?_
  intro m value hm hvalue
  have hnamed : Tidy outermost [] { m with vars := .of m.scope.named } := hm.grow rfl (.of_eq m.scope.origin?_named)
  refine ⟨fun v hv => ?_, fun v hv => ?_, ?_⟩
  · exact Scope.not_isLocal_of_isParam (Scope.mem_params.1 hv)
  · exact Scope.isLocal_iff.2 (hnamed.fresh v hv).2
  · have hparams : (· ∈ m.scope.named.params) = m.scope.named.IsParam := funext (fun v => propext Scope.mem_params)
    have hplaced : Block.WellPlaced m.scope.named.IsParam m.frame.code value := hnamed.wellPlaced (result_mem hvalue)
    rw [← hparams] at hplaced
    exact hplaced

/-- **Locals are well placed.**  In every method that a body compiles to, and in what the reduction makes of it, each
local is declared at most once, is read and assigned only where its declaration is seen, and holds a value on every path
on which it is read; all other variables are parameters. -/
theorem routine_wellPlaced {dict : Dictionary} {depth : Nat} {function method : String} {body : Group} {vars : Variables}
    {linkage : Linkage} {log : Array Event} {r : Routine} {m : Machine}
    (h : routine dict depth function method body (.ready vars linkage log) = .ok r m) : r.WellPlaced ∧ r.reduce.WellPlaced := by
  have hplaced : r.WellPlaced :=
    (routine_tidy dict depth function method body).ok (m := .ready vars linkage log) (start_tidy linkage log) h
  exact ⟨hplaced, hplaced.reduce⟩

/-- Appends a letter to a string as often as the number above it says, and gives another string if none is left. -/
def padding : Group where
  terms :=
    let place : Span := ⟨"", 1, 1, 1, 1⟩
    [.name "swap$" place, .name "swap$" place,
     .block [.name "duplicate$" place, .integer 0 place, .name ">" place] place,
     .block [.integer 1 place, .name "-" place, .name "swap$" place, .string "x" place, .name "*" place,
       .name "swap$" place] place,
     .name "while$" place, .name "pop$" place, .name "duplicate$" place, .name "empty$" place,
     .block [.name "pop$" place, .string "none" place] place, .block [] place, .name "if$" place]
  span := ⟨"", 1, 1, 1, 1⟩

theorem routine_wellPlaced_padding :
    ∃ r m, routine .initial 1 "pad" "pad" padding (.start .empty #[]) = .ok r m ∧
      Stmt.declaresAll r.body = [2, 3, 4, 5, 6] ∧ r.WellPlaced ∧ r.reduce.WellPlaced := by
  have hcompiles : (match routine .initial 1 "pad" "pad" padding (.start .empty #[]) with
      | .ok r _ => decide (Stmt.declaresAll r.body = [2, 3, 4, 5, 6])
      | .error _ _ => false) = true := by decide +kernel
  cases hr : routine .initial 1 "pad" "pad" padding (.start .empty #[]) with
  | error e m => rw [hr] at hcompiles; cases hcompiles
  | ok r m =>
    rw [hr] at hcompiles
    exact ⟨r, m, rfl, of_decide_eq_true hcompiles, routine_wellPlaced hr⟩

end Eval

end Bibstyle
