import Bibstyle.Reduction.Fixpoint
/-!
# Acts — the single things that code does

Statements nest, but what they do can be laid out in a row: every value that is evaluated, stored or tested, at any depth.
So a property of code that looks at one act at a time says nothing about nesting.  The reduction keeps such a property if
constants may be computed inside an act, and if a store may become the bare evaluation of its value.  The same goes for
expressions, where the single things are their nodes.
-/
namespace Bibstyle

/-- **One thing that code does.** -/
inductive Act where
  | eval (value : Expr)
  | declare (id : VarId) (init : Option Expr)
  | assign (target : Target) (value : Expr)
  | test (condition : Expr)

namespace Act

/-- The expression of an act, if it has one. -/
def expr? : Act → Option Expr
  | eval e | assign _ e | test e => some e
  | declare _ init => init

def map (f : Expr → Expr) : Act → Act
  | eval e => eval (f e)
  | declare v init => declare v (init.map f)
  | assign t e => assign t (f e)
  | test e => test (f e)

/-- **What may be left of an act**: all of it, or the evaluation of what it stores in a variable. -/
inductive Leaves : Act → Act → Prop where
  | all (a : Act) : Leaves a a
  | declared (v : VarId) (e : Expr) : Leaves (declare v (some e)) (eval e)
  | assigned (v : VarId) (e : Expr) : Leaves (assign (.var v) e) (eval e)

theorem expr?_map (f : Expr → Expr) (a : Act) : (a.map f).expr? = a.expr?.map f := by
  cases a <;> rfl

/-- What is left of an act has its expression. -/
theorem Leaves.expr?_eq {a b : Act} (h : a.Leaves b) : b.expr? = a.expr? := by
  cases h <;> rfl

end Act

namespace Stmt

mutual

/-- **The acts of a statement**, at any depth, each with whether it is done for some entry. -/
def acts (bound : Bool) : Stmt → List (Bool × Act)
  | eval e => [(bound, .eval e)]
  | declare v init => [(bound, .declare v init)]
  | assign t e => [(bound, .assign t e)]
  | branch c yes no => (bound, .test c) :: (actsAll bound yes ++ actsAll bound no)
  | loop setup c body => (bound, .test c) :: (actsAll bound setup ++ actsAll bound body)
  | each _ body => actsAll true body
  | comment _ => []

def actsAll (bound : Bool) : List Stmt → List (Bool × Act)
  | [] => []
  | t :: ts => acts bound t ++ actsAll bound ts

end

mutual

/-- **A statement and all statements below it.** -/
def parts : Stmt → List Stmt
  | branch c yes no => branch c yes no :: (partsAll yes ++ partsAll no)
  | loop setup c body => loop setup c body :: (partsAll setup ++ partsAll body)
  | each reverse body => each reverse body :: partsAll body
  | t => [t]

def partsAll : List Stmt → List Stmt
  | [] => []
  | t :: ts => parts t ++ partsAll ts

end

theorem actsAll_append (bound : Bool) : ∀ a b : List Stmt, actsAll bound (a ++ b) = actsAll bound a ++ actsAll bound b
  | [], b => rfl
  | t :: a, b => by rw [List.cons_append, actsAll, actsAll, actsAll_append bound a b, List.append_assoc]

theorem actsAll_single (bound : Bool) (t : Stmt) : actsAll bound [t] = acts bound t :=
  List.append_nil _

theorem append_subset_append {α : Type} {a a' b b' : List α} (ha : a' ⊆ a) (hb : b' ⊆ b) : a' ++ b' ⊆ a ++ b :=
  List.append_subset.2 ⟨List.subset_append_of_subset_left _ ha, List.subset_append_of_subset_right _ hb⟩

mutual

/-- Code that is done for entries does the same acts, each for some entry. -/
theorem acts_true : ∀ t : Stmt, acts true t = (acts false t).map (fun q => (true, q.2))
  | eval _ | declare _ _ | assign _ _ | comment _ => rfl
  | branch c yes no => by
    rw [acts, acts, actsAll_true yes, actsAll_true no, List.map_cons, List.map_append]
  | loop setup c body => by
    rw [acts, acts, actsAll_true setup, actsAll_true body, List.map_cons, List.map_append]
  | each reverse body => by
    rw [acts, acts, actsAll_true body, List.map_map]
    rfl

theorem actsAll_true : ∀ b : List Stmt, actsAll true b = (actsAll false b).map (fun q => (true, q.2))
  | [] => rfl
  | t :: ts => by rw [actsAll, actsAll, acts_true t, actsAll_true ts, List.map_append]

end

/-! ## Passes over statements -/

mutual

theorem acts_map (f : Expr → Expr) (bound : Bool) : ∀ t : Stmt,
    acts bound (map f t) = (acts bound t).map (fun q => (q.1, q.2.map f))
  | eval _ | declare _ _ | assign _ _ | comment _ => rfl
  | branch c yes no => by
    rw [map, acts, acts, actsAll_mapAll f bound yes, actsAll_mapAll f bound no, List.map_cons, List.map_append]
    rfl
  | loop setup c body => by
    rw [map, acts, acts, actsAll_mapAll f bound setup, actsAll_mapAll f bound body, List.map_cons, List.map_append]
    rfl
  | each reverse body => actsAll_mapAll f true body

theorem actsAll_mapAll (f : Expr → Expr) (bound : Bool) : ∀ b : List Stmt,
    actsAll bound (mapAll f b) = (actsAll bound b).map (fun q => (q.1, q.2.map f))
  | [] => rfl
  | t :: ts => by rw [mapAll, actsAll, actsAll, acts_map f bound t, actsAll_mapAll f bound ts, List.map_append]

end

mutual

/-- Pruning adds no act. -/
theorem acts_prune (bound : Bool) : ∀ t : Stmt, actsAll bound (prune t).block ⊆ acts bound t
  | eval _ | declare _ _ | assign _ _ | comment _ => by simp [prune, Pass.keep, actsAll_single]
  | branch c yes no => by
    have hyes := actsAll_pruneAll bound yes
    have hno := actsAll_pruneAll bound no
    rw [prune, acts]
    split
    · split
      · exact List.subset_cons_of_subset _ (List.subset_append_of_subset_left _ hyes)
      · exact List.subset_cons_of_subset _ (List.subset_append_of_subset_right _ hno)
    · split
      · exact List.nil_subset _
      · rw [actsAll_single, acts]
        exact List.cons_subset_cons _ (append_subset_append hyes hno)
  | loop setup c body => by
    have hsetup := actsAll_pruneAll bound setup
    have hbody := actsAll_pruneAll bound body
    rw [prune, acts]
    split
    · exact List.nil_subset _
    · rw [actsAll_single, acts]
      exact List.cons_subset_cons _ (append_subset_append hsetup hbody)
  | each reverse body => by
    rw [prune, actsAll_single]
    exact actsAll_pruneAll true body

theorem actsAll_pruneAll (bound : Bool) : ∀ b : List Stmt, actsAll bound (pruneAll b).block ⊆ actsAll bound b
  | [] => List.Subset.refl _
  | t :: ts => by
    rw [pruneAll, Pass.append, actsAll_append, actsAll]
    exact append_subset_append (acts_prune bound t) (actsAll_pruneAll bound ts)

end

/-- Acts that are left of others. -/
def LeftOf (before after : List (Bool × Act)) : Prop :=
  ∀ q ∈ after, ∃ a, (q.1, a) ∈ before ∧ a.Leaves q.2

theorem LeftOf.refl (qs : List (Bool × Act)) : LeftOf qs qs :=
  fun q hq => ⟨q.2, hq, .all q.2⟩

theorem LeftOf.append {a a' b b' : List (Bool × Act)} (ha : LeftOf a a') (hb : LeftOf b b') : LeftOf (a ++ b) (a' ++ b') := by
  intro q hq
  rcases List.mem_append.1 hq with hq | hq
  · obtain ⟨x, hx, hleaves⟩ := ha q hq
    exact ⟨x, List.mem_append_left _ hx, hleaves⟩
  · obtain ⟨x, hx, hleaves⟩ := hb q hq
    exact ⟨x, List.mem_append_right _ hx, hleaves⟩

theorem LeftOf.cons {a a' : List (Bool × Act)} (q : Bool × Act) (h : LeftOf a a') : LeftOf (q :: a) (q :: a') :=
  LeftOf.append (LeftOf.refl [q]) h

theorem leftOf_residue {bound : Bool} {a : Act} {e : Expr} (h : a.Leaves (.eval e)) :
    LeftOf [(bound, a)] (actsAll bound (residue e)) := by
  unfold residue
  split
  · exact nofun
  · intro q hq
    obtain rfl := List.mem_singleton.1 hq
    exact ⟨a, List.mem_cons_self, h⟩

mutual

/-- Sweeping leaves acts, or the evaluations of what they store. -/
theorem acts_sweep (dead : VarId → Bool) (bound : Bool) : ∀ t : Stmt, LeftOf (acts bound t) (actsAll bound (sweep dead t).block)
  | eval _ | comment _ | assign (.global _) _ | assign (.entryVar _) _ => by
    rw [sweep, Pass.keep, actsAll_single]
    · exact .refl _
    all_goals exact nofun
  | declare v none => by
    rw [sweep]
    split
    · exact nofun
    · exact .refl _
  | declare v (some e) => by
    rw [sweep]
    split
    · exact leftOf_residue (.declared v e)
    · exact .refl _
  | assign (.var v) e => by
    rw [sweep]
    split
    · exact leftOf_residue (.assigned v e)
    · exact .refl _
  | branch c yes no => by
    rw [sweep, actsAll_single, acts, acts]
    exact .cons _ (.append (actsAll_sweepAll dead bound yes) (actsAll_sweepAll dead bound no))
  | loop setup c body => by
    rw [sweep, actsAll_single, acts, acts]
    exact .cons _ (.append (actsAll_sweepAll dead bound setup) (actsAll_sweepAll dead bound body))
  | each reverse body => by
    rw [sweep, actsAll_single]
    exact actsAll_sweepAll dead true body

theorem actsAll_sweepAll (dead : VarId → Bool) (bound : Bool) : ∀ b : List Stmt,
    LeftOf (actsAll bound b) (actsAll bound (sweepAll dead b).block)
  | [] => .refl _
  | t :: ts => by
    rw [sweepAll, Pass.append, actsAll_append, actsAll]
    exact .append (acts_sweep dead bound t) (actsAll_sweepAll dead bound ts)

end

end Stmt

/-- **A property of acts that the reduction keeps.** -/
structure Act.Stable (P : Bool → Act → Prop) : Prop where
  fold : ∀ bound a, P bound a → P bound (a.map Expr.fold)
  leaves : ∀ bound a b, a.Leaves b → P bound a → P bound b

section Stable

variable {P : Bool → Act → Prop} {bound : Bool}

theorem Act.Stable.settle (hP : Act.Stable P) {s : Scope} {result : Option Expr} {b : Block}
    (h : ∀ q ∈ Stmt.actsAll bound b, P q.1 q.2) : ∀ q ∈ Stmt.actsAll bound (Block.settle s result b), P q.1 q.2 := by
  refine Block.settle_keeps (P := fun b => ∀ q ∈ Stmt.actsAll bound b, P q.1 q.2) (fun b h q hq => ?_) h
  obtain ⟨a, ha, hleaves⟩ := Stmt.actsAll_sweepAll _ bound _ q hq
  exact hP.leaves q.1 a q.2 hleaves (h _ (Stmt.actsAll_pruneAll bound b ha))

/-- **What holds of every act of a method holds after its reduction.** -/
theorem Act.Stable.reduce (hP : Act.Stable P) {r : Routine} (h : ∀ q ∈ Stmt.actsAll bound r.body, P q.1 q.2) :
    ∀ q ∈ Stmt.actsAll bound r.reduce.body, P q.1 q.2 := by
  refine hP.settle (fun q hq => ?_)
  rw [Stmt.actsAll_mapAll] at hq
  obtain ⟨p, hp, rfl⟩ := List.mem_map.1 hq
  exact hP.fold _ _ (h p hp)

end Stable

/-! ## Expressions -/

namespace Expr

theorem mem_nodesAll {x : Expr} : ∀ {es : List Expr}, x ∈ nodesAll es ↔ ∃ e ∈ es, x ∈ e.nodes
  | [] => by simp [nodesAll]
  | e :: es => by simp [nodesAll, mem_nodesAll]

theorem foldAll_eq_map : ∀ es : List Expr, foldAll es = es.map fold
  | [] => rfl
  | e :: es => by rw [foldAll, foldAll_eq_map es, List.map_cons]

theorem ty_foldBinary (s : Scope) (op : BinaryOp) (l r : Expr) : (foldBinary op l r).ty s = (binary op l r).ty s := by
  unfold foldBinary
  split <;> first | rfl | (split <;> rfl)

theorem ty_foldCompare (s : Scope) (op : CompareOp) (l r : Expr) : (foldCompare op l r).ty s = .int := by
  unfold foldCompare
  split <;> rfl

/-- **Computing constants keeps the type** of an expression. -/
theorem ty_fold (s : Scope) (e : Expr) : (fold e).ty s = e.ty s := by
  cases e with
  | binary op l r =>
    rw [fold, ty_foldBinary]
    cases op <;> rfl
  | compare op l r => exact ty_foldCompare s op _ _
  | _ => rfl

/-- **A property of nodes that computing constants keeps.** -/
structure Stable (P : Expr → Prop) : Prop where
  int : ∀ n, P (int n)
  str : ∀ s, P (str s)
  call : ∀ c args t effect, P (call c args t effect) → P (call c (foldAll args) t effect)
  binary : ∀ op l r, P (binary op l r) → P (binary op (fold l) (fold r))
  compare : ∀ op l r, P (compare op l r) → P (compare op (fold l) (fold r))
  join : ∀ e a b, P (Expr.binary .concat e (Expr.str a)) → P (Expr.binary .concat e (Expr.str b))

namespace Stable

variable {P : Expr → Prop}

theorem foldBinary (hP : Stable P) {op : BinaryOp} {l r : Expr} (h : P (.binary op l r)) (hl : ∀ x ∈ l.nodes, P x)
    (hr : ∀ x ∈ r.nodes, P x) : ∀ x ∈ (foldBinary op l r).nodes, P x := by
  have hsame : ∀ x ∈ (Expr.binary op l r).nodes, P x :=
    List.forall_mem_cons.2 ⟨h, List.forall_mem_append.2 ⟨hl, hr⟩⟩
  unfold Expr.foldBinary
  split
  · split
    · exact List.forall_mem_singleton.2 (hP.int _)
    · exact hsame
  · split
    · exact List.forall_mem_singleton.2 (hP.int _)
    · exact hsame
  · exact List.forall_mem_singleton.2 (hP.str _)
  · -- the inner join is a node of its own, and so is what it begins with
    rename_i e a b
    rw [nodes, List.forall_mem_cons, List.forall_mem_append] at hl
    rw [nodes, List.forall_mem_cons, List.forall_mem_append]
    exact ⟨hP.join e a (a ++ b) hl.1, hl.2.1, List.forall_mem_singleton.2 (hP.str _)⟩
  · exact hsame

theorem foldCompare (hP : Stable P) {op : CompareOp} {l r : Expr} (h : P (.compare op l r)) (hl : ∀ x ∈ l.nodes, P x)
    (hr : ∀ x ∈ r.nodes, P x) : ∀ x ∈ (foldCompare op l r).nodes, P x := by
  unfold Expr.foldCompare
  split
  · exact List.forall_mem_singleton.2 (hP.int _)
  · exact List.forall_mem_singleton.2 (hP.int _)
  · exact List.forall_mem_singleton.2 (hP.int _)
  · exact List.forall_mem_singleton.2 (hP.int _)
  · exact List.forall_mem_cons.2 ⟨h, List.forall_mem_append.2 ⟨hl, hr⟩⟩

mutual

/-- **What holds of every node of an expression holds after its constants are computed.** -/
theorem fold (hP : Stable P) : ∀ {e : Expr}, (∀ x ∈ e.nodes, P x) → ∀ x ∈ (Expr.fold e).nodes, P x
  | .call c args t effect, h => by
    rw [nodes, List.forall_mem_cons] at h
    rw [Expr.fold, nodes, List.forall_mem_cons]
    exact ⟨hP.call c args t effect h.1, foldAll hP h.2⟩
  | .binary op l r, h => by
    rw [nodes, List.forall_mem_cons, List.forall_mem_append] at h
    exact hP.foldBinary (hP.binary op l r h.1) (fold hP h.2.1) (fold hP h.2.2)
  | .compare op l r, h => by
    rw [nodes, List.forall_mem_cons, List.forall_mem_append] at h
    exact hP.foldCompare (hP.compare op l r h.1) (fold hP h.2.1) (fold hP h.2.2)
  | .int _, h | .str _, h | .quoted _, h | .var _, h | .global _ _, h | .field _, h | .entryVar _ _, h | .entry, h
  | .verbatim _ _, h | .block _, h => h

theorem foldAll (hP : Stable P) : ∀ {es : List Expr}, (∀ x ∈ nodesAll es, P x) → ∀ x ∈ nodesAll (Expr.foldAll es), P x
  | [], h => h
  | e :: es, h => by
    rw [nodesAll, List.forall_mem_append] at h
    rw [Expr.foldAll, nodesAll, List.forall_mem_append]
    exact ⟨fold hP h.1, foldAll hP h.2⟩

end

end Stable
end Expr

/-- **The signature of a method does not depend on its reduction.** -/
theorem Routine.signature_reduce (r : Routine) : r.reduce.signature = r.signature := by
  have hreturn : r.reduce.returnType = r.returnType := by
    unfold returnType
    have hresult : r.reduce.result = r.result.map Expr.fold := rfl
    rw [hresult]
    cases r.result with
    | none => rfl
    | some e => exact Expr.ty_fold r.scope e
  unfold signature
  rw [hreturn]
  rfl

end Bibstyle
