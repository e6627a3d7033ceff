import Bibstyle.Proofs.Reduction
/-!
# Placement — where locals are declared, stored and read

A declaration reaches to the end of its block and into the blocks nested there; what the setup of a loop declares reaches
into the test and the body too.  Along a run variables are touched: a declaration opens a variable, which holds nothing
then, and stores and loads follow.  A trail is what a run may touch if every test can come out either way.  It can leave
a loop at each test, so whatever a run touches, ended or not, is the beginning of a trail.

Reducing a method leaves fewer declarations and fewer touches.  Every trail of the reduced method is one of the method
with loads and touches of dead variables left out, which is why nothing is loaded too early that was not before.
-/
namespace Bibstyle

/-! ## Declarations -/

namespace Stmt

mutual

/-- All variables declared in a statement, and in the blocks it holds. -/
def declares : Stmt → List VarId
  | declare v _ => [v]
  | branch _ yes no => declaresAll yes ++ declaresAll no
  | loop setup _ body => declaresAll setup ++ declaresAll body
  | each _ body => declaresAll body
  | eval _ | assign _ _ | comment _ => []

def declaresAll : List Stmt → List VarId
  | [] => []
  | t :: ts => declares t ++ declaresAll ts

end

/-- What a statement declares for those after it in its block. -/
def introduces : Stmt → List VarId
  | declare v _ => [v]
  | _ => []

def introducesAll (b : List Stmt) : List VarId :=
  b.flatMap introduces

mutual

/-- **Every variable that a statement reads or assigns is known**, or declared before it in its block or a block around it. -/
def Placed (known : VarId → Prop) : Stmt → Prop
  | eval e | declare _ (some e) | assign (.global _) e | assign (.entryVar _) e => ∀ v ∈ e.vars, known v
  | assign (.var x) e => known x ∧ ∀ v ∈ e.vars, known v
  | branch c yes no => (∀ v ∈ c.vars, known v) ∧ PlacedAll known yes ∧ PlacedAll known no
  | loop setup c body =>
    PlacedAll known setup ∧ (∀ v ∈ c.vars, known v ∨ v ∈ introducesAll setup) ∧
      PlacedAll (fun v => known v ∨ v ∈ introducesAll setup) body
  | each _ body => PlacedAll known body
  | declare _ none | comment _ => True

def PlacedAll (known : VarId → Prop) : List Stmt → Prop
  | [] => True
  | t :: ts => Placed known t ∧ PlacedAll (fun v => known v ∨ v ∈ introduces t) ts

end

theorem introducesAll_cons (t : Stmt) (ts : List Stmt) : introducesAll (t :: ts) = introduces t ++ introducesAll ts := rfl

theorem introducesAll_append (a b : List Stmt) : introducesAll (a ++ b) = introducesAll a ++ introducesAll b :=
  List.flatMap_append

theorem declaresAll_append : ∀ a b : List Stmt, declaresAll (a ++ b) = declaresAll a ++ declaresAll b
  | [], _ => rfl
  | t :: a, b => by rw [List.cons_append, declaresAll, declaresAll, declaresAll_append a b, List.append_assoc]

theorem introduces_subset (t : Stmt) : introduces t ⊆ declares t := by
  intro v hv
  cases t with
  | declare x init => exact hv
  | _ => cases hv

theorem introducesAll_subset : ∀ b : List Stmt, introducesAll b ⊆ declaresAll b
  | [], _, hv => hv
  | t :: ts, v, hv => by
    rw [introducesAll_cons, List.mem_append] at hv
    rw [declaresAll, List.mem_append]
    exact hv.imp (fun h => introduces_subset t h) (fun h => introducesAll_subset ts h)

mutual

theorem placed_mono {k k' : VarId → Prop} (h : ∀ v, k v → k' v) : ∀ t : Stmt, Placed k t → Placed k' t
  | eval _, ht | declare _ (some _), ht | assign (.global _) _, ht | assign (.entryVar _) _, ht =>
    fun v hv => h v (ht v hv)
  | assign (.var x) _, ht => ⟨h x ht.1, fun v hv => h v (ht.2 v hv)⟩
  | branch _ yes no, ht =>
    ⟨fun v hv => h v (ht.1 v hv), placedAll_mono h yes ht.2.1, placedAll_mono h no ht.2.2⟩
  | loop setup _ body, ht =>
    ⟨placedAll_mono h setup ht.1, fun v hv => (ht.2.1 v hv).imp_left (h v),
      placedAll_mono (fun v => Or.imp_left (h v)) body ht.2.2⟩
  | each _ body, ht => placedAll_mono h body ht
  | declare _ none, _ | comment _, _ => trivial

theorem placedAll_mono {k k' : VarId → Prop} (h : ∀ v, k v → k' v) : ∀ b : List Stmt, PlacedAll k b → PlacedAll k' b
  | [], _ => trivial
  | t :: ts, hb => ⟨placed_mono h t hb.1, placedAll_mono (fun v => Or.imp_left (h v)) ts hb.2⟩

end

theorem placedAll_append : ∀ {k : VarId → Prop} {a b : List Stmt},
    PlacedAll k (a ++ b) ↔ PlacedAll k a ∧ PlacedAll (fun v => k v ∨ v ∈ introducesAll a) b
  | k, [], b => by simp [PlacedAll, introducesAll]
  | k, t :: a, b => by
    rw [List.cons_append, PlacedAll, PlacedAll, placedAll_append (a := a), and_assoc]
    have hsets : (fun v => (k v ∨ v ∈ introduces t) ∨ v ∈ introducesAll a) = fun v => k v ∨ v ∈ introducesAll (t :: a) := by
      funext v
      rw [introducesAll_cons, List.mem_append, or_assoc]
    rw [hsets]

theorem placedAll_single {k : VarId → Prop} {t : Stmt} : PlacedAll k [t] ↔ Placed k t := by
  simp [PlacedAll]

end Stmt

/-! ## Trails -/

/-- **What happens to a variable**: it is declared, gets a value, or is read. -/
inductive Touch where
  | opens (v : VarId)
  | stores (v : VarId)
  | loads (v : VarId)
  deriving DecidableEq

def Touch.var : Touch → VarId
  | opens v | stores v | loads v => v

/-- The loads of an expression, in order. -/
def Expr.loads (e : Expr) : List Touch :=
  e.vars.map .loads

/-- The loads of a result, if there is one. -/
def Expr.resultLoads : Option Expr → List Touch
  | some e => e.loads
  | none => []

/-- **What running something may touch**, whichever way its tests come out. -/
inductive Trail : Job → List Touch → Prop where
  | eval {e} : Trail (.stmt (.eval e)) e.loads
  | declare {x} : Trail (.stmt (.declare x none)) [.opens x]
  | init {x e} : Trail (.stmt (.declare x (some e))) (e.loads ++ [.opens x, .stores x])
  | store {x e} : Trail (.stmt (.assign (.var x) e)) (e.loads ++ [.stores x])
  | global {n e} : Trail (.stmt (.assign (.global n) e)) e.loads
  | entryVar {n e} : Trail (.stmt (.assign (.entryVar n) e)) e.loads
  | yes {c yes no tr} (h : Trail (.block yes) tr) : Trail (.stmt (.branch c yes no)) (c.loads ++ tr)
  | no {c yes no tr} (h : Trail (.block no) tr) : Trail (.stmt (.branch c yes no)) (c.loads ++ tr)
  | done {setup c body tr} (h : Trail (.block setup) tr) : Trail (.stmt (.loop setup c body)) (tr ++ c.loads)
  | again {setup c body a b rest} (hs : Trail (.block setup) a) (hb : Trail (.block body) b)
    (hr : Trail (.stmt (.loop setup c body)) rest) : Trail (.stmt (.loop setup c body)) (a ++ c.loads ++ b ++ rest)
  | each {reverse es body tr} (h : Trail (.entries es body) tr) : Trail (.stmt (.each reverse body)) tr
  | comment {text} : Trail (.stmt (.comment text)) []
  | nil : Trail (.block []) []
  | cons {t ts a b} (h : Trail (.stmt t) a) (hs : Trail (.block ts) b) : Trail (.block (t :: ts)) (a ++ b)
  | noEntry {b} : Trail (.entries [] b) []
  | nextEntry {e es body a b} (h : Trail (.block body) a) (hs : Trail (.entries es body) b) :
    Trail (.entries (e :: es) body) (a ++ b)

/-- **Every variable holds a value when it is loaded**, if those in `held` do at the beginning.  A variable that is
declared once more holds none until the next store. -/
def Safe (held : VarId → Prop) : List Touch → Prop
  | [] => True
  | .opens v :: tr => Safe (fun x => x ≠ v ∧ held x) tr
  | .stores v :: tr => Safe (fun x => x = v ∨ held x) tr
  | .loads v :: tr => held v ∧ Safe held tr

/-- The variables that hold a value at the end. -/
def marks (held : VarId → Prop) : List Touch → VarId → Prop
  | [] => held
  | .opens v :: tr => marks (fun x => x ≠ v ∧ held x) tr
  | .stores v :: tr => marks (fun x => x = v ∨ held x) tr
  | .loads _ :: tr => marks held tr

/-- **Statements and a result whose variables are well placed**, if those in `known` are known and hold values before. -/
structure Block.WellPlaced (known : VarId → Prop) (b : Block) (result : Option Expr) : Prop where
  once : (Stmt.declaresAll b).Nodup
  placed : Stmt.PlacedAll known b
  resultPlaced : ∀ e ∈ result, ∀ v ∈ e.vars, known v ∨ v ∈ Stmt.introducesAll b
  safe : ∀ tr, Trail (.block b) tr → Safe known (tr ++ Expr.resultLoads result)

/-- **A method whose variables are well placed.**  Every variable it reads or assigns is a parameter, or a local that is
declared exactly once, before, in the same block or one around it; and on every trail a local gets a value before it is
loaded. -/
structure Routine.WellPlaced (r : Routine) : Prop where
  params_not_local : ∀ v ∈ r.params, r.scope.isLocal v = false
  declares_local : ∀ v ∈ Stmt.declaresAll r.body, r.scope.isLocal v = true
  block : Block.WellPlaced (· ∈ r.params) r.body r.result

/-! ## Trails in parts -/

theorem safe_append : ∀ {held : VarId → Prop} {a b : List Touch},
    Safe held (a ++ b) ↔ Safe held a ∧ Safe (marks held a) b
  | _, [], _ => by simp [Safe, marks]
  | _, .opens _ :: a, _ | _, .stores _ :: a, _ => by
    simp only [List.cons_append, Safe, marks]
    exact safe_append (a := a)
  | _, .loads _ :: a, _ => by
    simp only [List.cons_append, Safe, marks]
    rw [safe_append (a := a), and_assoc]

theorem marks_append : ∀ {held : VarId → Prop} {a b : List Touch}, marks held (a ++ b) = marks (marks held a) b
  | _, [], _ => rfl
  | _, .opens _ :: a, _ | _, .stores _ :: a, _ | _, .loads _ :: a, _ => marks_append (a := a)

theorem safe_loads {held : VarId → Prop} {e : Expr} : Safe held e.loads ↔ ∀ v ∈ e.vars, held v := by
  rw [Expr.loads]
  induction e.vars with
  | nil => simp [Safe]
  | cons v vs ih => rw [List.map_cons, Safe, ih, List.forall_mem_cons]

theorem marks_loads {held : VarId → Prop} {e : Expr} : marks held e.loads = held := by
  rw [Expr.loads]
  induction e.vars with
  | nil => rfl
  | cons v vs ih => rw [List.map_cons, marks, ih]

theorem Trail.append {a b : Block} {ta tb : List Touch} (ha : Trail (.block a) ta) (hb : Trail (.block b) tb) :
    Trail (.block (a ++ b)) (ta ++ tb) := by
  induction a generalizing ta with
  | nil => cases ha; exact hb
  | cons t ts ih =>
    cases ha with
    | cons h hs => rw [List.append_assoc]; exact .cons h (ih hs)

theorem Trail.split {a b : Block} {tr : List Touch} (h : Trail (.block (a ++ b)) tr) :
    ∃ ta tb, Trail (.block a) ta ∧ Trail (.block b) tb ∧ tr = ta ++ tb := by
  induction a generalizing tr with
  | nil => exact ⟨[], tr, .nil, h, rfl⟩
  | cons t ts ih =>
    cases h with
    | cons h hs =>
      obtain ⟨ta, tb, hta, htb, rfl⟩ := ih hs
      exact ⟨_, tb, .cons h hta, htb, (List.append_assoc _ _ _).symm⟩

theorem trail_single {t : Stmt} {tr : List Touch} : Trail (.block [t]) tr ↔ Trail (.stmt t) tr := by
  constructor
  · intro h
    cases h with
    | cons h hs => cases hs; rw [List.append_nil]; exact h
  · intro h
    rw [← List.append_nil tr]
    exact .cons h .nil

/-! ## Fewer touches -/

/-- **The second trail is the first with loads and touches of dead variables left out.** -/
inductive Thins (dead : VarId → Bool) : List Touch → List Touch → Prop where
  | nil : Thins dead [] []
  | keep {t a b} (h : Thins dead a b) : Thins dead (t :: a) (t :: b)
  | load {v a b} (h : Thins dead a b) : Thins dead (.loads v :: a) b
  | skip {t a b} (ht : dead t.var = true) (h : Thins dead a b) : Thins dead (t :: a) b

section Thins

variable {dead : VarId → Bool}

theorem Thins.refl : ∀ a : List Touch, Thins dead a a
  | [] => .nil
  | _ :: a => .keep (refl a)

theorem Thins.append {a a' b b' : List Touch} (ha : Thins dead a a') (hb : Thins dead b b') :
    Thins dead (a ++ b) (a' ++ b') := by
  induction ha with
  | nil => exact hb
  | keep _ ih => exact .keep ih
  | load _ ih => exact .load ih
  | skip ht _ ih => exact .skip ht ih

theorem Thins.loads_of_sublist {e e' : Expr} (h : e'.vars.Sublist e.vars) : Thins dead e.loads e'.loads := by
  rw [Expr.loads, Expr.loads]
  generalize e.vars = vs, e'.vars = vs' at h
  induction h with
  | slnil => exact .nil
  | cons v _ ih => exact .load ih
  | cons_cons v _ ih => exact .keep ih

theorem Thins.loads_nil (e : Expr) : Thins dead e.loads [] := by
  rw [Expr.loads]
  induction e.vars with
  | nil => exact .nil
  | cons v vs ih => exact .load ih

/-- **A thinner trail is safe if the trail is** and it loads no dead variable. -/
theorem Thins.safe {a b : List Touch} (h : Thins dead a b) : ∀ {held held' : VarId → Prop},
    (∀ v, dead v = false → held v → held' v) → (∀ v, .loads v ∈ b → dead v = false) → Safe held a → Safe held' b := by
  induction h with
  | nil => exact fun _ _ _ => trivial
  | @keep t a b _ ih =>
    intro held held' hheld hlive hsafe
    have hlive' : ∀ v, .loads v ∈ b → dead v = false := fun v hv => hlive v (List.mem_cons_of_mem t hv)
    cases t with
    | opens x => exact ih (fun v hv h => ⟨h.1, hheld v hv h.2⟩) hlive' hsafe
    | stores x => exact ih (fun v hv h => h.imp_right (hheld v hv)) hlive' hsafe
    | loads x => exact ⟨hheld x (hlive x List.mem_cons_self) hsafe.1, ih hheld hlive' hsafe.2⟩
  | load _ ih => exact fun hheld hlive hsafe => ih hheld hlive hsafe.2
  | @skip t a b ht _ ih =>
    intro held held' hheld hlive hsafe
    -- Whatever happens to a dead variable, the others hold what they held.
    have hne : ∀ v, dead v = false → v ≠ t.var := fun v hv heq => by rw [heq, ht] at hv; cases hv
    cases t with
    | opens x => exact ih (fun v hv h => hheld v hv h.2) hlive hsafe
    | stores x => exact ih (fun v hv h => hheld v hv (h.resolve_left (hne v hv))) hlive hsafe
    | loads x => exact ih hheld hlive hsafe.2

end Thins

/-- **Every trail of the second block is a thinner one of the first.** -/
def Covers (dead : VarId → Bool) (b b' : Block) : Prop :=
  ∀ tr', Trail (.block b') tr' → ∃ tr, Trail (.block b) tr ∧ Thins dead tr tr'

namespace Covers

variable {dead : VarId → Bool} {a a' b b' : Block} {c c' : Expr}

theorem refl (b : Block) : Covers dead b b :=
  fun tr h => ⟨tr, h, .refl tr⟩

theorem append (ha : Covers dead a a') (hb : Covers dead b b') : Covers dead (a ++ b) (a' ++ b') := by
  intro tr' h
  obtain ⟨ta', tb', hta', htb', rfl⟩ := h.split
  obtain ⟨ta, hta, hthina⟩ := ha ta' hta'
  obtain ⟨tb, htb, hthinb⟩ := hb tb' htb'
  exact ⟨ta ++ tb, hta.append htb, hthina.append hthinb⟩

theorem branch (hc : c'.vars.Sublist c.vars) (ha : Covers dead a a') (hb : Covers dead b b') :
    Covers dead [.branch c a b] [.branch c' a' b'] := by
  intro tr' h
  cases trail_single.1 h with
  | yes hside =>
    obtain ⟨tr, htr, hthin⟩ := ha _ hside
    exact ⟨_, trail_single.2 (.yes htr), (Thins.loads_of_sublist hc).append hthin⟩
  | no hside =>
    obtain ⟨tr, htr, hthin⟩ := hb _ hside
    exact ⟨_, trail_single.2 (.no htr), (Thins.loads_of_sublist hc).append hthin⟩

theorem loop (hc : c'.vars.Sublist c.vars) (ha : Covers dead a a') (hb : Covers dead b b') :
    Covers dead [.loop a c b] [.loop a' c' b'] := by
  have hloop : ∀ {j : Job} {tr' : List Touch}, Trail j tr' → j = .stmt (.loop a' c' b') →
      ∃ tr, Trail (.stmt (.loop a c b)) tr ∧ Thins dead tr tr' := by
    intro j tr' h
    induction h with
    | done h ih =>
      rintro ⟨⟩
      obtain ⟨tr, htr, hthin⟩ := ha _ h
      exact ⟨_, .done htr, hthin.append (Thins.loads_of_sublist hc)⟩
    | again hs hb' _ _ _ ih =>
      rintro ⟨⟩
      obtain ⟨ta, hta, hthina⟩ := ha _ hs
      obtain ⟨tb, htb, hthinb⟩ := hb _ hb'
      obtain ⟨tr, htr, hthin⟩ := ih rfl
      exact ⟨_, .again hta htb htr, ((hthina.append (Thins.loads_of_sublist hc)).append hthinb).append hthin⟩
    | _ => rintro ⟨⟩
  intro tr' h
  obtain ⟨tr, htr, hthin⟩ := hloop (trail_single.1 h) rfl
  exact ⟨tr, trail_single.2 htr, hthin⟩

theorem entries (hb : Covers dead b b') : ∀ {es : List Entry} {tr' : List Touch}, Trail (.entries es b') tr' →
    ∃ tr, Trail (.entries es b) tr ∧ Thins dead tr tr'
  | [], _, h => by
    cases h
    exact ⟨[], .noEntry, .nil⟩
  | e :: es, _, h => by
    cases h with
    | nextEntry h hs =>
      obtain ⟨ta, hta, hthina⟩ := hb _ h
      obtain ⟨tb, htb, hthinb⟩ := entries hb hs
      exact ⟨_, .nextEntry hta htb, hthina.append hthinb⟩

theorem each {reverse : Bool} (hb : Covers dead b b') : Covers dead [.each reverse b] [.each reverse b'] := by
  intro tr' h
  cases trail_single.1 h with
  | each hall =>
    obtain ⟨tr, htr, hthin⟩ := hb.entries hall
    exact ⟨tr, trail_single.2 (.each htr), hthin⟩

end Covers

/-! ## Constants -/

namespace Expr

theorem vars_foldBinary (op : BinaryOp) (l r : Expr) : (foldBinary op l r).vars.Sublist (l.vars ++ r.vars) := by
  unfold foldBinary
  split
  · split
    · exact List.nil_sublist _
    · exact .refl _
  · split
    · exact List.nil_sublist _
    · exact .refl _
  · exact List.nil_sublist _
  · rename_i e a b
    have hjoin : (binary .concat e (str (a ++ b))).vars = (binary .concat e (str a)).vars ++ (str b).vars := by
      rw [vars_binary, vars_binary]
      exact (List.append_nil _).symm
    exact hjoin ▸ List.Sublist.refl _
  · simp only [vars_binary, List.Sublist.refl]

theorem vars_foldCompare (op : CompareOp) (l r : Expr) : (foldCompare op l r).vars.Sublist (l.vars ++ r.vars) := by
  unfold foldCompare
  split
  · exact List.nil_sublist _
  · exact List.nil_sublist _
  · exact List.nil_sublist _
  · exact List.nil_sublist _
  · simp only [vars_compare, List.Sublist.refl]

mutual

/-- Computing constants leaves fewer reads, in the same order. -/
theorem vars_fold : ∀ e : Expr, (fold e).vars.Sublist e.vars
  | call c args t effect => by
    rw [fold, vars_call, vars_call]
    exact varsAll_foldAll args
  | binary op l r => by
    rw [fold, vars_binary]
    exact (vars_foldBinary op (fold l) (fold r)).trans ((vars_fold l).append (vars_fold r))
  | compare op l r => by
    rw [fold, vars_compare]
    exact (vars_foldCompare op (fold l) (fold r)).trans ((vars_fold l).append (vars_fold r))
  | int _ | str _ | quoted _ | var _ | global _ _ | field _ | entryVar _ _ | entry | verbatim _ _ | block _ => .refl _

theorem varsAll_foldAll : ∀ es : List Expr, (varsAll (foldAll es)).Sublist (varsAll es)
  | [] => .refl _
  | e :: es => by
    rw [foldAll, varsAll_cons, varsAll_cons]
    exact (vars_fold e).append (varsAll_foldAll es)

end

end Expr

namespace Stmt

open Bibstyle.Expr (fold vars_fold)

theorem introduces_map (f : Expr → Expr) (t : Stmt) : introduces (map f t) = introduces t := by
  cases t <;> rfl

theorem introducesAll_mapAll (f : Expr → Expr) (b : List Stmt) : introducesAll (mapAll f b) = introducesAll b := by
  induction b with
  | nil => rfl
  | cons t ts ih => rw [mapAll, introducesAll_cons, introducesAll_cons, introduces_map, ih]

mutual

theorem declares_map (f : Expr → Expr) : ∀ t : Stmt, declares (map f t) = declares t
  | branch c yes no => by rw [map, declares, declares, declaresAll_mapAll f yes, declaresAll_mapAll f no]
  | loop setup c body => by rw [map, declares, declares, declaresAll_mapAll f setup, declaresAll_mapAll f body]
  | each reverse body => by rw [map, declares, declares, declaresAll_mapAll f body]
  | eval _ | declare _ _ | assign _ _ | comment _ => rfl

theorem declaresAll_mapAll (f : Expr → Expr) : ∀ b : List Stmt, declaresAll (mapAll f b) = declaresAll b
  | [] => rfl
  | t :: ts => by rw [mapAll, declaresAll, declaresAll, declares_map f t, declaresAll_mapAll f ts]

end

mutual

theorem placed_fold {k : VarId → Prop} : ∀ t : Stmt, Placed k t → Placed k (map fold t)
  | eval e, h | declare _ (some e), h | assign (.global _) e, h | assign (.entryVar _) e, h =>
    fun v hv => h v ((vars_fold e).subset hv)
  | assign (.var x) e, h => ⟨h.1, fun v hv => h.2 v ((vars_fold e).subset hv)⟩
  | branch c yes no, h =>
    ⟨fun v hv => h.1 v ((vars_fold c).subset hv), placedAll_fold yes h.2.1, placedAll_fold no h.2.2⟩
  | loop setup c body, h => by
    obtain ⟨hsetup, hc, hbody⟩ := h
    rw [map, Placed, introducesAll_mapAll]
    exact ⟨placedAll_fold setup hsetup, fun v hv => hc v ((vars_fold c).subset hv), placedAll_fold body hbody⟩
  | each _ body, h => placedAll_fold body h
  | declare _ none, _ | comment _, _ => trivial

theorem placedAll_fold {k : VarId → Prop} : ∀ b : List Stmt, PlacedAll k b → PlacedAll k (mapAll fold b)
  | [], _ => trivial
  | t :: ts, h => by
    rw [mapAll, PlacedAll, introduces_map]
    exact ⟨placed_fold t h.1, placedAll_fold ts h.2⟩

end

mutual

theorem fold_covers (dead : VarId → Bool) : ∀ t : Stmt, Covers dead [t] [map fold t]
  | eval e => fun tr' h => by
    cases trail_single.1 h with
    | eval => exact ⟨_, trail_single.2 .eval, Thins.loads_of_sublist (vars_fold e)⟩
  | declare x none => .refl _
  | declare x (some e) => fun tr' h => by
    cases trail_single.1 h with
    | init => exact ⟨_, trail_single.2 .init, (Thins.loads_of_sublist (vars_fold e)).append (.refl _)⟩
  | assign (.var x) e => fun tr' h => by
    cases trail_single.1 h with
    | store => exact ⟨_, trail_single.2 .store, (Thins.loads_of_sublist (vars_fold e)).append (.refl _)⟩
  | assign (.global n) e => fun tr' h => by
    cases trail_single.1 h with
    | global => exact ⟨_, trail_single.2 .global, Thins.loads_of_sublist (vars_fold e)⟩
  | assign (.entryVar n) e => fun tr' h => by
    cases trail_single.1 h with
    | entryVar => exact ⟨_, trail_single.2 .entryVar, Thins.loads_of_sublist (vars_fold e)⟩
  | branch c yes no => .branch (vars_fold c) (foldAll_covers dead yes) (foldAll_covers dead no)
  | loop setup c body => .loop (vars_fold c) (foldAll_covers dead setup) (foldAll_covers dead body)
  | each reverse body => .each (foldAll_covers dead body)
  | comment text => .refl _

theorem foldAll_covers (dead : VarId → Bool) : ∀ b : List Stmt, Covers dead b (mapAll fold b)
  | [] => .refl _
  | t :: ts => (fold_covers dead t).append (foldAll_covers dead ts)

end

/-! ## Known branches -/

mutual

theorem declares_prune : ∀ t : Stmt, (declaresAll (prune t).block).Sublist (declares t)
  | branch c yes no => by
    have hyes := declaresAll_pruneAll yes
    have hno := declaresAll_pruneAll no
    simp only [prune, declares]
    split
    · split
      · exact hyes.trans (List.sublist_append_left _ _)
      · exact hno.trans (List.sublist_append_right _ _)
    · split
      · exact List.nil_sublist _
      · simpa [declaresAll, declares] using hyes.append hno
  | loop setup c body => by
    have hsetup := declaresAll_pruneAll setup
    have hbody := declaresAll_pruneAll body
    simp only [prune, declares]
    split
    · exact List.nil_sublist _
    · simpa [declaresAll, declares] using hsetup.append hbody
  | each reverse body => by simpa [prune, declaresAll, declares] using declaresAll_pruneAll body
  | eval _ | declare _ _ | assign _ _ | comment _ => by
    simp only [prune, Pass.keep, declaresAll, List.append_nil]
    exact .refl _

theorem declaresAll_pruneAll : ∀ b : List Stmt, (declaresAll (pruneAll b).block).Sublist (declaresAll b)
  | [] => .refl _
  | t :: ts => by
    rw [pruneAll, Pass.append, declaresAll_append, declaresAll]
    exact (declares_prune t).append (declaresAll_pruneAll ts)

end

/-- A side that takes the place of its branch may declare more than the branch did. -/
theorem introduces_prune (t : Stmt) : introduces t ⊆ introducesAll (prune t).block := by
  intro v hv
  cases t with
  | declare x init => exact hv
  | _ => cases hv

theorem introducesAll_pruneAll : ∀ b : List Stmt, introducesAll b ⊆ introducesAll (pruneAll b).block
  | [], _, hv => hv
  | t :: ts, v, hv => by
    rw [introducesAll_cons, List.mem_append] at hv
    rw [pruneAll, Pass.append, introducesAll_append, List.mem_append]
    exact hv.imp (fun h => introduces_prune t h) (fun h => introducesAll_pruneAll ts h)

mutual

theorem placed_prune {k : VarId → Prop} : ∀ t : Stmt, Placed k t → PlacedAll k (prune t).block
  | branch c yes no, h => by
    have hyes := placedAll_prune yes h.2.1
    have hno := placedAll_prune no h.2.2
    simp only [prune]
    split
    · split
      · exact hyes
      · exact hno
    · split
      · trivial
      · exact placedAll_single.2 ⟨h.1, hyes, hno⟩
  | loop setup c body, h => by
    obtain ⟨hsetup, hc, hbody⟩ := h
    simp only [prune]
    split
    · trivial
    · have hsub : ∀ v, k v ∨ v ∈ introducesAll setup → k v ∨ v ∈ introducesAll (pruneAll setup).block :=
        fun v => Or.imp_right (fun hv => introducesAll_pruneAll setup hv)
      exact placedAll_single.2 ⟨placedAll_prune setup hsetup, fun v hv => hsub v (hc v hv),
        placedAll_mono hsub _ (placedAll_prune body hbody)⟩
  | each _ body, h => placedAll_single.2 (placedAll_prune body h)
  | eval _, h | declare _ _, h | assign _ _, h | comment _, h => placedAll_single.2 h

theorem placedAll_prune {k : VarId → Prop} : ∀ b : List Stmt, PlacedAll k b → PlacedAll k (pruneAll b).block
  | [], _ => trivial
  | t :: ts, h => by
    rw [pruneAll, Pass.append, placedAll_append]
    refine ⟨placed_prune t h.1, placedAll_mono (fun v => ?_) _ (placedAll_prune ts h.2)⟩
    exact Or.imp_right (fun hv => introduces_prune t hv)

end

theorem loads_of_constant? {c : Expr} {n : Int32} (h : c.constant? = some n) : c.loads = [] := by
  cases c <;> first | rfl | cases h

theorem loads_of_fails {c : Expr} (h : c.fails = true) : c.loads = [] := by
  unfold Expr.fails at h
  split at h
  · rename_i hconstant
    exact loads_of_constant? hconstant
  · cases h

mutual

theorem prune_covers (dead : VarId → Bool) : ∀ t : Stmt, Covers dead [t] (prune t).block
  | branch c yes no => by
    have hyes := pruneAll_covers dead yes
    have hno := pruneAll_covers dead no
    simp only [prune]
    split
    · rename_i n hc
      intro tr' h
      split at h
      · obtain ⟨tr, htr, hthin⟩ := hyes tr' h
        have hbranch : Trail (.stmt (.branch c yes no)) (c.loads ++ tr) := .yes htr
        rw [loads_of_constant? hc] at hbranch
        exact ⟨tr, trail_single.2 hbranch, hthin⟩
      · obtain ⟨tr, htr, hthin⟩ := hno tr' h
        have hbranch : Trail (.stmt (.branch c yes no)) (c.loads ++ tr) := .no htr
        rw [loads_of_constant? hc] at hbranch
        exact ⟨tr, trail_single.2 hbranch, hthin⟩
    · split
      · rename_i hempty
        simp only [Bool.and_eq_true, List.isEmpty_iff] at hempty
        obtain ⟨⟨rfl, rfl⟩, -⟩ := hempty
        intro tr' h
        cases h
        exact ⟨_, trail_single.2 (.yes .nil), (Thins.loads_nil c).append .nil⟩
      · exact .branch (.refl _) hyes hno
  | loop setup c body => by
    have hsetup := pruneAll_covers dead setup
    have hbody := pruneAll_covers dead body
    simp only [prune]
    split
    · rename_i hfails
      simp only [Bool.and_eq_true, List.isEmpty_iff] at hfails
      obtain ⟨rfl, hf⟩ := hfails
      intro tr' h
      cases h
      have hloop : Trail (.stmt (.loop [] c body)) ([] ++ c.loads) := .done .nil
      rw [loads_of_fails hf] at hloop
      exact ⟨[], trail_single.2 hloop, .nil⟩
    · exact .loop (.refl _) hsetup hbody
  | each reverse body => .each (pruneAll_covers dead body)
  | eval _ | declare _ _ | assign _ _ | comment _ => .refl _

theorem pruneAll_covers (dead : VarId → Bool) : ∀ b : List Stmt, Covers dead b (pruneAll b).block
  | [] => .refl _
  | t :: ts => (prune_covers dead t).append (pruneAll_covers dead ts)

end

/-! ## Dead stores -/

section Sweep

variable {dead : VarId → Bool}

theorem declaresAll_residue (e : Expr) : declaresAll (residue e) = [] := by
  unfold residue
  split <;> rfl

mutual

theorem declares_sweep : ∀ t : Stmt, (declaresAll (sweep dead t).block).Sublist (declares t)
  | declare v none => by
    simp only [sweep]
    split
    · exact List.nil_sublist _
    · exact .refl _
  | declare v (some e) => by
    simp only [sweep]
    split
    · rw [declaresAll_residue]; exact List.nil_sublist _
    · exact .refl _
  | assign (.var v) e => by
    simp only [sweep]
    split
    · rw [declaresAll_residue]; exact List.nil_sublist _
    · exact .refl _
  | branch c yes no => by
    simpa [sweep, declaresAll, declares] using (declaresAll_sweepAll yes).append (declaresAll_sweepAll no)
  | loop setup c body => by
    simpa [sweep, declaresAll, declares] using (declaresAll_sweepAll setup).append (declaresAll_sweepAll body)
  | each reverse body => by simpa [sweep, declaresAll, declares] using declaresAll_sweepAll body
  | eval _ | assign (.global _) _ | assign (.entryVar _) _ | comment _ => .refl _

theorem declaresAll_sweepAll : ∀ b : List Stmt, (declaresAll (sweepAll dead b).block).Sublist (declaresAll b)
  | [] => .refl _
  | t :: ts => by
    rw [sweepAll, Pass.append, declaresAll_append, declaresAll]
    exact (declares_sweep t).append (declaresAll_sweepAll ts)

end

theorem introduces_sweep {v : VarId} (hv : dead v = false) (t : Stmt) (h : v ∈ introduces t) :
    v ∈ introducesAll (sweep dead t).block := by
  cases t with
  | declare x init =>
    obtain rfl : v = x := by simpa [introduces] using h
    cases init <;> simp [sweep, hv, Pass.keep, introducesAll, introduces]
  | _ => cases h

theorem introducesAll_sweepAll {v : VarId} (hv : dead v = false) : ∀ b : List Stmt, v ∈ introducesAll b →
    v ∈ introducesAll (sweepAll dead b).block
  | [], h => h
  | t :: ts, h => by
    rw [introducesAll_cons, List.mem_append] at h
    rw [sweepAll, Pass.append, introducesAll_append, List.mem_append]
    exact h.imp (introduces_sweep hv t) (introducesAll_sweepAll hv ts)

theorem placedAll_residue {k k' : VarId → Prop} (hk : ∀ v, dead v = false → k v → k' v) {x : VarId} {e : Expr}
    (hlive : ∀ y ∈ storeReads x e, dead y = false) (h : ∀ v ∈ e.vars, k v) : PlacedAll k' (residue e) := by
  unfold residue
  split
  · trivial
  · rename_i hp
    refine placedAll_single.2 (fun v hv => hk v ?_ (h v hv))
    exact hlive v (mem_storeReads.2 ⟨hv, fun hpure => absurd hpure hp⟩)

mutual

/-- What is left after a sweep needs no dead variable. -/
theorem placed_sweep {k k' : VarId → Prop} (hk : ∀ v, dead v = false → k v → k' v) : ∀ t : Stmt,
    (∀ v ∈ reads t, dead v = false) → Placed k t → PlacedAll k' (sweep dead t).block
  | eval e, hlive, h | assign (.global _) e, hlive, h | assign (.entryVar _) e, hlive, h =>
    placedAll_single.2 (fun v hv => hk v (hlive v hv) (h v hv))
  | declare x none, _, _ => by
    simp only [sweep]
    split
    · trivial
    · exact placedAll_single.2 trivial
  | declare x (some e), hlive, h => by
    simp only [sweep]
    split
    · exact placedAll_residue hk hlive h
    · rename_i hx
      have hvars := live_of_storeReads (Bool.eq_false_iff.2 hx) hlive
      exact placedAll_single.2 (fun v hv => hk v (hvars v hv) (h v hv))
  | assign (.var x) e, hlive, h => by
    simp only [sweep]
    split
    · exact placedAll_residue hk hlive h.2
    · rename_i hx
      have hvars := live_of_storeReads (Bool.eq_false_iff.2 hx) hlive
      exact placedAll_single.2 ⟨hk x (Bool.eq_false_iff.2 hx) h.1, fun v hv => hk v (hvars v hv) (h.2 v hv)⟩
  | branch c yes no, hlive, h => by
    simp only [reads, List.mem_append] at hlive
    exact placedAll_single.2 ⟨fun v hv => hk v (hlive v (.inl (.inl hv))) (h.1 v hv),
      placedAll_sweep hk yes (fun v hv => hlive v (.inl (.inr hv))) h.2.1,
      placedAll_sweep hk no (fun v hv => hlive v (.inr hv)) h.2.2⟩
  | loop setup c body, hlive, h => by
    simp only [reads, List.mem_append] at hlive
    obtain ⟨hsetup, hc, hbody⟩ := h
    have hk' : ∀ v, dead v = false → k v ∨ v ∈ introducesAll setup →
        k' v ∨ v ∈ introducesAll (sweepAll dead setup).block :=
      fun v hv => Or.imp (hk v hv) (introducesAll_sweepAll hv setup)
    exact placedAll_single.2 ⟨placedAll_sweep hk setup (fun v hv => hlive v (.inl (.inl hv))) hsetup,
      fun v hv => hk' v (hlive v (.inl (.inr hv))) (hc v hv),
      placedAll_sweep hk' body (fun v hv => hlive v (.inr hv)) hbody⟩
  | each _ body, hlive, h => placedAll_single.2 (placedAll_sweep hk body hlive h)
  | comment _, _, _ => placedAll_single.2 trivial

theorem placedAll_sweep {k k' : VarId → Prop} (hk : ∀ v, dead v = false → k v → k' v) : ∀ b : List Stmt,
    (∀ v ∈ readsAll b, dead v = false) → PlacedAll k b → PlacedAll k' (sweepAll dead b).block
  | [], _, _ => trivial
  | t :: ts, hlive, h => by
    simp only [readsAll, List.mem_append] at hlive
    rw [sweepAll, Pass.append, placedAll_append]
    refine ⟨placed_sweep hk t (fun v hv => hlive v (.inl hv)) h.1, ?_⟩
    refine placedAll_sweep (fun v hv => ?_) ts (fun v hv => hlive v (.inr hv)) h.2
    exact Or.imp (hk v hv) (introduces_sweep hv t)

end

theorem residue_covers {t : Stmt} {e : Expr} {opening : List Touch} (hopening : Thins dead opening [])
    (h : Trail (.stmt t) (e.loads ++ opening)) : Covers dead [t] (residue e) := by
  unfold residue
  split
  · intro tr' htr'
    cases htr'
    exact ⟨_, trail_single.2 h, (Thins.loads_nil e).append hopening⟩
  · intro tr' htr'
    cases trail_single.1 htr' with
    | eval =>
      have hthin : Thins dead (e.loads ++ opening) (e.loads ++ []) := (Thins.refl _).append hopening
      rw [List.append_nil] at hthin
      exact ⟨_, trail_single.2 h, hthin⟩

mutual

theorem sweep_covers : ∀ t : Stmt, Covers dead [t] (sweep dead t).block
  | declare x none => by
    simp only [sweep]
    split
    · rename_i hdead
      intro tr' h
      cases h
      exact ⟨_, trail_single.2 .declare, .skip hdead .nil⟩
    · exact .refl _
  | declare x (some e) => by
    simp only [sweep]
    split
    · rename_i hdead
      refine residue_covers (.skip ?_ (.skip ?_ .nil)) .init <;> exact hdead
    · exact .refl _
  | assign (.var x) e => by
    simp only [sweep]
    split
    · rename_i hdead
      refine residue_covers (.skip ?_ .nil) .store
      exact hdead
    · exact .refl _
  | branch c yes no => .branch (.refl _) (sweepAll_covers yes) (sweepAll_covers no)
  | loop setup c body => .loop (.refl _) (sweepAll_covers setup) (sweepAll_covers body)
  | each reverse body => .each (sweepAll_covers body)
  | eval _ | assign (.global _) _ | assign (.entryVar _) _ | comment _ => .refl _

theorem sweepAll_covers : ∀ b : List Stmt, Covers dead b (sweepAll dead b).block
  | [] => .refl _
  | t :: ts => (sweep_covers t).append (sweepAll_covers ts)

end

mutual

theorem dead_eq_false_of_declares_sweep {v : VarId} : ∀ t : Stmt, v ∈ declaresAll (sweep dead t).block → dead v = false
  | declare x none, h => by
    simp only [sweep] at h
    split at h
    · cases h
    · rename_i hx
      obtain rfl : v = x := by simpa [Pass.keep, declaresAll, declares] using h
      exact Bool.eq_false_iff.2 hx
  | declare x (some e), h => by
    simp only [sweep] at h
    split at h
    · rw [declaresAll_residue] at h; cases h
    · rename_i hx
      obtain rfl : v = x := by simpa [Pass.keep, declaresAll, declares] using h
      exact Bool.eq_false_iff.2 hx
  | assign (.var x) e, h => by
    simp only [sweep] at h
    split at h
    · rw [declaresAll_residue] at h; cases h
    · simp [Pass.keep, declaresAll, declares] at h
  | branch c yes no, h => by
    simp only [sweep, declaresAll, declares, List.append_nil, List.mem_append] at h
    exact h.elim (dead_eq_false_of_declares_sweepAll yes) (dead_eq_false_of_declares_sweepAll no)
  | loop setup c body, h => by
    simp only [sweep, declaresAll, declares, List.append_nil, List.mem_append] at h
    exact h.elim (dead_eq_false_of_declares_sweepAll setup) (dead_eq_false_of_declares_sweepAll body)
  | each reverse body, h => by
    simp only [sweep, declaresAll, declares, List.append_nil] at h
    exact dead_eq_false_of_declares_sweepAll body h
  | eval _, h | assign (.global _) _, h | assign (.entryVar _) _, h | comment _, h => by cases h

theorem dead_eq_false_of_declares_sweepAll {v : VarId} : ∀ b : List Stmt, v ∈ declaresAll (sweepAll dead b).block →
    dead v = false
  | [], h => by cases h
  | t :: ts, h => by
    rw [sweepAll, Pass.append, declaresAll_append, List.mem_append] at h
    exact h.elim (dead_eq_false_of_declares_sweep t) (dead_eq_false_of_declares_sweepAll ts)

end

end Sweep

end Stmt

/-! ## Methods -/

/-- What can be run is well placed, and so are its declarations. -/
def Job.Placed (known : VarId → Prop) : Job → Prop
  | stmt t => t.Placed known ∧ ∀ v ∈ t.declares, known v
  | block b | entries _ b => Stmt.PlacedAll known b ∧ ∀ v ∈ Stmt.declaresAll b, known v

theorem Stmt.placedAll_of_declares {k : VarId → Prop} {a b : Block} (h : PlacedAll (fun v => k v ∨ v ∈ introducesAll a) b)
    (ha : ∀ v ∈ declaresAll a, k v) : PlacedAll k b :=
  placedAll_mono (fun v hv => hv.elim id (fun hi => ha v (introducesAll_subset a hi))) b h

theorem Expr.mem_loads {e : Expr} {v : VarId} : Touch.loads v ∈ e.loads ↔ v ∈ e.vars := by
  simp [loads]

/-- A trail loads only variables that are known. -/
theorem Trail.loads_known {k : VarId → Prop} {j : Job} {tr : List Touch} (h : Trail j tr) :
    j.Placed k → ∀ v, Touch.loads v ∈ tr → k v := by
  induction h with
  | eval => exact fun hj v hv => hj.1 v (Expr.mem_loads.1 hv)
  | declare => intro _ v hv; simp at hv
  | init =>
    intro hj v hv
    exact hj.1 v (Expr.mem_loads.1 (by simpa using hv))
  | store =>
    intro hj v hv
    exact hj.1.2 v (Expr.mem_loads.1 (by simpa using hv))
  | global => exact fun hj v hv => hj.1 v (Expr.mem_loads.1 hv)
  | entryVar => exact fun hj v hv => hj.1 v (Expr.mem_loads.1 hv)
  | yes _ ih =>
    intro hj v hv
    simp only [Job.Placed, Stmt.Placed, Stmt.declares, List.mem_append] at hj ih
    rcases List.mem_append.1 hv with hv | hv
    · exact hj.1.1 v (Expr.mem_loads.1 hv)
    · exact ih ⟨hj.1.2.1, fun x hx => hj.2 x (.inl hx)⟩ v hv
  | no _ ih =>
    intro hj v hv
    simp only [Job.Placed, Stmt.Placed, Stmt.declares, List.mem_append] at hj ih
    rcases List.mem_append.1 hv with hv | hv
    · exact hj.1.1 v (Expr.mem_loads.1 hv)
    · exact ih ⟨hj.1.2.2, fun x hx => hj.2 x (.inr hx)⟩ v hv
  | done _ ih =>
    intro hj v hv
    simp only [Job.Placed, Stmt.Placed, Stmt.declares, List.mem_append] at hj ih
    rcases List.mem_append.1 hv with hv | hv
    · exact ih ⟨hj.1.1, fun x hx => hj.2 x (.inl hx)⟩ v hv
    · have hc := hj.1.2.1 v (Expr.mem_loads.1 hv)
      exact hc.elim id (fun hi => hj.2 v (.inl (Stmt.introducesAll_subset _ hi)))
  | again _ _ _ ih₁ ih₂ ih₃ =>
    intro hj v hv
    have hloop := hj
    simp only [Job.Placed, Stmt.Placed, Stmt.declares, List.mem_append] at hj ih₁ ih₂
    have hsetup : ∀ x ∈ Stmt.declaresAll _, k x := fun x hx => hj.2 x (.inl hx)
    simp only [List.mem_append] at hv
    rcases hv with ((hv | hv) | hv) | hv
    · exact ih₁ ⟨hj.1.1, hsetup⟩ v hv
    · have hc := hj.1.2.1 v (Expr.mem_loads.1 hv)
      exact hc.elim id (fun hi => hsetup v (Stmt.introducesAll_subset _ hi))
    · exact ih₂ ⟨Stmt.placedAll_of_declares hj.1.2.2 hsetup, fun x hx => hj.2 x (.inr hx)⟩ v hv
    · exact ih₃ hloop v hv
  | each _ ih => exact ih
  | comment => intro _ v hv; cases hv
  | nil => intro _ v hv; cases hv
  | @cons t ts a b _ _ ih₁ ih₂ =>
    intro hj v hv
    simp only [Job.Placed, Stmt.PlacedAll, Stmt.declaresAll, List.mem_append] at hj ih₁ ih₂
    rcases List.mem_append.1 hv with hv | hv
    · exact ih₁ ⟨hj.1.1, fun x hx => hj.2 x (.inl hx)⟩ v hv
    · refine ih₂ ⟨Stmt.placedAll_mono (fun x hx => ?_) ts hj.1.2, fun x hx => hj.2 x (.inr hx)⟩ v hv
      exact hx.elim id (fun hi => hj.2 x (.inl (Stmt.introduces_subset t hi)))
  | noEntry => intro _ v hv; cases hv
  | nextEntry _ _ ih₁ ih₂ =>
    intro hj v hv
    exact (List.mem_append.1 hv).elim (ih₁ hj v) (ih₂ hj v)

namespace Block.WellPlaced

variable {known : VarId → Prop} {dead : VarId → Bool} {b : Block} {result : Option Expr}

theorem fold (h : WellPlaced known b result) : WellPlaced known (Stmt.mapAll Expr.fold b) (result.map Expr.fold) where
  once := by rw [Stmt.declaresAll_mapAll]; exact h.once
  placed := Stmt.placedAll_fold b h.placed
  resultPlaced := by
    intro e he v hv
    obtain ⟨e₀, he₀, rfl⟩ := Option.map_eq_some_iff.1 he
    rw [Stmt.introducesAll_mapAll]
    exact h.resultPlaced e₀ he₀ v ((Expr.vars_fold e₀).subset hv)
  safe := by
    intro tr' htr'
    obtain ⟨tr, htr, hthin⟩ := Stmt.foldAll_covers (fun _ => false) b tr' htr'
    have hresult : Thins (fun _ => false) (Expr.resultLoads result) (Expr.resultLoads (result.map Expr.fold)) := by
      cases result with
      | none => exact .nil
      | some e => exact Thins.loads_of_sublist (Expr.vars_fold e)
    exact (hthin.append hresult).safe (fun _ _ hv => hv) (fun _ _ => rfl) (h.safe tr htr)

theorem prune (h : WellPlaced known b result) : WellPlaced known (Stmt.pruneAll b).block result where
  once := (Stmt.declaresAll_pruneAll b).nodup h.once
  placed := Stmt.placedAll_prune b h.placed
  resultPlaced e he v hv := (h.resultPlaced e he v hv).imp_right (fun hi => Stmt.introducesAll_pruneAll b hi)
  safe := by
    intro tr' htr'
    obtain ⟨tr, htr, hthin⟩ := Stmt.pruneAll_covers (fun _ => false) b tr' htr'
    exact (hthin.append (.refl _)).safe (fun _ _ hv => hv) (fun _ _ => rfl) (h.safe tr htr)

theorem sweep (hlive : ∀ v ∈ Stmt.readsAll b, dead v = false) (hresult : ∀ e ∈ result, ∀ v ∈ e.vars, dead v = false)
    (h : WellPlaced known b result) : WellPlaced known (Stmt.sweepAll dead b).block result where
  once := (Stmt.declaresAll_sweepAll b).nodup h.once
  placed := Stmt.placedAll_sweep (fun _ _ hv => hv) b hlive h.placed
  resultPlaced e he v hv :=
    (h.resultPlaced e he v hv).imp_right (Stmt.introducesAll_sweepAll (hresult e he v hv) b)
  safe := by
    intro tr' htr'
    obtain ⟨tr, htr, hthin⟩ := Stmt.sweepAll_covers b tr' htr'
    have hplaced : Stmt.PlacedAll (fun v => dead v = false) (Stmt.sweepAll dead b).block :=
      Stmt.placedAll_sweep (fun _ hv _ => hv) b hlive h.placed
    have hloads := htr'.loads_known ⟨hplaced, fun v hv => Stmt.dead_eq_false_of_declares_sweepAll b hv⟩
    refine (hthin.append (.refl _)).safe (fun _ _ hv => hv) (fun v hv => ?_) (h.safe tr htr)
    rcases List.mem_append.1 hv with hv | hv
    · exact hloads v hv
    · cases result with
      | none => cases hv
      | some e => exact hresult e rfl v (Expr.mem_loads.1 hv)

theorem round {scope : Scope} (h : WellPlaced known b result) : WellPlaced known (Block.round scope result b).block result := by
  refine h.prune.sweep (fun v hv => Scope.dead_eq_false (List.mem_append_left _ hv)) (fun e he v hv => ?_)
  obtain rfl : result = some e := he
  exact Scope.dead_eq_false (List.mem_append_right _ hv)

theorem settle {scope : Scope} (h : WellPlaced known b result) : WellPlaced known (Block.settle scope result b) result :=
  Block.settle_keeps (P := fun b => WellPlaced known b result) (fun _ h => h.round) h

end Block.WellPlaced

theorem Block.declaresAll_round {scope : Scope} {result : Option Expr} (b : Block) :
    (Stmt.declaresAll (round scope result b).block).Sublist (Stmt.declaresAll b) :=
  (Stmt.declaresAll_sweepAll _).trans (Stmt.declaresAll_pruneAll b)

theorem Block.declaresAll_settle {scope : Scope} {result : Option Expr} (b : Block) :
    (Stmt.declaresAll (settle scope result b)).Sublist (Stmt.declaresAll b) :=
  settle_keeps (P := fun p => (Stmt.declaresAll p).Sublist (Stmt.declaresAll b)) (fun p h => (declaresAll_round p).trans h) (.refl _)

/-- **Reducing a method keeps its variables well placed.** -/
theorem Routine.WellPlaced.reduce {r : Routine} (h : r.WellPlaced) : r.reduce.WellPlaced where
  params_not_local := h.params_not_local
  declares_local := by
    intro v hv
    have hv' := (Block.declaresAll_settle _).subset hv
    rw [Stmt.declaresAll_mapAll] at hv'
    exact h.declares_local v hv'
  block := h.block.fold.settle

end Bibstyle
