import Bibstyle.Code.Stmt
/-!
# Execution — what generated code does when it runs

A value is an integer, a string, what a field is that the entry lacks, or the entry a method is handed.  Variables of a
method have no types here: they hold any value, or none before the first store.  Everything else that code can change
is the world.  A call that has an effect may change the world in any way the runtime says; a call without one is a
function of its arguments, or of the entry and its arguments.
-/
namespace Bibstyle

/-! ## Values and the world -/

/-- **An entry of the database**, by its number. -/
abbrev Entry := Nat

/-- **A value at run time.** -/
inductive Value where
  | int (n : Int32)
  | str (s : String)
  | missing
  | entry (e : Entry)
  deriving DecidableEq

/-- **What code can change**, the variables of its method apart. -/
structure World where
  globals : String → Value
  entryVars : Entry → String → Value
  /-- The methods called for what they write, with their arguments, the first first. -/
  output : List (String × List Value)
  /-- The database in its present order. -/
  entries : List Entry

/-- **What code cannot change, and what calls do.**  A text or a pure call that is worth nothing by itself is asked of
the current entry. -/
structure Runtime where
  field : Entry → String → Value
  text : String → Option Value
  entryText : Entry → String → Option Value
  method : Callee → List Value → Option Value
  entryMethod : Entry → Callee → List Value → Option Value
  effect : Callee → List Value → World → Value → World → Prop

namespace Runtime

def textOf (rt : Runtime) (ent : Option Entry) (t : String) : Option Value :=
  (rt.text t).or (ent.bind (rt.entryText · t))

def methodOf (rt : Runtime) (ent : Option Entry) (c : Callee) (args : List Value) : Option Value :=
  (rt.method c args).or (ent.bind (rt.entryMethod · c args))

end Runtime

/-- **The variables of a method**: an unset one holds nothing. -/
abbrev Locals := VarId → Option Value

/-- **The state of running code.** -/
structure Store where
  locals : Locals
  world : World

/-- Variables with one of them given a value, or unset. -/
def Locals.set (ρ : Locals) (x : VarId) (v : Option Value) : Locals :=
  fun y => if y = x then v else ρ y

namespace World

def setGlobal (w : World) (n : String) (v : Value) : World :=
  { w with globals := fun m => if m = n then v else w.globals m }

def setEntryVar (w : World) (e : Entry) (n : String) (v : Value) : World :=
  { w with entryVars := fun d m => if d = e ∧ m = n then v else w.entryVars d m }

end World

/-- **What storing a value does**; a variable of the entry needs the entry. -/
def Store.assign? (s : Store) (ent : Option Entry) (v : Value) : Target → Option Store
  | .var x => some { s with locals := s.locals.set x (some v) }
  | .global n => some { s with world := s.world.setGlobal n v }
  | .entryVar n => ent.map (fun e => { s with world := s.world.setEntryVar e n v })

/-! ## Expressions -/

/-- 1 or 0. -/
def Value.ofBool (b : Bool) : Value :=
  .int (if b then 1 else 0)

/-- Sums and differences wrap at 32 bits; operands of other kinds have none. -/
def BinaryOp.apply : BinaryOp → Value → Value → Option Value
  | .add, .int a, .int b => some (.int (a + b))
  | .sub, .int a, .int b => some (.int (a - b))
  | .concat, .str a, .str b => some (.str (a ++ b))
  | _, _, _ => none

/-- Only integers have an order; any two values are equal or not. -/
def CompareOp.apply : CompareOp → Value → Value → Option Value
  | .lt, .int a, .int b => some (.ofBool (a < b))
  | .gt, .int a, .int b => some (.ofBool (b < a))
  | .eq, a, b => some (.ofBool (a == b))
  | _, _, _ => none

namespace Expr

/-- What an expression without parts is worth; a procedure is worth nothing. -/
def worth (rt : Runtime) (ent : Option Entry) (ρ : Locals) (w : World) : Expr → Option Value
  | int n => some (.int n)
  | str s => some (.str s)
  | var x => ρ x
  | global n _ => some (w.globals n)
  | field n => ent.map (rt.field · n)
  | entryVar n _ => ent.map (w.entryVars · n)
  | entry => ent.map .entry
  | verbatim t _ => rt.textOf ent t
  | call _ _ _ _ | binary _ _ _ | compare _ _ _ | quoted _ | block _ => none

mutual

/-- **An expression gives a value**, and leaves a world behind.  Parts are evaluated from left to right. -/
def Gives (rt : Runtime) (ent : Option Entry) (ρ : Locals) : Expr → World → Value → World → Prop
  | call c args _ false, w, v, w' => ∃ vs, GivesAll rt ent ρ args w vs w' ∧ rt.methodOf ent c vs = some v
  | call c args _ true, w, v, w' => ∃ vs w₁, GivesAll rt ent ρ args w vs w₁ ∧ rt.effect c vs w₁ v w'
  | binary op l r, w, v, w' =>
    ∃ a w₁ b, Gives rt ent ρ l w a w₁ ∧ Gives rt ent ρ r w₁ b w' ∧ op.apply a b = some v
  | compare op l r, w, v, w' =>
    ∃ a w₁ b, Gives rt ent ρ l w a w₁ ∧ Gives rt ent ρ r w₁ b w' ∧ op.apply a b = some v
  | e, w, v, w' => e.worth rt ent ρ w = some v ∧ w' = w

def GivesAll (rt : Runtime) (ent : Option Entry) (ρ : Locals) : List Expr → World → List Value → World → Prop
  | [], w, vs, w' => vs = [] ∧ w' = w
  | e :: es, w, vs, w' =>
    ∃ v w₁ vs', Gives rt ent ρ e w v w₁ ∧ GivesAll rt ent ρ es w₁ vs' w' ∧ vs = v :: vs'

end

end Expr

/-! ## Statements -/

/-- **What can be run**: a statement, statements, or statements once for each of some entries. -/
inductive Job where
  | stmt (t : Stmt)
  | block (b : Block)
  | entries (es : List Entry) (b : Block)

/-- **A run that ends.**  A test succeeds if it is more than zero; a loop runs its setup before each test. -/
inductive Runs (rt : Runtime) : Job → Option Entry → Store → Store → Prop where
  | eval {ent s e v w} (h : e.Gives rt ent s.locals s.world v w) :
    Runs rt (.stmt (.eval e)) ent s { s with world := w }
  | declare {ent s x} : Runs rt (.stmt (.declare x none)) ent s { s with locals := s.locals.set x none }
  | init {ent s x e v w} (h : e.Gives rt ent s.locals s.world v w) :
    Runs rt (.stmt (.declare x (some e))) ent s ⟨s.locals.set x (some v), w⟩
  | assign {ent s s' t e v w} (h : e.Gives rt ent s.locals s.world v w)
    (ht : Store.assign? { s with world := w } ent v t = some s') : Runs rt (.stmt (.assign t e)) ent s s'
  | yes {ent s s' c n w yes no} (h : c.Gives rt ent s.locals s.world (.int n) w) (hn : 0 < n)
    (hb : Runs rt (.block yes) ent { s with world := w } s') : Runs rt (.stmt (.branch c yes no)) ent s s'
  | no {ent s s' c n w yes no} (h : c.Gives rt ent s.locals s.world (.int n) w) (hn : ¬ 0 < n)
    (hb : Runs rt (.block no) ent { s with world := w } s') : Runs rt (.stmt (.branch c yes no)) ent s s'
  | done {ent s s₁ setup c n w body} (hs : Runs rt (.block setup) ent s s₁)
    (h : c.Gives rt ent s₁.locals s₁.world (.int n) w) (hn : ¬ 0 < n) :
    Runs rt (.stmt (.loop setup c body)) ent s { s₁ with world := w }
  | again {ent s s₁ s₂ s' setup c n w body} (hs : Runs rt (.block setup) ent s s₁)
    (h : c.Gives rt ent s₁.locals s₁.world (.int n) w) (hn : 0 < n)
    (hb : Runs rt (.block body) ent { s₁ with world := w } s₂)
    (hr : Runs rt (.stmt (.loop setup c body)) ent s₂ s') : Runs rt (.stmt (.loop setup c body)) ent s s'
  | each {ent s s' reverse body}
    (h : Runs rt (.entries (if reverse then s.world.entries.reverse else s.world.entries) body) ent s s') :
    Runs rt (.stmt (.each reverse body)) ent s s'
  | comment {ent s text} : Runs rt (.stmt (.comment text)) ent s s
  | nil {ent s} : Runs rt (.block []) ent s s
  | cons {ent s s₁ s' t ts} (h : Runs rt (.stmt t) ent s s₁) (hs : Runs rt (.block ts) ent s₁ s') :
    Runs rt (.block (t :: ts)) ent s s'
  | noEntry {ent s b} : Runs rt (.entries [] b) ent s s
  | nextEntry {ent s s₁ s' e es b} (h : Runs rt (.block b) (some e) s s₁)
    (hs : Runs rt (.entries es b) ent s₁ s') : Runs rt (.entries (e :: es) b) ent s s'

/-- **Statements run to their end, and then a result is evaluated**, if there is one. -/
def Block.Completes (rt : Runtime) (b : Block) (result : Option Expr) (ent : Option Entry) (s : Store) (v : Option Value)
    (w : World) : Prop :=
  ∃ s', Runs rt (.block b) ent s s' ∧
    match result with
    | none => v = none ∧ w = s'.world
    | some e => ∃ x, e.Gives rt ent s'.locals s'.world x w ∧ v = some x

/-- **A method runs to its end**, with a value or without one. -/
def Routine.Completes (rt : Runtime) (r : Routine) (ent : Option Entry) (s : Store) (v : Option Value) (w : World) :
    Prop :=
  Block.Completes rt r.body r.result ent s v w

/-! ## What an expression depends on -/

namespace Expr

variable {rt : Runtime} {ent : Option Entry} {ρ ρ' : Locals}

theorem vars_binary (op : BinaryOp) (l r : Expr) : (binary op l r).vars = l.vars ++ r.vars := by
  rw [vars, nodes, List.filterMap_cons_none rfl, List.filterMap_append]
  rfl

theorem vars_compare (op : CompareOp) (l r : Expr) : (compare op l r).vars = l.vars ++ r.vars := by
  rw [vars, nodes, List.filterMap_cons_none rfl, List.filterMap_append]
  rfl

/-- The variables that expressions read. -/
def varsAll (es : List Expr) : List VarId :=
  es.flatMap vars

theorem filterMap_nodesAll : ∀ es : List Expr, (nodesAll es).filterMap var? = varsAll es
  | [] => rfl
  | e :: es => by
    rw [nodesAll, List.filterMap_append, filterMap_nodesAll es]
    rfl

theorem vars_call (c : Callee) (args : List Expr) (t : Ty) (effect : Bool) :
    (call c args t effect).vars = varsAll args := by
  rw [← filterMap_nodesAll, vars, nodes]
  rfl

theorem varsAll_cons (e : Expr) (es : List Expr) : varsAll (e :: es) = e.vars ++ varsAll es := rfl

mutual

/-- **An expression depends on the variables it reads** and on no others. -/
theorem Gives.congr_locals : ∀ {e : Expr} {w w' : World} {v : Value}, (∀ x ∈ e.vars, ρ' x = ρ x) →
    e.Gives rt ent ρ w v w' → e.Gives rt ent ρ' w v w'
  | call c args t false, w, w', v, hρ, h => by
    rw [vars_call] at hρ
    obtain ⟨vs, hvs, hv⟩ := h
    exact ⟨vs, hvs.congr_locals hρ, hv⟩
  | call c args t true, w, w', v, hρ, h => by
    rw [vars_call] at hρ
    obtain ⟨vs, w₁, hvs, hv⟩ := h
    exact ⟨vs, w₁, hvs.congr_locals hρ, hv⟩
  | binary op l r, w, w', v, hρ, h => by
    simp only [vars_binary, List.mem_append] at hρ
    obtain ⟨a, w₁, b, hl, hr, hv⟩ := h
    exact ⟨a, w₁, b, hl.congr_locals (fun x hx => hρ x (.inl hx)), hr.congr_locals (fun x hx => hρ x (.inr hx)), hv⟩
  | compare op l r, w, w', v, hρ, h => by
    simp only [vars_compare, List.mem_append] at hρ
    obtain ⟨a, w₁, b, hl, hr, hv⟩ := h
    exact ⟨a, w₁, b, hl.congr_locals (fun x hx => hρ x (.inl hx)), hr.congr_locals (fun x hx => hρ x (.inr hx)), hv⟩
  | var x, w, w', v, hρ, h => ⟨(hρ x List.mem_cons_self).trans h.1, h.2⟩
  | int _, _, _, _, _, h | str _, _, _, _, _, h | quoted _, _, _, _, _, h | global _ _, _, _, _, _, h
  | field _, _, _, _, _, h | entryVar _ _, _, _, _, _, h | entry, _, _, _, _, h | verbatim _ _, _, _, _, _, h
  | block _, _, _, _, _, h => h

theorem GivesAll.congr_locals : ∀ {es : List Expr} {w w' : World} {vs : List Value}, (∀ x ∈ varsAll es, ρ' x = ρ x) →
    GivesAll rt ent ρ es w vs w' → GivesAll rt ent ρ' es w vs w'
  | [], _, _, _, _, h => h
  | e :: es, w, w', vs, hρ, h => by
    simp only [varsAll_cons, List.mem_append] at hρ
    obtain ⟨v, w₁, vs', hv, hvs, rfl⟩ := h
    exact ⟨v, w₁, vs', hv.congr_locals (fun x hx => hρ x (.inl hx)), hvs.congr_locals (fun x hx => hρ x (.inr hx)), rfl⟩

end

mutual

/-- **Evaluating a pure expression changes nothing.** -/
theorem Gives.world_eq : ∀ {e : Expr} {w w' : World} {v : Value}, e.isPure = true → e.Gives rt ent ρ w v w' → w' = w
  | call c args t false, w, w', v, hp, h => by
    obtain ⟨vs, hvs, -⟩ := h
    exact hvs.world_eq (by simpa [isPure] using hp)
  | call c args t true, w, w', v, hp, h => by simp [isPure] at hp
  | binary op l r, w, w', v, hp, h | compare op l r, w, w', v, hp, h => by
    simp only [isPure, Bool.and_eq_true] at hp
    obtain ⟨a, w₁, b, hl, hr, -⟩ := h
    rw [hr.world_eq hp.2, hl.world_eq hp.1]
  | int _, _, _, _, _, h | str _, _, _, _, _, h | quoted _, _, _, _, _, h | var _, _, _, _, _, h
  | global _ _, _, _, _, _, h | field _, _, _, _, _, h | entryVar _ _, _, _, _, _, h | entry, _, _, _, _, h
  | verbatim _ _, _, _, _, _, h | block _, _, _, _, _, h => h.2

theorem GivesAll.world_eq : ∀ {es : List Expr} {w w' : World} {vs : List Value}, allPure es = true →
    GivesAll rt ent ρ es w vs w' → w' = w
  | [], _, _, _, _, h => h.2
  | e :: es, w, w', vs, hp, h => by
    simp only [allPure, Bool.and_eq_true] at hp
    obtain ⟨v, w₁, vs', hv, hvs, -⟩ := h
    rw [hvs.world_eq hp.2, hv.world_eq hp.1]

end

end Expr

/-! ## Runs in parts -/

theorem Runs.append {rt : Runtime} {ent : Option Entry} {a b : Block} {s s₁ s' : Store}
    (ha : Runs rt (.block a) ent s s₁) (hb : Runs rt (.block b) ent s₁ s') : Runs rt (.block (a ++ b)) ent s s' := by
  induction a generalizing s with
  | nil => cases ha; exact hb
  | cons t ts ih =>
    cases ha with
    | cons h hs => exact .cons h (ih hs)

theorem Runs.single {rt : Runtime} {ent : Option Entry} {t : Stmt} {s s' : Store} (h : Runs rt (.stmt t) ent s s') :
    Runs rt (.block [t]) ent s s' :=
  .cons h .nil

end Bibstyle
