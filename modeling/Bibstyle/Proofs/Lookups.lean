import Bibstyle.Code.Listing
import Bibstyle.Proofs.Purity
import Bibstyle.Proofs.Execution
/-!
# Lookups — the variables that code asks its scope about

Code is written with the names and types that a scope has for its variables.  Two scopes that agree on the variables of the
code write the same lines, so no others are ever looked up.  The variables of a proper method are all in its scope.
-/
namespace Bibstyle

/-- The variable that is assigned to, if it is one. -/
def Target.vars : Target → List VarId
  | .var v => [v]
  | .global _ | .entryVar _ => []

/-- The variables that an act reads or sets. -/
def Act.vars : Act → List VarId
  | .eval e | .test e => e.vars
  | .declare v init => v :: (init.map Expr.vars).getD []
  | .assign t e => t.vars ++ e.vars

/-- **The variables of code**, at any depth. -/
def Block.vars (b : Block) : List VarId :=
  (Stmt.actsAll false b).flatMap (fun q => q.2.vars)

/-- **The variables of a method.** -/
def Routine.vars (r : Routine) : List VarId :=
  r.params ++ Block.vars r.body ++ (r.result.map Expr.vars).getD []

/-! ## Looking up -/

section Agreement

variable {s s' : Scope}

theorem Scope.name_congr {v : VarId} (h : s.get? v = s'.get? v) : s.name v = s'.name v := by
  rw [Scope.name, Scope.name, h]

theorem Scope.ty_congr {v : VarId} (h : s.get? v = s'.get? v) : s.ty v = s'.ty v := by
  rw [Scope.ty, Scope.ty, h]

namespace Expr

mutual

theorem rendered_congr : ∀ {e : Expr}, (∀ v ∈ e.vars, s.get? v = s'.get? v) → e.rendered s = e.rendered s'
  | .var v, h => by rw [rendered, rendered, Scope.name_congr (h v (List.mem_singleton_self v))]
  | .call c args t effect, h => by
    rw [vars_call] at h
    rw [rendered, rendered, renderedAll_congr h]
  | .binary op l r, h => by
    rw [vars_binary, List.forall_mem_append] at h
    rw [rendered, rendered, rendered_congr h.1, rendered_congr h.2]
  | .compare op l r, h => by
    rw [vars_compare, List.forall_mem_append] at h
    rw [rendered, rendered, rendered_congr h.1, rendered_congr h.2]
  | .int _, _ | .str _, _ | .quoted _, _ | .global _ _, _ | .field _, _ | .entryVar _ _, _ | .entry, _ | .verbatim _ _, _
  | .block _, _ => rfl

theorem renderedAll_congr : ∀ {es : List Expr}, (∀ v ∈ varsAll es, s.get? v = s'.get? v) →
    renderedAll s es = renderedAll s' es
  | [], _ => rfl
  | e :: es, h => by
    rw [varsAll_cons, List.forall_mem_append] at h
    rw [renderedAll, renderedAll, rendered_congr h.1, renderedAll_congr h.2]

end

theorem render_congr {e : Expr} (h : ∀ v ∈ e.vars, s.get? v = s'.get? v) : e.render s = e.render s' := by
  rw [render, render, rendered_congr h]

theorem condition_congr {e : Expr} (negate : Bool) (h : ∀ v ∈ e.vars, s.get? v = s'.get? v) :
    e.condition s negate = e.condition s' negate := by
  cases e with
  | compare op l r =>
    rw [vars_compare, List.forall_mem_append] at h
    rw [condition, condition, rendered_congr h.1, rendered_congr h.2]
  | _ => rw [condition, condition, rendered_congr h] <;> exact nofun

theorem ty_congr {e : Expr} (h : ∀ v ∈ e.vars, s.get? v = s'.get? v) : e.ty s = e.ty s' := by
  cases e with
  | var v => exact Scope.ty_congr (h v (List.mem_singleton_self v))
  | binary op l r => cases op <;> rfl
  | _ => rfl

end Expr

namespace Stmt

theorem declaration_congr {v : VarId} {init : Option Expr} (h : ∀ w ∈ (Act.declare v init).vars, s.get? w = s'.get? w) :
    declaration s v init = declaration s' v init := by
  rw [Act.vars, List.forall_mem_cons] at h
  cases init with
  | none => rw [declaration, declaration, Scope.name_congr h.1, Scope.ty_congr h.1]
  | some e => rw [declaration, declaration, Scope.name_congr h.1, Scope.ty_congr h.1, Expr.render_congr h.2]

theorem assignment_congr {t : Target} {e : Expr} (h : ∀ v ∈ (Act.assign t e).vars, s.get? v = s'.get? v) :
    assignment s (e.render s) t = assignment s' (e.render s') t := by
  rw [Act.vars, List.forall_mem_append] at h
  rw [Expr.render_congr h.2]
  cases t with
  | var v =>
    change s.name v ++ " = " ++ _ = s'.name v ++ " = " ++ _
    rw [Scope.name_congr (h.1 v (List.mem_singleton_self v))]
  | global n => rfl
  | entryVar n => rfl

mutual

/-- **A statement looks up only its own variables.** -/
theorem lines_congr : ∀ (bound : Bool) (d : Nat) (t : Stmt),
    (∀ q ∈ acts bound t, ∀ v ∈ q.2.vars, s.get? v = s'.get? v) → lines s d t = lines s' d t
  | _, _, eval e, h => by
    rw [lines, lines, Expr.render_congr (h _ (List.mem_singleton_self _))]
  | _, _, declare v init, h => by
    rw [lines, lines, declaration_congr (h _ (List.mem_singleton_self _))]
  | _, _, assign t e, h => by
    rw [lines, lines, assignment_congr (h _ (List.mem_singleton_self _))]
  | _, _, comment _, _ => rfl
  | _, d, each reverse body, h => by
    rw [lines, lines, linesAll_congr true (d + 1) body h]
  | bound, d, loop [] c body, h => by
    rw [acts, List.forall_mem_cons, List.forall_mem_append] at h
    rw [lines, lines, Expr.condition_congr false h.1, linesAll_congr bound (d + 1) body h.2.2]
  | bound, d, loop (t :: setup) c body, h => by
    rw [acts, List.forall_mem_cons, List.forall_mem_append] at h
    rw [lines, lines, Expr.condition_congr true h.1, linesAll_congr bound (d + 1) (t :: setup) h.2.1,
      linesAll_congr bound (d + 1) body h.2.2] <;> exact nofun
  | bound, d, branch c yes no, h => by
    rw [acts, List.forall_mem_cons, List.forall_mem_append] at h
    rw [lines, lines, Expr.condition_congr true h.1, Expr.condition_congr false h.1,
      linesAll_congr bound (d + 1) yes h.2.1, linesAll_congr bound (d + 1) no h.2.2, linesElse_congr bound d no h.2.2]

theorem linesElse_congr : ∀ (bound : Bool) (d : Nat) (b : List Stmt),
    (∀ q ∈ actsAll bound b, ∀ v ∈ q.2.vars, s.get? v = s'.get? v) → linesElse s d b = linesElse s' d b
  | _, _, [], _ => rfl
  | bound, d, [t], h => by
    rw [actsAll_single] at h
    rw [linesElse, linesElse, lines_congr bound d t h, lines_congr bound (d + 1) t h]
  | bound, d, t :: u :: ts, h => by
    rw [actsAll, List.forall_mem_append] at h
    rw [linesElse, linesElse, lines_congr bound (d + 1) t h.1, linesAll_congr bound (d + 1) (u :: ts) h.2] <;> exact nofun

theorem linesAll_congr : ∀ (bound : Bool) (d : Nat) (b : List Stmt),
    (∀ q ∈ actsAll bound b, ∀ v ∈ q.2.vars, s.get? v = s'.get? v) → linesAll s d b = linesAll s' d b
  | _, _, [], _ => rfl
  | bound, d, t :: ts, h => by
    rw [actsAll, List.forall_mem_append] at h
    rw [linesAll, linesAll, lines_congr bound d t h.1, linesAll_congr bound d ts h.2]

end

end Stmt

theorem Block.lines_congr {b : Block} (d : Nat) (h : ∀ v ∈ Block.vars b, s.get? v = s'.get? v) :
    Block.lines b s d = Block.lines b s' d :=
  Stmt.linesAll_congr false d b (fun q hq v hv => h v (List.mem_flatMap.2 ⟨q, hq, hv⟩))

/-- **A method looks up only its own variables.** -/
theorem Routine.lines_congr {r : Routine} (d : Nat) (h : ∀ v ∈ r.vars, r.scope.get? v = s.get? v) :
    Routine.lines { r with scope := s } d = r.lines d := by
  rw [Routine.vars, List.forall_mem_append, List.forall_mem_append] at h
  obtain ⟨⟨hparams, hbody⟩, hresult⟩ := h
  have hdeclared : Routine.declaredParams { r with scope := s } = r.declaredParams := by
    unfold declaredParams
    congr 1
    apply List.map_congr_left
    intro v hv
    rw [Scope.ty_congr (hparams v hv), Scope.name_congr (hparams v hv)]
  unfold Routine.lines
  rw [hdeclared, ← Block.lines_congr (d + 1) hbody]
  unfold returnType
  cases hr : r.result with
  | none => rfl
  | some e =>
    rw [hr] at hresult
    dsimp only
    rw [Expr.render_congr hresult, Expr.ty_congr hresult]

end Agreement

/-! ## What is proper looks up nothing else -/

/-- A scope with more variables. -/
def Scope.extend (s : Scope) (more : Array Variable) : Scope :=
  ⟨s.vars ++ more⟩

theorem Scope.get?_extend {s : Scope} {more : Array Variable} {v : VarId} (h : v < s.vars.size) :
    s.get? v = (s.extend more).get? v :=
  (Array.getElem?_append_left h).symm

theorem Act.Proper.vars_lt {n : Nat} {a : Act} (h : a.Proper n) : ∀ v ∈ a.vars, v < n := by
  have hroot := h.root
  cases a with
  | eval e | test e => exact Expr.lt_of_mem_vars (h.nodes e rfl)
  | declare v init =>
    refine List.forall_mem_cons.2 ⟨hroot.1, ?_⟩
    cases init with
    | none => exact nofun
    | some e => exact Expr.lt_of_mem_vars (h.nodes e rfl)
  | assign t e =>
    refine List.forall_mem_append.2 ⟨?_, Expr.lt_of_mem_vars (h.nodes e rfl)⟩
    cases t with
    | var v => exact List.forall_mem_singleton.2 (hroot.1 v rfl)
    | global | entryVar => exact nofun

theorem Block.Proper.vars_lt {n : Nat} {b : Block} (h : Block.Proper n b) : ∀ v ∈ Block.vars b, v < n := by
  intro v hv
  obtain ⟨q, hq, hv⟩ := List.mem_flatMap.1 hv
  exact (h q hq).vars_lt v hv

/-- **All variables of a proper method are in its scope.** -/
theorem Routine.Proper.vars_lt {r : Routine} (h : r.Proper) : ∀ v ∈ r.vars, v < r.scope.vars.size := by
  rw [Routine.vars, List.forall_mem_append, List.forall_mem_append]
  refine ⟨⟨h.params, h.body.vars_lt⟩, ?_⟩
  cases hr : r.result with
  | none => exact nofun
  | some e => exact Expr.lt_of_mem_vars (h.result e hr).1

end Bibstyle
