import Bibstyle.Proofs.Acts
import Bibstyle.Proofs.Triple
import Bibstyle.Proofs.Variables
/-!
# Purity — values are made of values, and effects stand alone

What changes something is a statement of its own, or the value of a new variable.  So a call with an effect is no part of a
bigger expression, and no procedure of the style is part of any: an operand is a value that changes nothing.  All variables
are in the scope.  Whatever lies on the stack is such an operand or a procedure, and only a variable may be of unknown type.

Which procedures there are, and which faults may come of them, depends on the body.  A run is looked at under a `Custom` that
says so: what holds of the procedures of a body holds of all that lie on a stack.
-/
namespace Bibstyle

/-! ## Expressions -/

namespace Expr

/-- Whether an expression is a call that changes something. -/
def isEffect : Expr → Bool
  | call _ _ _ effect => effect
  | _ => false

/-- **What may be part of an expression**: a value that changes nothing by itself. -/
def IsOperand (e : Expr) : Prop :=
  e.isValue = true ∧ e.isEffect = false

/-- **A node made of operands**, in a scope of `n` variables. -/
def Proper (n : Nat) : Expr → Prop
  | var v => v < n
  | call _ args _ _ => ∀ a ∈ args, a.IsOperand
  | binary _ l r | compare _ l r => l.IsOperand ∧ r.IsOperand
  | _ => True

theorem Proper.mono {n k : Nat} {x : Expr} (h : x.Proper n) (hk : n ≤ k) : x.Proper k := by
  cases x with
  | var v => exact Nat.lt_of_lt_of_le h hk
  | _ => exact h

theorem nodes_eq_cons (e : Expr) : e.nodes = e :: e.nodes.tail := by
  cases e <;> rfl

mutual

/-- Below its root, a proper expression has operands only. -/
theorem isOperand_of_mem_tail {n : Nat} : ∀ {e : Expr}, (∀ x ∈ e.nodes, x.Proper n) → ∀ x ∈ e.nodes.tail, x.IsOperand
  | .call c args t effect, h => by
    rw [nodes, List.forall_mem_cons] at h
    exact isOperand_of_mem_nodesAll h.2 h.1
  | .binary op l r, h | .compare op l r, h => by
    rw [nodes, List.forall_mem_cons, List.forall_mem_append] at h
    have hl := isOperand_of_mem_tail h.2.1
    have hr := isOperand_of_mem_tail h.2.2
    rw [nodes, List.tail_cons, nodes_eq_cons l, nodes_eq_cons r, List.forall_mem_append, List.forall_mem_cons,
      List.forall_mem_cons]
    exact ⟨⟨h.1.1, hl⟩, h.1.2, hr⟩
  | .int _, _ | .str _, _ | .quoted _, _ | .var _, _ | .global _ _, _ | .field _, _ | .entryVar _ _, _ | .entry, _
  | .verbatim _ _, _ | .block _, _ => nofun

theorem isOperand_of_mem_nodesAll {n : Nat} : ∀ {es : List Expr}, (∀ x ∈ nodesAll es, x.Proper n) →
    (∀ e ∈ es, e.IsOperand) → ∀ x ∈ nodesAll es, x.IsOperand
  | [], _, _ => List.forall_mem_nil _
  | e :: es, h, hes => by
    rw [nodesAll, List.forall_mem_append] at h
    rw [List.forall_mem_cons] at hes
    have hfirst := isOperand_of_mem_tail h.1
    rw [nodesAll, nodes_eq_cons e, List.forall_mem_append, List.forall_mem_cons]
    exact ⟨⟨hes.1, hfirst⟩, isOperand_of_mem_nodesAll h.2 hes.2⟩

end

mutual

/-- **An expression is pure if no call in it has an effect.** -/
theorem isPure_of_nodes : ∀ {e : Expr}, (∀ x ∈ e.nodes, x.isEffect = false) → e.isPure = true
  | .call c args t effect, h => by
    rw [nodes, List.forall_mem_cons] at h
    have heffect : effect = false := h.1
    simp [isPure, heffect, allPure_of_nodes h.2]
  | .binary op l r, h | .compare op l r, h => by
    rw [nodes, List.forall_mem_cons, List.forall_mem_append] at h
    simp [isPure, isPure_of_nodes h.2.1, isPure_of_nodes h.2.2]
  | .int _, _ | .str _, _ | .quoted _, _ | .var _, _ | .global _ _, _ | .field _, _ | .entryVar _ _, _ | .entry, _
  | .verbatim _ _, _ | .block _, _ => rfl

theorem allPure_of_nodes : ∀ {es : List Expr}, (∀ x ∈ nodesAll es, x.isEffect = false) → allPure es = true
  | [], _ => rfl
  | e :: es, h => by
    rw [nodesAll, List.forall_mem_append] at h
    simp [allPure, isPure_of_nodes h.1, allPure_of_nodes h.2]

end

theorem isPure_of_proper {n : Nat} {e : Expr} (h : ∀ x ∈ e.nodes, x.Proper n) (hroot : e.isEffect = false) :
    e.isPure = true := by
  apply isPure_of_nodes
  rw [nodes_eq_cons, List.forall_mem_cons]
  exact ⟨hroot, fun x hx => (isOperand_of_mem_tail h x hx).2⟩

theorem isValue_of_proper {n : Nat} {e : Expr} (h : ∀ x ∈ e.nodes, x.Proper n) (hroot : e.isValue = true) :
    ∀ x ∈ e.nodes, x.isValue = true := by
  rw [nodes_eq_cons, List.forall_mem_cons]
  exact ⟨hroot, fun x hx => (isOperand_of_mem_tail h x hx).1⟩

theorem lt_of_mem_vars {n : Nat} {e : Expr} (h : ∀ x ∈ e.nodes, x.Proper n) : ∀ v ∈ e.vars, v < n := by
  intro v hv
  obtain ⟨x, hx, hvar⟩ := List.mem_filterMap.1 hv
  have hproper := h x hx
  cases x <;> cases hvar
  exact hproper

/-! ## Computing constants -/

theorem isValue_foldBinary (op : BinaryOp) (l r : Expr) : (foldBinary op l r).isValue = true := by
  unfold foldBinary
  split <;> first | rfl | (split <;> rfl)

theorem isEffect_foldBinary (op : BinaryOp) (l r : Expr) : (foldBinary op l r).isEffect = false := by
  unfold foldBinary
  split <;> first | rfl | (split <;> rfl)

theorem isValue_foldCompare (op : CompareOp) (l r : Expr) : (foldCompare op l r).isValue = true := by
  unfold foldCompare
  split <;> rfl

theorem isEffect_foldCompare (op : CompareOp) (l r : Expr) : (foldCompare op l r).isEffect = false := by
  unfold foldCompare
  split <;> rfl

theorem isValue_fold (e : Expr) : (fold e).isValue = e.isValue := by
  cases e with
  | binary op l r => exact isValue_foldBinary op _ _
  | compare op l r => exact isValue_foldCompare op _ _
  | _ => rfl

theorem isEffect_fold (e : Expr) : (fold e).isEffect = e.isEffect := by
  cases e with
  | binary op l r => exact isEffect_foldBinary op _ _
  | compare op l r => exact isEffect_foldCompare op _ _
  | _ => rfl

theorem IsOperand.fold {e : Expr} (h : e.IsOperand) : (Expr.fold e).IsOperand :=
  ⟨(isValue_fold e).trans h.1, (isEffect_fold e).trans h.2⟩

theorem stable_proper (n : Nat) : Stable (Proper n) where
  int _ := trivial
  str _ := trivial
  call c args t effect h := by
    intro a ha
    rw [foldAll_eq_map] at ha
    obtain ⟨e, he, rfl⟩ := List.mem_map.1 ha
    exact (h e he).fold
  binary op l r h := ⟨h.1.fold, h.2.fold⟩
  compare op l r h := ⟨h.1.fold, h.2.fold⟩
  join e a b h := ⟨h.1, rfl, rfl⟩

end Expr

/-! ## Code -/

/-- What an act may do with an expression: what is stored or tested is an operand, and only a bare evaluation and the value
of a new variable may change something. -/
def Act.Rooted (n : Nat) : Act → Prop
  | .eval e => e.isValue = true
  | .declare v init => v < n ∧ ∀ e, init = some e → e.isValue = true
  | .assign t e => (∀ v, t = .var v → v < n) ∧ e.IsOperand
  | .test e => e.IsOperand

/-- **An act that is proper**, at its root and below it. -/
structure Act.Proper (n : Nat) (a : Act) : Prop where
  nodes : ∀ e, a.expr? = some e → ∀ x ∈ e.nodes, x.Proper n
  root : a.Rooted n

theorem Act.Proper.mono {n k : Nat} {a : Act} (h : a.Proper n) (hk : n ≤ k) : a.Proper k := by
  refine ⟨fun e he x hx => (h.nodes e he x hx).mono hk, ?_⟩
  have hroot := h.root
  cases a with
  | eval | test => exact hroot
  | declare v init => exact ⟨Nat.lt_of_lt_of_le hroot.1 hk, hroot.2⟩
  | assign t e => exact ⟨fun v hv => Nat.lt_of_lt_of_le (hroot.1 v hv) hk, hroot.2⟩

theorem Act.stable_proper (n : Nat) : Act.Stable (fun _ a => a.Proper n) where
  fold _ a h := by
    constructor
    · intro e he
      rw [Act.expr?_map, Option.map_eq_some_iff] at he
      obtain ⟨e', he', rfl⟩ := he
      exact (Expr.stable_proper n).fold (h.nodes e' he')
    · have hroot := h.root
      cases a with
      | eval e => exact (Expr.isValue_fold e).trans hroot
      | test e => exact hroot.fold
      | assign t e => exact ⟨hroot.1, hroot.2.fold⟩
      | declare v init =>
        refine ⟨hroot.1, fun e he => ?_⟩
        obtain ⟨e', he', rfl⟩ := Option.map_eq_some_iff.1 he
        exact (Expr.isValue_fold e').trans (hroot.2 e' he')
  leaves _ a b hleaves h := by
    refine ⟨fun e he => h.nodes e (hleaves.expr?_eq ▸ he), ?_⟩
    have hroot := h.root
    cases hleaves with
    | all => exact hroot
    | declared v e => exact hroot.2 e rfl
    | assigned v e => exact hroot.2.1

/-- **Statements all of whose acts are proper.** -/
def Block.Proper (n : Nat) (b : Block) : Prop :=
  ∀ q ∈ Stmt.actsAll false b, q.2.Proper n

namespace Block.Proper

variable {n k : Nat}

theorem mono {b : Block} (h : Block.Proper n b) (hk : n ≤ k) : Block.Proper k b :=
  fun q hq => (h q hq).mono hk

theorem nil : Block.Proper n [] :=
  nofun

theorem append {a b : Block} (ha : Block.Proper n a) (hb : Block.Proper n b) : Block.Proper n (a ++ b) := by
  intro q hq
  rw [Stmt.actsAll_append] at hq
  exact (List.mem_append.1 hq).elim (ha q) (hb q)

theorem single {t : Stmt} (h : ∀ q ∈ t.acts false, q.2.Proper n) : Block.Proper n [t] := by
  intro q hq
  rw [Stmt.actsAll_single] at hq
  exact h q hq

theorem eval {e : Expr} (h : ∀ x ∈ e.nodes, x.Proper n) (hvalue : e.isValue = true) : Block.Proper n [.eval e] :=
  .single (List.forall_mem_singleton.2 ⟨fun x hx => by cases hx; exact h, hvalue⟩)

theorem declare {v : VarId} {e : Expr} (hv : v < n) (h : ∀ x ∈ e.nodes, x.Proper n) (hvalue : e.isValue = true) :
    Block.Proper n [.declare v (some e)] :=
  .single (List.forall_mem_singleton.2 ⟨fun x hx => by cases hx; exact h, hv, fun x hx => by cases hx; exact hvalue⟩)

theorem bare {v : VarId} (hv : v < n) : Block.Proper n [.declare v none] :=
  .single (List.forall_mem_singleton.2 ⟨nofun, hv, nofun⟩)

theorem assign {t : Target} {e : Expr} (ht : ∀ v, t = .var v → v < n) (h : ∀ x ∈ e.nodes, x.Proper n) (he : e.IsOperand) :
    Block.Proper n [.assign t e] :=
  .single (List.forall_mem_singleton.2 ⟨fun x hx => by cases hx; exact h, ht, he⟩)

theorem branch {c : Expr} {yes no : Block} (h : ∀ x ∈ c.nodes, x.Proper n) (hc : c.IsOperand) (hyes : Block.Proper n yes)
    (hno : Block.Proper n no) : Block.Proper n [.branch c yes no] :=
  .single (List.forall_mem_cons.2 ⟨⟨fun x hx => by cases hx; exact h, hc⟩, List.forall_mem_append.2 ⟨hyes, hno⟩⟩)

theorem loop {c : Expr} {setup body : Block} (hsetup : Block.Proper n setup) (h : ∀ x ∈ c.nodes, x.Proper n)
    (hc : c.IsOperand) (hbody : Block.Proper n body) : Block.Proper n [.loop setup c body] :=
  .single (List.forall_mem_cons.2 ⟨⟨fun x hx => by cases hx; exact h, hc⟩, List.forall_mem_append.2 ⟨hsetup, hbody⟩⟩)

end Block.Proper

/-- **A method that is proper**: its code, its result and its parameters, in its own scope. -/
structure Routine.Proper (r : Routine) : Prop where
  params : ∀ v ∈ r.params, v < r.scope.vars.size
  body : Block.Proper r.scope.vars.size r.body
  result : ∀ e, r.result = some e → (∀ x ∈ e.nodes, x.Proper r.scope.vars.size) ∧ e.IsOperand

theorem Routine.Proper.reduce {r : Routine} (h : r.Proper) : r.reduce.Proper where
  params := h.params
  body := (Act.stable_proper _).reduce h.body
  result e he := by
    obtain ⟨e', he', rfl⟩ := Option.map_eq_some_iff.1 he
    obtain ⟨hnodes, hoperand⟩ := h.result e' he'
    exact ⟨(Expr.stable_proper _).fold hnodes, hoperand.fold⟩

end Bibstyle
