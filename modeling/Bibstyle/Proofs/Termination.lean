import Mathlib.Algebra.GroupWithZero.Nat
import Bibstyle.Proofs.Triple
/-!
# Termination — how deeply procedures run procedures

A procedure that is run is gone from the stack, so running it leaves fewer procedures to run: those on the stack and
those still to be pushed by the terms ahead.  Each side of `if$` has the whole stack, but what is left of it counts once,
because the two sides are merged slot by slot.  The only way to have more procedures is to copy one with `duplicate$`.
Hence a run that copies none nests at most as deeply as its terms hold procedures.  A copy of a quoted name runs no terms, so
names may be copied as well if the bare names, each of which may stand for a `duplicate$`, are counted too.  With copies of
blocks a run may never end: a block that copies what lies on the stack and runs the copy, given itself, does that forever.
-/
namespace Bibstyle

/-! ## Counting procedures -/

mutual

/-- **How many procedures a term holds**: each block and each quoted name is one.  A bare name counts as many as running it may
add to the stack. -/
def Term.procedures (c : Nat) : Term → Nat
  | .block ts _ => 1 + proceduresAll c ts
  | .quoted _ _ => 1
  | .name _ _ => c
  | _ => 0

def Term.proceduresAll (c : Nat) : List Term → Nat
  | [] => 0
  | t :: ts => t.procedures c + proceduresAll c ts

end

namespace Expr

def isBlock : Expr → Bool
  | block _ => true
  | _ => false

/-- How many procedures an expression on the stack holds; a value holds none. -/
def procedures (c : Nat) : Expr → Nat
  | block g => 1 + Term.proceduresAll c g.terms
  | quoted _ => 1
  | _ => 0

def proceduresAll (c : Nat) (es : List Expr) : Nat :=
  (es.map (procedures c)).sum

theorem procedures_of_isValue (c : Nat) {e : Expr} (h : e.isValue = true) : e.procedures c = 0 := by
  cases e <;> first | rfl | cases h

theorem proceduresAll_cons (c : Nat) (e : Expr) (es : List Expr) :
    proceduresAll c (e :: es) = e.procedures c + proceduresAll c es := by
  simp [proceduresAll]

theorem proceduresAll_append (c : Nat) (a b : List Expr) : proceduresAll c (a ++ b) = proceduresAll c a + proceduresAll c b := by
  simp [proceduresAll]

end Expr

/-- How many procedures a procedure holds, itself included. -/
def Procedure.procedures (c : Nat) (p : Procedure) : Nat :=
  p.toExpr.procedures c

theorem Procedure.procedures_pos (c : Nat) (p : Procedure) : 0 < p.procedures c := by
  cases p <;> simp only [procedures, toExpr, Expr.procedures] <;> omega

/-- How many procedures lie on the stack of a machine. -/
def Machine.procedures (c : Nat) (m : Machine) : Nat :=
  Expr.proceduresAll c m.frame.stack

namespace Eval

variable {α β : Type} {c : Nat}

/-! ## Runs that leave no more procedures than they find -/

/-- **A run that does not add procedures and does not nest too deeply.** -/
def Modest (x : Eval α) : Prop :=
  ∀ c n, Triple (·.procedures c ≤ n) x (fun _ m => m.procedures c ≤ n) (· ≠ .exhausted)

theorem Modest.bind {x : Eval α} {f : α → Eval β} (hx : Modest x) (hf : ∀ a, Modest (f a)) : Modest (x >>= f) :=
  fun c n => (hx c n).bind (fun a => hf a c n)

theorem Modest.pure {a : α} : Modest (pure a) :=
  fun _ _ => .pure (fun _ h => h)

theorem Modest.throw {e : AnalysisFault} (h : e ≠ .exhausted) : Modest (throw e : Eval α) :=
  fun _ _ => .throw (fun _ _ => h)

/-- A change of the machine that leaves the stack as it is. -/
theorem Modest.modify {f : Machine → Machine} (h : ∀ m, (f m).frame.stack = m.frame.stack) : Modest (modify f) :=
  fun _ _ => .modify (fun m hm => by simpa only [Machine.procedures, h m] using hm)

theorem Modest.modifyGet {f : Machine → α × Machine} (h : ∀ m, (f m).2.frame.stack = m.frame.stack) :
    Modest (modifyGet f) := by
  intro c n m hm
  show (f m).2.procedures c ≤ n
  simpa only [Machine.procedures, h m] using hm

theorem Modest.get : Modest get :=
  fun _ _ _ hm => hm

theorem Modest.ite {c : Prop} [Decidable c] {x y : Eval α} (hx : Modest x) (hy : Modest y) :
    Modest (if c then x else y) := by
  split
  · exact hx
  · exact hy

/-- Procedures in hands stay there. -/
theorem Modest.holding {x : Eval α} (hx : Modest x) (n k : Nat) :
    Triple (fun m => k + m.procedures c ≤ n) x (fun _ m => k + m.procedures c ≤ n) (· ≠ .exhausted) := by
  refine .pointwise (fun m hm => ?_)
  refine ((hx c (m.procedures c)).pre (fun m' hm' => ?_)).post (fun _ m' hm' => ?_)
  · exact Nat.le_of_eq (congrArg (Machine.procedures c) hm')
  · omega

theorem modest_param (d : Nat) (t : Ty) : Modest (param d t) :=
  .modifyGet (fun _ => rfl)

theorem modest_newLocal (t : Ty) : Modest (newLocal t) :=
  .modifyGet (fun _ => rfl)

theorem modest_tyOf (e : Expr) : Modest (tyOf e) :=
  .bind .get (fun _ => .pure)

theorem modest_link (h : Helper) : Modest (link h) :=
  .modify (fun m => by split <;> rfl)

theorem modest_touchEntry : Modest touchEntry :=
  .modify (fun _ => rfl)

theorem modest_emit (t : Stmt) : Modest (emit t) :=
  .modify (fun _ => rfl)

theorem modest_mismatch (p t : String) (e : Expr) : Modest (mismatch p t e : Eval α) :=
  fun _ _ => .mismatch (fun _ => by simp)

theorem modest_push {e : Expr} (h : e.isValue = true) : Modest (push e) := by
  refine fun c n => .modify (fun m hm => ?_)
  simpa only [Machine.procedures, Expr.proceduresAll_cons, Expr.procedures_of_isValue c h, Nat.zero_add] using hm

/-- Taking a value moves its procedures from the stack into hands. -/
theorem popAs_procedures (c : Nat) (t : Ty) (n k : Nat) :
    Triple (fun m => k + m.procedures c ≤ n) (popAs t) (fun e m => k + e.procedures c + m.procedures c ≤ n)
      (· ≠ .exhausted) := by
  intro m hm
  cases hs : m.frame.stack with
  | nil =>
    rw [popAs_nil hs]
    simpa [Machine.procedures, Expr.procedures, hs] using hm
  | cons e rest =>
    rw [popAs_cons hs]
    simp only [Machine.procedures, hs, Expr.proceduresAll_cons] at hm ⊢
    omega

theorem modest_popAs (t : Ty) : Modest (popAs t) :=
  fun c n => ((popAs_procedures c t n 0).pre (fun m hm => by omega)).post (fun e m hm => by omega)

theorem modest_check (e : Expr) (t : Ty) (p : String) : Modest (check e t p) := by
  unfold check
  refine .bind (modest_tyOf e) (fun found => ?_)
  refine .ite (modest_mismatch _ _ _) ?_
  split
  · exact .bind (.modify (fun _ => rfl)) (fun _ => .pure)
  · exact .pure

theorem modest_popTyped (t : Ty) (p : String) : Modest (popTyped t p) :=
  .bind (modest_popAs t) (fun e => modest_check e t p)

theorem modest_popArgs (p : String) : ∀ ts : List Ty, Modest (popArgs p ts)
  | [] => .pure
  | t :: ts => .bind (modest_popArgs p ts) (fun _ => .bind (modest_popTyped t p) (fun _ => .pure))

theorem popProcedure_procedures (c : Nat) (p : String) (n k : Nat) :
    Triple (fun m => k + m.procedures c ≤ n) (popProcedure p) (fun q m => k + q.procedures c + m.procedures c ≤ n)
      (· ≠ .exhausted) := by
  unfold popProcedure
  refine .bind (popAs_procedures c .generic n k) (fun e => ?_)
  split
  · exact .pure (fun m hm => hm)
  · exact .pure (fun m hm => hm)
  · exact .mismatch (fun _ => by simp)

/-! ## Spilling -/

/-- Slots that are spilled hold no procedures any more, and the stack is not touched yet. -/
theorem spillSlots_procedures (which : Expr → Bool) (n : Nat) (es : List Expr) :
    Triple (·.procedures c ≤ n) (spillSlots which es)
      (fun slots m => Expr.proceduresAll c slots ≤ Expr.proceduresAll c es ∧ m.procedures c ≤ n) (· ≠ .exhausted) := by
  induction es with
  | nil => exact .pure (fun m hm => ⟨Nat.le_refl _, hm⟩)
  | cons e below ih =>
    unfold spillSlots
    refine .bind ih (fun slots => ?_)
    refine .ite (fun _ => ?_) (fun _ => ?_)
    · refine .pointwise (fun m hm => ?_)
      refine .pre (P := (·.procedures c ≤ n)) ?_ (fun m' hm' => by rw [hm']; exact hm.2)
      refine .bind (modest_tyOf e c n) (fun t => .bind (modest_newLocal t c n) (fun v => .bind (modest_emit _ c n) (fun _ => ?_)))
      refine .pure (fun m' hm' => ⟨?_, hm'⟩)
      simp only [Expr.proceduresAll_cons, Expr.procedures]
      omega
    · refine .pure (fun m hm => ⟨?_, hm.2⟩)
      simp only [Expr.proceduresAll_cons]
      omega

theorem setStack_procedures {es : List Expr} {n : Nat} (h : Expr.proceduresAll c es ≤ n) {P : Machine → Prop}
    {E : AnalysisFault → Prop} : Triple P (setStack es) (fun _ m => m.procedures c ≤ n) E :=
  .modify (fun _ _ => h)

theorem modest_spillWhere (changes : Expr → Bool) : Modest (spillWhere changes) := by
  intro c n
  unfold spillWhere
  refine .bind .get (fun m₀ => .pointwise (fun m hm => ?_))
  obtain ⟨rfl, hm⟩ := hm
  refine .pre (P := (·.procedures c ≤ n)) ?_ (fun m' hm' => by rw [hm']; exact hm)
  refine .bind (spillSlots_procedures _ n _) (fun slots => .pointwise (fun m' hm' => ?_))
  exact setStack_procedures (Nat.le_trans hm'.1 hm)

theorem modest_spillAll (p : String) : Modest (spillAll p) := by
  intro c n
  unfold spillAll
  refine .bind .get (fun m₀ => .pointwise (fun m hm => ?_))
  obtain ⟨rfl, hm⟩ := hm
  refine .pre (P := (·.procedures c ≤ n)) ?_ (fun m' hm' => by rw [hm']; exact hm)
  refine .bind (spillSlots_procedures _ n _) (fun slots => .pointwise (fun m' hm' => ?_))
  have hsplit : Expr.proceduresAll c (m₀.frame.stack.take (m₀.frame.stack.length -
      (m₀.frame.stack.reverse.takeWhile Expr.isValue).reverse.length)) + Expr.proceduresAll c slots ≤ n := by
    have hstack := Expr.proceduresAll_append c (m₀.frame.stack.take (m₀.frame.stack.length -
      (m₀.frame.stack.reverse.takeWhile Expr.isValue).reverse.length)) (m₀.frame.stack.reverse.takeWhile Expr.isValue).reverse
    rw [take_append_values] at hstack
    have hslots := hm'.1
    simp only [Machine.procedures] at hm
    omega
  refine .bind (Q := fun _ m => m.procedures c ≤ n) (setStack_procedures ?_) (fun _ => ?_)
  · rw [Expr.proceduresAll_append]; exact hsplit
  · exact .ite (fun _ => .pure (fun _ h => h)) (fun _ => .throw (fun _ _ => by simp))

/-! ## Branches and loops -/

/-- **A way of running procedures that nests deeply enough for `n` of them.**  The procedure to run counts with those on
the stack, and is not counted any more when it is done. -/
def RunsWithin (c : Nat) (run : Procedure → Eval Unit) (n : Nat) : Prop :=
  ∀ k ≤ n, ∀ p : Procedure,
    Triple (fun m => p.procedures c + m.procedures c ≤ k) (run p) (fun _ m => m.procedures c ≤ k) (· ≠ .exhausted)

theorem RunsWithin.mono {run : Procedure → Eval Unit} {n k : Nat} (h : RunsWithin c run n) (hk : k ≤ n) : RunsWithin c run k :=
  fun j hj => h j (Nat.le_trans hj hk)

/-- A procedure in hands that is run in a nested frame starts with the stack of the frame around it, and does not change
that. -/
theorem inNested_procedures {run : Procedure → Eval Unit} {n k : Nat} (hrun : RunsWithin c run n) {p : Procedure}
    (hp : p.procedures c ≤ k) :
    Triple (fun m => k + m.procedures c ≤ n) (inNested (run p))
      (fun f m => Expr.proceduresAll c f.stack ≤ n ∧ k + m.procedures c ≤ n) (· ≠ .exhausted) := by
  intro m hm
  have hx := hrun n (Nat.le_refl n) p { m with frame := m.frame.nested } (Nat.le_trans (Nat.add_le_add_right hp _) hm)
  simp only [inNested]
  cases hrunp : run p { m with frame := m.frame.nested } with
  | ok _ after => rw [hrunp] at hx; exact ⟨hx, hm⟩
  | error e after => rw [hrunp] at hx; exact hx

theorem paramsTo_procedures (base n : Nat) : ∀ depth k : Nat,
    Triple (·.procedures c ≤ n) (paramsTo base depth k) (fun es m => Expr.proceduresAll c es = 0 ∧ m.procedures c ≤ n)
      (· ≠ .exhausted)
  | _, 0 => .pure (fun _ hm => ⟨rfl, hm⟩)
  | depth, k + 1 => by
    unfold paramsTo
    refine .bind (paramsTo_procedures base n (depth + 1) k) (fun es => .pointwise (fun m hm => ?_))
    refine .pre (P := (·.procedures c ≤ n)) ?_ (fun m' hm' => by rw [hm']; exact hm.2)
    refine .bind (modest_param _ _ c n) (fun v => .pure (fun m' hm' => ⟨?_, hm'⟩))
    rw [Expr.proceduresAll_cons, hm.1]
    rfl

theorem fullView_procedures (f : Frame) (drawn n : Nat) :
    Triple (·.procedures c ≤ n) (fullView f drawn)
      (fun es m => Expr.proceduresAll c es = Expr.proceduresAll c f.stack ∧ m.procedures c ≤ n) (· ≠ .exhausted) := by
  unfold fullView
  refine .bind (paramsTo_procedures f.base n _ _) (fun es => .pure (fun m hm => ⟨?_, hm.2⟩))
  rw [Expr.proceduresAll_append, hm.1, Nat.add_zero]

/-- A slot that is kept is a slot of the first side, and a slot that is stored holds no procedures. -/
theorem mergeSlots_procedures (n : Nat) : ∀ yes no : List Expr,
    Triple (·.procedures c ≤ n) (mergeSlots yes no)
      (fun merged m => Expr.proceduresAll c merged.stack ≤ Expr.proceduresAll c yes ∧ m.procedures c ≤ n) (· ≠ .exhausted)
  | [], _ => .pure (fun _ hm => ⟨Nat.le_refl _, hm⟩)
  | _ :: _, [] => .pure (fun _ hm => ⟨Nat.zero_le _, hm⟩)
  | y :: yes, z :: no => by
    unfold mergeSlots
    refine .bind (mergeSlots_procedures n yes no) (fun below => .pointwise (fun m hm => ?_))
    refine .pre (P := (·.procedures c ≤ n)) ?_ (fun m' hm' => by rw [hm']; exact hm.2)
    unfold mergeSlot
    refine .ite (fun _ => .pure (fun m' hm' => ⟨?_, hm'⟩)) (fun _ => .ite (fun _ => .throw (fun _ _ => by simp)) (fun _ => ?_))
    · simp only [Expr.proceduresAll_cons]
      omega
    · refine .bind (modest_tyOf y c n) (fun a => .bind (modest_tyOf z c n) (fun b => ?_))
      split
      · exact .throw (fun _ _ => by simp)
      · refine .bind (modest_check y _ _ c n) (fun _ => .bind (modest_check z _ _ c n) (fun _ => ?_))
        refine .bind (modest_newLocal _ c n) (fun v => .bind (modest_emit _ c n) (fun _ => .pure (fun m' hm' => ⟨?_, hm'⟩)))
        simp only [Expr.proceduresAll_cons, Expr.procedures]
        omega

section Control

variable {run : Procedure → Eval Unit} {n : Nat}

theorem branch_procedures (hrun : RunsWithin c run n) :
    Triple (·.procedures c ≤ n) (branch run) (fun _ m => m.procedures c ≤ n) (· ≠ .exhausted) := by
  unfold branch
  refine .bind ((popProcedure_procedures c "if$" n 0).pre (fun m hm => by omega)) (fun no => ?_)
  refine .bind (popProcedure_procedures c "if$" n _) (fun yes => ?_)
  refine .bind ((modest_popTyped .int "if$").holding n _) (fun condition => ?_)
  refine .bind (inNested_procedures hrun (by omega)) (fun yesFrame => .pointwise (fun m₁ h₁ => ?_))
  refine .pre (P := fun m => 0 + no.procedures c + yes.procedures c + m.procedures c ≤ n) ?_ (fun m h => by rw [h]; exact h₁.2)
  refine .bind (inNested_procedures hrun (by omega)) (fun noFrame => ?_)
  refine .pre (P := (·.procedures c ≤ n)) ?_ (fun m h => by omega)
  refine .bind (fullView_procedures yesFrame _ n) (fun yesView => .pointwise (fun m₂ h₂ => ?_))
  refine .pre (P := (·.procedures c ≤ n)) ?_ (fun m h => by rw [h]; exact h₂.2)
  refine .bind ((fullView_procedures noFrame _ n).post (fun _ _ h => h.2)) (fun noView => ?_)
  refine .ite (fun _ => ?_) (fun _ => .throw (fun _ _ => by simp))
  refine .bind (mergeSlots_procedures n yesView noView) (fun merged => .pointwise (fun m₃ h₃ => ?_))
  refine .bind (Q := fun _ _ => True) (fun _ _ => trivial) (fun _ => .modify (fun m₄ _ => ?_))
  have hyes := h₁.1
  have hview := h₂.1
  have hmerged := h₃.1
  show Expr.proceduresAll c merged.stack ≤ n
  omega

theorem modest_changedSlots : ∀ (vs : List VarId) (es : List Expr), Modest (changedSlots vs es)
  | [], _ => .pure
  | _ :: _, [] => .pure
  | v :: vs, e :: es => by
    unfold changedSlots
    refine .bind (modest_changedSlots vs es) (fun below => .ite .pure ?_)
    exact .bind (modest_tyOf _) (fun t => .bind (modest_check e t _) (fun _ => .pure))

theorem modest_temporaries : ∀ changed : List (VarId × Expr), Modest (temporaries changed)
  | [] => .pure
  | (_, e) :: rest => by
    unfold temporaries
    exact .bind (modest_tyOf e) (fun t => .bind (modest_newLocal t) (fun _ => .bind (modest_temporaries rest) (fun _ => .pure)))

theorem modest_updates (changed : List (VarId × Expr)) : Modest (updates changed) := by
  unfold updates
  split
  · exact .pure
  · exact .bind (modest_temporaries _) (fun _ => .pure)

theorem loopTest_procedures (hrun : RunsWithin c run n) {p : Procedure} {k : Nat} (hp : p.procedures c ≤ k) (start : List Expr) :
    Triple (fun m => k + m.procedures c ≤ n) (loopTest (run p) start) (fun _ m => k + m.procedures c ≤ n) (· ≠ .exhausted) := by
  rw [loopTest_eq]
  refine .bind ((inNested_procedures hrun hp).post (fun _ _ h => h.2)) (fun f => ?_)
  refine .ite (fun _ => .throw (fun _ _ => by simp)) (fun _ => ?_)
  split
  · exact .throw (fun _ _ => by simp)
  · refine .ite (fun _ => ?_) (fun _ => .throw (fun _ _ => by simp))
    refine .bind ((modest_check _ _ _).holding n k) (fun value => ?_)
    exact .ite (fun _ => .pure (fun _ h => h)) (fun _ => .throw (fun _ _ => by simp))

theorem loopBody_procedures (hrun : RunsWithin c run n) {p : Procedure} {k : Nat} (hp : p.procedures c ≤ k) (vars : List VarId) :
    Triple (fun m => k + m.procedures c ≤ n) (loopBody (run p) vars) (fun _ m => k + m.procedures c ≤ n) (· ≠ .exhausted) := by
  unfold loopBody
  refine .bind ((inNested_procedures hrun hp).post (fun _ _ h => h.2)) (fun f => ?_)
  refine .ite (fun _ => .throw (fun _ _ => by simp)) (fun _ => .ite (fun _ => ?_) (fun _ => .throw (fun _ _ => by simp)))
  refine .bind ((modest_changedSlots _ _).holding n k) (fun changed => ?_)
  exact .bind ((modest_updates changed).holding n k) (fun _ => .pure (fun _ h => h))

theorem loop_procedures (hrun : RunsWithin c run n) :
    Triple (·.procedures c ≤ n) (loop run) (fun _ m => m.procedures c ≤ n) (· ≠ .exhausted) := by
  unfold loop
  refine .bind ((popProcedure_procedures c "while$" n 0).pre (fun m hm => by omega)) (fun body => ?_)
  refine .bind (popProcedure_procedures c "while$" n _) (fun condition => ?_)
  refine .bind ((modest_spillAll "while$").holding n _) (fun vars => ?_)
  refine .bind (loopTest_procedures hrun (by omega) _) (fun test => ?_)
  refine .bind (loopBody_procedures hrun (by omega) vars) (fun code => ?_)
  exact (modest_emit _ c n).pre (fun m hm => by omega)

/-! ## Primitives and names -/

theorem modest_callMethod (p : String) (ts : List Ty) (method : String) (t : Ty) : Modest (callMethod p ts method t) :=
  .bind (modest_popArgs p ts) (fun _ => modest_push rfl)

theorem modest_callHelper (p : String) (ts : List Ty) (h : Helper) (t : Ty) : Modest (callHelper p ts h t) :=
  .bind (modest_link h) (fun _ => modest_callMethod p ts h.name t)

theorem modest_callWriter (p : String) (ts : List Ty) (method : String) : Modest (callWriter p ts method) :=
  .bind (modest_popArgs p ts) (fun _ => modest_emit _)

theorem modest_binary (op : BinaryOp) (t : Ty) (p : String) : Modest (binary op t p) :=
  .bind (modest_popTyped t p) (fun _ => .bind (modest_popTyped t p) (fun _ => modest_push rfl))

theorem modest_compare (op : CompareOp) (p : String) : Modest (compare op p) :=
  .bind (modest_popTyped .int p) (fun _ => .bind (modest_popTyped .int p) (fun _ => modest_push rfl))

theorem modest_equal : Modest equal := by
  unfold equal
  refine .bind (modest_popTyped _ _) (fun right => .bind (modest_tyOf right) (fun t => ?_))
  refine .bind (modest_popTyped _ _) (fun left => .bind (modest_tyOf left) (fun u => ?_))
  exact .bind (modest_check _ _ _) (fun _ => modest_push rfl)

theorem assignable_ne_exhausted {dict : Dictionary} {name : String} {e : AnalysisFault}
    (h : assignable dict name = .error e) : e ≠ .exhausted := by
  unfold assignable at h
  split at h <;> cases h <;> simp

theorem modest_storeTop (target : Target) (t : Ty) : Modest (storeTop target t) :=
  .bind (modest_popTyped _ _) (fun _ => .bind (modest_spillWhere _) (fun _ => modest_emit _))

theorem modest_assign (dict : Dictionary) : Modest (assign dict) := by
  unfold assign
  refine .bind (modest_popAs _) (fun e => ?_)
  split
  · split
    · rename_i herror
      exact .throw (assignable_ne_exhausted herror)
    · dsimp only
      split
      · exact .bind modest_touchEntry (fun _ => modest_storeTop _ _)
      · exact modest_storeTop _ _
  · exact modest_mismatch _ _ _

theorem modest_missing : Modest missing := by
  unfold missing
  refine .bind (modest_popAs _) (fun e => .bind (modest_check _ _ _) (fun e => ?_))
  split
  · exact .bind modest_touchEntry (fun _ => modest_push rfl)
  · refine .bind .get (fun m => .ite ?_ (modest_push rfl))
    exact .bind (modest_link _) (fun _ => modest_push rfl)

theorem modest_callType : Modest callType :=
  .bind (modest_link _) (fun _ => .bind (modest_spillWhere _) (fun _ => .bind modest_touchEntry (fun _ => modest_emit _)))

theorem modest_clear : Modest clear :=
  fun _ _ => .modify (fun _ _ => Nat.zero_le _)

/-- Two values that change places are as many procedures as before. -/
theorem modest_swap : Modest swap := by
  intro c n
  unfold swap
  refine .bind ((popAs_procedures c .generic n 0).pre (fun m hm => by omega)) (fun top => ?_)
  refine .bind (popAs_procedures c .generic n _) (fun below => .bind (Q := fun _ m => below.procedures c + m.procedures c ≤ n) ?_ ?_)
  · refine .modify (fun m hm => ?_)
    simp only [Machine.procedures, Expr.proceduresAll_cons] at hm ⊢
    omega
  · refine fun _ => .modify (fun m hm => ?_)
    simp only [Machine.procedures, Expr.proceduresAll_cons] at hm ⊢
    omega

theorem modest_invoke (s : Signature) (args : List Expr) : Modest (invoke s args) := by
  refine .bind (modest_spillWhere _) (fun _ => .ite (modest_emit _) ?_)
  exact .bind (modest_newLocal _) (fun v => .bind (modest_emit _) (fun _ => modest_push rfl))

theorem modest_callRoutine (name : String) (s : Signature) : Modest (callRoutine name s) := by
  rw [callRoutine_eq]
  refine .bind (modest_popArgs _ _) (fun args => .ite ?_ (modest_invoke s args))
  exact .bind modest_touchEntry (fun _ => modest_invoke s _)

/-- Every primitive but `duplicate$` leaves no more procedures than it finds. -/
theorem primitive_procedures (dict : Dictionary) (hrun : RunsWithin c run n) {p : Primitive} (hp : p ≠ .duplicate) :
    Triple (·.procedures c ≤ n) (primitive dict run p) (fun _ m => m.procedures c ≤ n) (· ≠ .exhausted) := by
  cases p with
  | duplicate => exact absurd rfl hp
  | branch => exact branch_procedures hrun
  | loop => exact loop_procedures hrun
  | add | sub | concat => exact modest_binary _ _ _ c n
  | lt | gt => exact modest_compare _ _ c n
  | eq => exact modest_equal c n
  | assign => exact modest_assign dict c n
  | callType => exact modest_callType c n
  | missing => exact modest_missing c n
  | clear => exact modest_clear c n
  | swap => exact modest_swap c n
  | skip => exact Modest.pure c n
  | quote | preamble => exact modest_push rfl c n
  | cite | entryType => exact Modest.bind modest_touchEntry (fun _ => modest_push rfl) c n
  | pop | top => exact Modest.bind (modest_popAs _) (fun _ => .pure) c n
  | newline | warning | write => exact modest_callWriter _ _ _ c n
  | changeCase | intToStr | purify | width => exact modest_callMethod _ _ _ _ c n
  | addPeriod | chrToInt | empty | formatName | intToChr | numNames | substring | textLength | textPrefix =>
    exact modest_callHelper _ _ _ _ c n

end Control

/-! ## Runs that copy little -/

/-- **What may be copied.**  A copy of what is not barred is no more procedures than a bare name counts, and that is at most
one: a quoted name that is run may be `duplicate$`. -/
structure Copying where
  bars : Expr → Bool
  cost : Nat
  cost_le : cost ≤ 1
  copy_le : ∀ e, bars e = false → e.procedures cost ≤ cost

namespace Copying

/-- No procedure may be copied. -/
def noProcedure : Copying where
  bars e := !e.isValue
  cost := 0
  cost_le := Nat.zero_le 1
  copy_le e h := Nat.le_of_eq (e.procedures_of_isValue 0 (by simpa using h))

/-- No block may be copied; a quoted name may. -/
def noBlock : Copying where
  bars := Expr.isBlock
  cost := 1
  cost_le := Nat.le_refl 1
  copy_le e h := by
    cases e with
    | block g => cases h
    | quoted n => exact Nat.le_refl 1
    | _ => exact Nat.zero_le 1

/-- Whether what lies on top may not be copied. -/
def barsTop (κ : Copying) (m : Machine) : Bool :=
  m.frame.stack.head?.any κ.bars

end Copying

/-- The fault of a run that would copy what may not be copied. -/
def copied : AnalysisFault :=
  .problem "a procedure is copied"

/-- Stops a run whose next step is to copy what may not be copied. -/
def refuseCopy (κ : Copying) (dict : Dictionary) (n : String) : Eval Unit := do
  if dict.get? n = some (.primitive .duplicate) ∧ κ.barsTop (← get) = true then throw copied

/-- **Runs one term, unless that copies what may not be copied.** -/
def linearTerm (κ : Copying) (dict : Dictionary) (run : Procedure → Eval Unit) (t : Term) : Eval Unit :=
  match t with
  | .name n _ => do refuseCopy κ dict n; term dict run t
  | _ => term dict run t

/-- Runs terms in order, as far as they copy only what may be copied. -/
def linearTerms (κ : Copying) (dict : Dictionary) (run : Procedure → Eval Unit) : List Term → Eval Unit
  | [] => return ()
  | t :: ts => do
    linearTerm κ dict run t
    linearTerms κ dict run ts

/-- **Runs a procedure as `procedure` does, but stops before what may not be copied is.** -/
def linearProcedure (κ : Copying) (dict : Dictionary) : Nat → Procedure → Eval Unit
  | 0, _ => throw .exhausted
  | depth + 1, .group g => linearTerms κ dict (linearProcedure κ dict depth) g.terms
  | depth + 1, .named n => do refuseCopy κ dict n; name dict (linearProcedure κ dict depth) n

section Linear

variable {κ : Copying} {run : Procedure → Eval Unit} {n : Nat}

theorem refuseCopy_apply (κ : Copying) (dict : Dictionary) (nm : String) (m : Machine) :
    refuseCopy κ dict nm m =
      if dict.get? nm = some (.primitive .duplicate) ∧ κ.barsTop m = true then .error copied m else .ok () m := by
  unfold refuseCopy
  rw [bind_apply]
  change (if dict.get? nm = some (.primitive .duplicate) ∧ κ.barsTop m = true then throw copied else pure () : Eval Unit) m = _
  split <;> rfl

/-- A term that is a procedure puts it on the stack. -/
theorem push_procedures (e : Expr) :
    Triple (fun m => e.procedures c + m.procedures c ≤ n) (push e) (fun _ m => m.procedures c ≤ n) (· ≠ .exhausted) :=
  .modify (fun m hm => by simpa only [Machine.procedures, Expr.proceduresAll_cons] using hm)

/-- A copy of what may be copied is no more than the cost. -/
theorem duplicate_procedures :
    Triple (fun m => m.procedures κ.cost ≤ n ∧ κ.barsTop m = false) duplicate
      (fun _ m => m.procedures κ.cost ≤ n + κ.cost) (· ≠ .exhausted) := by
  unfold duplicate
  refine .bind (Q := fun e m => e.procedures κ.cost + (e.procedures κ.cost + m.procedures κ.cost) ≤ n + κ.cost) ?_ (fun e => ?_)
  · intro m ⟨hn, htop⟩
    cases hs : m.frame.stack with
    | nil =>
      rw [pop, popAs_nil hs]
      simp only [Expr.procedures, Machine.procedures] at hn ⊢
      omega
    | cons e rest =>
      have he : e.procedures κ.cost ≤ κ.cost := κ.copy_le e (by simpa [Copying.barsTop, hs] using htop)
      rw [pop, popAs_cons hs]
      simp only [Machine.procedures, hs, Expr.proceduresAll_cons] at hn ⊢
      omega
  · refine .bind (Q := fun _ m => e.procedures κ.cost + m.procedures κ.cost ≤ n + κ.cost) (.modify (fun m hm => ?_))
      (fun _ => push_procedures e)
    simpa only [Machine.procedures, Expr.proceduresAll_cons] using hm

/-- What a name needs to add no more than the cost. -/
def MayRun (κ : Copying) (dict : Dictionary) (nm : String) (m : Machine) : Prop :=
  dict.get? nm = some (.primitive .duplicate) → κ.barsTop m = false

theorem refuseCopy_procedures (dict : Dictionary) (nm : String) :
    Triple (·.procedures κ.cost ≤ n) (refuseCopy κ dict nm) (fun _ m => m.procedures κ.cost ≤ n ∧ MayRun κ dict nm m)
      (· ≠ .exhausted) := by
  intro m hm
  rw [refuseCopy_apply]
  by_cases hcopy : dict.get? nm = some (.primitive .duplicate) ∧ κ.barsTop m = true
  · rw [if_pos hcopy]; exact (by simp [copied])
  · rw [if_neg hcopy]; exact ⟨hm, fun hdup => by simpa [hdup] using hcopy⟩

theorem name_procedures (dict : Dictionary) (hrun : RunsWithin κ.cost run n) (nm : String) :
    Triple (fun m => m.procedures κ.cost ≤ n ∧ MayRun κ dict nm m) (name dict run nm)
      (fun _ m => m.procedures κ.cost ≤ n + κ.cost) (· ≠ .exhausted) := by
  have hnone : ∀ {x : Eval Unit},
      Triple (·.procedures κ.cost ≤ n) x (fun _ m => m.procedures κ.cost ≤ n) (· ≠ .exhausted) →
      Triple (fun m => m.procedures κ.cost ≤ n ∧ MayRun κ dict nm m) x (fun _ m => m.procedures κ.cost ≤ n + κ.cost)
        (· ≠ .exhausted) :=
    fun hx => (hx.pre (fun m hm => hm.1)).post (fun _ m hm => Nat.le_add_right_of_le hm)
  have hmodest : ∀ {x : Eval Unit}, Modest x →
      Triple (fun m => m.procedures κ.cost ≤ n ∧ MayRun κ dict nm m) x (fun _ m => m.procedures κ.cost ≤ n + κ.cost)
        (· ≠ .exhausted) :=
    fun hx => hnone (hx κ.cost n)
  unfold name
  split
  · exact hmodest (.throw (by simp))
  · rename_i p hget
    by_cases hp : p = .duplicate
    · subst hp
      exact duplicate_procedures.pre (fun m hm => ⟨hm.1, hm.2 hget⟩)
    · exact hnone (primitive_procedures dict hrun hp)
  · exact hmodest (modest_callRoutine _ _)
  · exact hmodest (.bind modest_touchEntry (fun _ => modest_push rfl))
  · exact hmodest (modest_push rfl)
  · exact hmodest (modest_push rfl)
  · exact hmodest (.bind modest_touchEntry (fun _ => modest_push rfl))
  · exact hmodest (.bind modest_touchEntry (fun _ => modest_push rfl))
  · exact hmodest (modest_push rfl)

theorem tell_procedures (t : Term) (P : Machine → Prop) (hP : ∀ m, P m → P { m with log := m.log.push (.evaluating t) }) :
    Triple P (modify (fun m => { m with log := m.log.push (.evaluating t) })) (fun _ => P) (· ≠ .exhausted) :=
  .modify hP

theorem linearTerm_procedures (dict : Dictionary) (hrun : RunsWithin κ.cost run n) (t : Term) :
    Triple (fun m => t.procedures κ.cost + m.procedures κ.cost ≤ n) (linearTerm κ dict run t)
      (fun _ m => m.procedures κ.cost ≤ n) (· ≠ .exhausted) := by
  unfold linearTerm term
  cases t with
  | name nm span =>
    -- what running the name may add is set aside
    refine .pointwise (fun m hm => ?_)
    simp only [Term.procedures] at hm
    have hless := hrun.mono (Nat.sub_le n κ.cost)
    refine .pre (P := fun m => m.procedures κ.cost ≤ n - κ.cost) ?_ (fun m' hm' => by rw [hm']; omega)
    refine .bind (refuseCopy_procedures dict nm) (fun _ => .bind (tell_procedures _ _ (fun m hm => hm)) (fun _ => ?_))
    exact (name_procedures dict hless nm).post (fun _ m' hm' => by omega)
  | integer k span => exact .bind (tell_procedures _ _ (fun m hm => hm)) (fun _ => push_procedures (.int k))
  | string s span => exact .bind (tell_procedures _ _ (fun m hm => hm)) (fun _ => push_procedures (.str s))
  | quoted nm span => exact .bind (tell_procedures _ _ (fun m hm => hm)) (fun _ => push_procedures (.quoted nm))
  | block ts span => exact .bind (tell_procedures _ _ (fun m hm => hm)) (fun _ => push_procedures (.block ⟨ts, span⟩))
  | field | entryInteger | entryString =>
    exact .bind (tell_procedures _ _ (fun m hm => hm)) (fun _ => .throw (fun _ _ => by simp))

theorem linearTerms_procedures (dict : Dictionary) : ∀ {n : Nat}, RunsWithin κ.cost run n → ∀ ts : List Term,
    Triple (fun m => Term.proceduresAll κ.cost ts + m.procedures κ.cost ≤ n) (linearTerms κ dict run ts)
      (fun _ m => m.procedures κ.cost ≤ n) (· ≠ .exhausted)
  | n, _, [] => .pure (fun m hm => by simpa [Term.proceduresAll] using hm)
  | n, hrun, t :: ts => by
    -- the terms ahead hold procedures too, so this term has only what they leave of the bound
    have ht := linearTerm_procedures dict (hrun.mono (Nat.sub_le n (Term.proceduresAll κ.cost ts))) t
    refine .pointwise (fun m hm => ?_)
    simp only [Term.proceduresAll] at hm
    refine .pre (P := fun m => t.procedures κ.cost + m.procedures κ.cost ≤ n - Term.proceduresAll κ.cost ts) ?_
      (fun m' hm' => by rw [hm']; omega)
    exact .bind ht (fun _ => (linearTerms_procedures dict hrun ts).pre (fun m' hm' => by omega))

/-- **A run that copies only what may be copied nests at most as deeply as there are procedures.** -/
theorem linearProcedure_runsWithin (κ : Copying) (dict : Dictionary) : ∀ n : Nat,
    RunsWithin κ.cost (linearProcedure κ dict n) n
  | 0, k, hk, p => by
    intro m hm
    have hp := p.procedures_pos κ.cost
    omega
  | n + 1, k, hk, .group g => by
    have hrun := (linearProcedure_runsWithin κ dict n).mono (show k - 1 ≤ n by omega)
    refine ((linearTerms_procedures dict hrun g.terms).pre (fun m hm => ?_)).post (fun _ m hm => by omega)
    simp only [Procedure.procedures, Procedure.toExpr, Expr.procedures] at hm
    omega
  | n + 1, k, hk, .named nm => by
    refine .pointwise (fun m hm => ?_)
    simp only [Procedure.procedures, Procedure.toExpr, Expr.procedures] at hm
    have hrun := (linearProcedure_runsWithin κ dict n).mono (show k - 1 ≤ n by omega)
    have hcost := κ.cost_le
    refine .pre (P := fun m => m.procedures κ.cost ≤ k - 1) ?_ (fun m' hm' => by rw [hm']; omega)
    exact .bind (refuseCopy_procedures dict nm) (fun _ =>
      (name_procedures dict hrun nm).post (fun _ m' hm' => by omega))

end Linear

/-! ## Runs that differ only in one fault -/

/-- **`x` runs as `y` does, or stops with the fault `bad`.** -/
def Below (bad : AnalysisFault) (x y : Eval α) : Prop :=
  ∀ m, x m = y m ∨ ∃ m', x m = .error bad m'

section Below

variable {bad : AnalysisFault} {run run' : Procedure → Eval Unit} {κ : Copying}

theorem Below.refl (x : Eval α) : Below bad x x :=
  fun _ => .inl rfl

theorem Below.bind {x y : Eval α} {f g : α → Eval β} (hx : Below bad x y) (hf : ∀ a, Below bad (f a) (g a)) :
    Below bad (x >>= f) (y >>= g) := by
  intro m
  simp only [bind_apply]
  rcases hx m with h | ⟨m', h⟩
  · rw [h]
    cases y m with
    | ok a m₁ => exact hf a m₁
    | error e m₁ => exact .inl rfl
  · rw [h]
    exact .inr ⟨m', rfl⟩

/-- Only what follows differs. -/
theorem Below.next {x : Eval α} {f g : α → Eval β} (hf : ∀ a, Below bad (f a) (g a)) : Below bad (x >>= f) (x >>= g) :=
  .bind (.refl x) hf

/-- Only what comes first differs. -/
theorem Below.first {x y : Eval α} {f : α → Eval β} (hx : Below bad x y) : Below bad (x >>= f) (y >>= f) :=
  .bind hx (fun _ => .refl _)

theorem Below.trans {x y z : Eval α} (hx : Below bad x y) (hy : Below bad y z) : Below bad x z := by
  intro m
  rcases hx m with h | h
  · rw [h]; exact hy m
  · exact .inr h

theorem inNested_below {x y : Eval Unit} (h : Below bad x y) : Below bad (inNested x) (inNested y) := by
  intro m
  simp only [inNested]
  rcases h { m with frame := m.frame.nested } with h | ⟨m', h⟩
  · rw [h]; exact .inl rfl
  · rw [h]; exact .inr ⟨_, rfl⟩

theorem branch_below (h : ∀ p, Below bad (run p) (run' p)) : Below bad (branch run) (branch run') := by
  unfold branch
  refine .next (fun no => .next (fun yes => .next (fun condition => ?_)))
  exact .bind (inNested_below (h yes)) (fun yesFrame => .first (inNested_below (h no)))

theorem loop_below (h : ∀ p, Below bad (run p) (run' p)) : Below bad (loop run) (loop run') := by
  unfold loop
  refine .next (fun body => .next (fun condition => .next (fun vars => ?_)))
  exact .bind (.first (inNested_below (h condition))) (fun test => .first (.first (inNested_below (h body))))

theorem primitive_below (dict : Dictionary) (h : ∀ p, Below bad (run p) (run' p)) (p : Primitive) :
    Below bad (primitive dict run p) (primitive dict run' p) := by
  cases p with
  | branch => exact branch_below h
  | loop => exact loop_below h
  | _ => exact .refl _

theorem name_below (dict : Dictionary) (h : ∀ p, Below bad (run p) (run' p)) (nm : String) :
    Below bad (name dict run nm) (name dict run' nm) := by
  unfold name
  cases dict.get? nm with
  | none => exact .refl _
  | some meaning =>
    cases meaning with
    | primitive p => exact primitive_below dict h p
    | _ => exact .refl _

theorem term_below (dict : Dictionary) (h : ∀ p, Below bad (run p) (run' p)) (t : Term) :
    Below bad (term dict run t) (term dict run' t) := by
  unfold term
  refine .next (fun _ => ?_)
  cases t with
  | name nm span => exact name_below dict h nm
  | _ => exact .refl _

theorem terms_below (dict : Dictionary) (h : ∀ p, Below bad (run p) (run' p)) : ∀ ts : List Term,
    Below bad (terms dict run ts) (terms dict run' ts)
  | [] => .refl _
  | t :: ts => .bind (term_below dict h t) (fun _ => terms_below dict h ts)

/-- **A run that may nest deeper goes as it did**, unless it had nested too deeply. -/
theorem procedure_below_succ (dict : Dictionary) : ∀ (depth : Nat) (p : Procedure),
    Below .exhausted (procedure dict depth p) (procedure dict (depth + 1) p)
  | 0, _ => fun m => .inr ⟨m, rfl⟩
  | depth + 1, .group g => terms_below dict (procedure_below_succ dict depth) g.terms
  | depth + 1, .named nm => name_below dict (procedure_below_succ dict depth) nm

theorem procedure_below (dict : Dictionary) {depth depth' : Nat} (h : depth ≤ depth') (p : Procedure) :
    Below .exhausted (procedure dict depth p) (procedure dict depth' p) := by
  induction h with
  | refl => exact .refl _
  | step _ ih => exact ih.trans (procedure_below_succ dict _ p)

theorem refuseCopy_below (κ : Copying) (dict : Dictionary) (nm : String) (x : Eval α) :
    Below copied (refuseCopy κ dict nm >>= fun _ => x) x := by
  intro m
  rw [bind_apply, refuseCopy_apply]
  by_cases hcopy : dict.get? nm = some (.primitive .duplicate) ∧ κ.barsTop m = true
  · rw [if_pos hcopy]; exact .inr ⟨m, rfl⟩
  · rw [if_neg hcopy]; exact .inl rfl

theorem linearTerm_below (dict : Dictionary) (h : ∀ p, Below copied (run p) (run' p)) (t : Term) :
    Below copied (linearTerm κ dict run t) (term dict run' t) := by
  unfold linearTerm
  cases t with
  | name nm span => exact (refuseCopy_below κ dict nm _).trans (term_below dict h _)
  | _ => exact term_below dict h _

theorem linearTerms_below (dict : Dictionary) (h : ∀ p, Below copied (run p) (run' p)) : ∀ ts : List Term,
    Below copied (linearTerms κ dict run ts) (terms dict run' ts)
  | [] => .refl _
  | t :: ts => .bind (linearTerm_below dict h t) (fun _ => linearTerms_below dict h ts)

/-- A run that is stopped before some copies goes as it would if it were not. -/
theorem linearProcedure_below (κ : Copying) (dict : Dictionary) : ∀ (depth : Nat) (p : Procedure),
    Below copied (linearProcedure κ dict depth p) (procedure dict depth p)
  | 0, _ => .refl _
  | depth + 1, .group g => linearTerms_below dict (linearProcedure_below κ dict depth) g.terms
  | depth + 1, .named nm =>
    (refuseCopy_below κ dict nm _).trans (name_below dict (linearProcedure_below κ dict depth) nm)

/-- A run that has not stopped with the fault is the run above it. -/
theorem Below.eq {x y : Eval α} (h : Below bad x y) {m : Machine} (hx : ∀ m', x m ≠ .error bad m') : x m = y m :=
  (h m).resolve_right (fun ⟨m', hm'⟩ => hx m' hm')

end Below

/-! ## Bodies and commands -/

theorem result_ne_exhausted {function : String} {scope : Scope} {stack : List Expr} {e : AnalysisFault}
    (h : result function scope stack = .error e) : e ≠ .exhausted := by
  unfold result at h
  split at h
  · cases h
  · split at h <;> cases h
    simp
  · cases h
    simp

/-- A body does not nest too deeply if its terms do not. -/
theorem routine_ne_exhausted {dict : Dictionary} {depth : Nat} (function method : String) {body : Group} {m : Machine}
    (h : ∀ m', terms dict (procedure dict depth) body.terms m.cleared ≠ .error .exhausted m') :
    ∀ m', routine dict depth function method body m ≠ .error .exhausted m' := by
  intro m' hm'
  rw [routine_apply] at hm'
  cases hterms : terms dict (procedure dict depth) body.terms m.cleared with
  | error e m₁ => rw [hterms] at hm'; cases hm'; exact h m' hterms
  | ok _ m₁ =>
    rw [hterms] at hm'
    dsimp only at hm'
    cases hresult : result function m₁.scope.named m₁.frame.stack with
    | error e => rw [hresult] at hm'; cases hm'; exact result_ne_exhausted hresult rfl
    | ok value => rw [hresult] at hm'; cases hm'

/-- A command starts without procedures, so whatever runs procedures is not asked to. -/
theorem command_ne_exhausted (dict : Dictionary) (depth : Nat) (mode : RunMode) (function : String) (vars : Variables)
    (linkage : Linkage) (log : Array Event) (m' : Machine) :
    command dict depth mode function (.ready vars linkage log) ≠ .error .exhausted m' := by
  have hrun : RunsWithin 0 (procedure dict depth) 0 := fun k hk p m hm => by
    have hp := p.procedures_pos 0
    omega
  have hcommand : Triple (· = .ready vars linkage log) (command dict depth mode function) (fun _ _ => True) (· ≠ .exhausted) := by
    unfold command
    refine .bind (Q := fun _ m => m.procedures 0 ≤ 0 ∧ MayRun .noProcedure dict function m) ?_ (fun _ => ?_)
    · rintro _ rfl
      exact ⟨Nat.le_refl 0, fun _ => rfl⟩
    · refine .bind (name_procedures (κ := .noProcedure) dict hrun function) (fun _ => .bind .get (fun m => ?_))
      split
      · exact .throw (fun _ _ => by simp)
      · cases mode <;> exact .pure (fun _ _ => trivial)
  exact fun hm' => hcommand.error rfl hm' rfl

/-- **Whether running a body copies what may not be copied.** -/
def Copying.breached (κ : Copying) (dict : Dictionary) (body : Group) (linkage : Linkage) (log : Array Event) : Bool :=
  match linearTerms κ dict (linearProcedure κ dict (Term.proceduresAll κ.cost body.terms)) body.terms (.start linkage log) with
  | .ok _ _ => false
  | .error e _ => e == copied

/-- **Whether running a body copies a procedure**, be it a block or a quoted name. -/
def copiesProcedure : Dictionary → Group → Linkage → Array Event → Bool :=
  Copying.noProcedure.breached

/-- **Whether running a body copies a block.** -/
def copiesBlock : Dictionary → Group → Linkage → Array Event → Bool :=
  Copying.noBlock.breached

theorem terms_ne_exhausted {κ : Copying} {dict : Dictionary} {body : Group} {linkage : Linkage} {log : Array Event}
    (h : κ.breached dict body linkage log = false) :
    ∀ m', terms dict (procedure dict (Term.proceduresAll κ.cost body.terms)) body.terms (.start linkage log) ≠
      .error .exhausted m' := by
  have hbelow := linearTerms_below (κ := κ) dict (linearProcedure_below κ dict (Term.proceduresAll κ.cost body.terms)) body.terms
  have hlinear :=
    linearTerms_procedures dict (linearProcedure_runsWithin κ dict (Term.proceduresAll κ.cost body.terms)) body.terms
  intro m' hm'
  rw [← hbelow.eq (fun m hm => by simp [Copying.breached, hm] at h)] at hm'
  exact hlinear.error (m := .start linkage log) (Nat.le_refl _) hm' rfl

/-- **What is copied decides how deeply procedures must be allowed to nest**: from there on, allowing more changes nothing. -/
theorem routine_settles {κ : Copying} {dict : Dictionary} {body : Group} {linkage : Linkage} {log : Array Event}
    (h : κ.breached dict body linkage log = false) (vars : Variables) (function method : String) :
    ∃ answer, (∀ m, answer ≠ .error .exhausted m) ∧ ∀ depth ≥ Term.proceduresAll κ.cost body.terms,
      routine dict depth function method body (.ready vars linkage log) = answer := by
  have hends := routine_ne_exhausted (m := .ready vars linkage log) function method (terms_ne_exhausted h)
  refine ⟨_, hends, fun depth hdepth => ?_⟩
  have hbelow : Below .exhausted (routine dict (Term.proceduresAll κ.cost body.terms) function method body)
      (routine dict depth function method body) :=
    .next (fun _ => .first (terms_below dict (procedure_below dict hdepth) body.terms))
  exact (hbelow.eq hends).symm

/-- **Analysis ends.**  A body that copies no procedure is analysed as soon as its procedures may nest as deeply as there
are procedures in it: allowing more changes nothing.  Quoted names may be copied too: a body that copies no block is analysed
as soon as its procedures may nest as deeply as there are procedures and bare names in it.  A command is analysed however
deeply procedures may nest. -/
theorem analysis_terminates (dict : Dictionary) (vars : Variables) (linkage : Linkage) (log : Array Event) :
    (∀ (function method : String) (body : Group), copiesProcedure dict body linkage log = false →
      ∃ answer, (∀ m, answer ≠ .error .exhausted m) ∧ ∀ depth ≥ Term.proceduresAll 0 body.terms,
        routine dict depth function method body (.ready vars linkage log) = answer) ∧
    (∀ (function method : String) (body : Group), copiesBlock dict body linkage log = false →
      ∃ answer, (∀ m, answer ≠ .error .exhausted m) ∧ ∀ depth ≥ Term.proceduresAll 1 body.terms,
        routine dict depth function method body (.ready vars linkage log) = answer) ∧
    ∀ (mode : RunMode) (function : String),
      ∃ answer, (∀ m, answer ≠ .error .exhausted m) ∧
        ∀ depth, command dict depth mode function (.ready vars linkage log) = answer := by
  refine ⟨fun function method body h => routine_settles h vars function method,
    fun function method body h => routine_settles h vars function method, fun mode function => ?_⟩
  have hends := command_ne_exhausted dict 0 mode function vars linkage log
  refine ⟨_, hends, fun depth => ?_⟩
  have hbelow : Below .exhausted (command dict 0 mode function) (command dict depth mode function) :=
    .next (fun _ => .first (name_below dict (procedure_below dict (Nat.zero_le depth)) function))
  exact (hbelow.eq hends).symm

/-- Counts a number down by two and by one, without a copy of a procedure. -/
def descent : Group where
  terms :=
    let place : Span := ⟨"", 1, 1, 1, 1⟩
    [.integer 5 place,
     .block [.name "duplicate$" place, .integer 0 place, .name ">" place] place,
     .block [.name "duplicate$" place, .integer 3 place, .name ">" place,
       .block [.integer 2 place, .name "-" place] place, .block [.integer 1 place, .name "-" place] place,
       .name "if$" place] place,
     .name "while$" place]
  span := ⟨"", 1, 1, 1, 1⟩

/-- Makes a side of an inner `if$` by copying the name of the other. -/
def nameTwice : Group where
  terms :=
    let place : Span := ⟨"", 1, 1, 1, 1⟩
    [.integer 1 place, .quoted "skip$" place, .name "duplicate$" place, .integer 1 place, .quoted "if$" place,
     .quoted "if$" place, .name "if$" place]
  span := ⟨"", 1, 1, 1, 1⟩

/-- The variables of a run that failed behind its first local. -/
def leftover : Variables :=
  (Variables.empty.newLocal .int).2

theorem analysis_terminates_descent :
    (copiesProcedure .initial descent .empty #[] = false ∧ Term.proceduresAll 0 descent.terms = 4 ∧
      ∃ answer, (∀ m, answer ≠ .error .exhausted m) ∧
        ∀ depth ≥ 4, routine .initial depth "f" "f" descent (.ready leftover .empty #[]) = answer) ∧
    copiesProcedure .initial nameTwice .empty #[] = true ∧ copiesBlock .initial nameTwice .empty #[] = false ∧
      Term.proceduresAll 1 nameTwice.terms = 5 ∧ ∃ answer, (∀ m, answer ≠ .error .exhausted m) ∧
        ∀ depth ≥ 5, routine .initial depth "f" "f" nameTwice (.ready leftover .empty #[]) = answer := by
  have hlinear : copiesProcedure .initial descent .empty #[] = false := by decide +kernel
  have hcopies : copiesProcedure .initial nameTwice .empty #[] = true := by decide +kernel
  have hnames : copiesBlock .initial nameTwice .empty #[] = false := by decide +kernel
  have hends := analysis_terminates .initial leftover .empty #[]
  exact ⟨⟨hlinear, rfl, hends.1 "f" "f" descent hlinear⟩, hcopies, hnames, rfl, hends.2.1 "f" "f" nameTwice hnames⟩

/-! ## A body that is never done -/

/-- Whether a run stops with a fault. -/
def Fails (e : AnalysisFault) (x : Eval α) (m : Machine) : Prop :=
  ∃ m', x m = .error e m'

section Fails

variable {e : AnalysisFault} {m m₁ : Machine}

theorem Fails.first {x : Eval α} {f : α → Eval β} (h : Fails e x m) : Fails e (x >>= f) m := by
  obtain ⟨m', hx⟩ := h
  exact ⟨m', by rw [bind_apply, hx]⟩

theorem Fails.next {x : Eval α} {f : α → Eval β} {a : α} (hx : x m = .ok a m₁) (h : Fails e (f a) m₁) :
    Fails e (x >>= f) m := by
  obtain ⟨m', hf⟩ := h
  exact ⟨m', by rw [bind_apply, hx]; exact hf⟩

theorem inNested_fails {x : Eval Unit} (h : Fails e x { m with frame := m.frame.nested }) : Fails e (inNested x) m := by
  obtain ⟨m', hx⟩ := h
  exact ⟨_, by rw [inNested, hx]⟩

/-- A branch fails as its first side does. -/
theorem branch_fails {run : Procedure → Eval Unit} {n : String} {g : Group} {k : Int32} {rest : List Expr}
    (hm : m.frame.stack = .quoted n :: .block g :: .int k :: rest)
    (hrun : ∀ m', m'.frame.stack = rest → Fails e (run (.group g)) m') : Fails e (branch run) m := by
  obtain ⟨vars, ⟨stack, code, base, drawn⟩, linkage, uses, log⟩ := m
  cases hm
  exact .next rfl (.next rfl (.next rfl (.first (inNested_fails (hrun _ rfl)))))

end Fails

theorem terms_append (dict : Dictionary) (run : Procedure → Eval Unit) (a b : List Term) :
    terms dict run (a ++ b) = terms dict run a >>= fun _ => terms dict run b := by
  induction a with
  | nil => rfl
  | cons t a ih => rw [List.cons_append, terms, terms, ih, bind_assoc]

/-- A procedure that copies the procedure on top of the stack and runs the copy. -/
def rerun : Group where
  terms :=
    let place : Span := ⟨"", 1, 1, 1, 1⟩
    [.name "duplicate$" place, .integer 1 place, .name "swap$" place, .quoted "skip$" place, .name "if$" place]
  span := ⟨"", 1, 1, 1, 1⟩

theorem rerun_fails : ∀ (depth : Nat) (m : Machine) (rest : List Expr), m.frame.stack = .block rerun :: rest →
    Fails .exhausted (procedure .initial depth (.group rerun)) m
  | 0, m, _, _ => ⟨m, rfl⟩
  | depth + 1, m, rest, hm => by
    have hdup : Dictionary.initial.get? "duplicate$" = some (.primitive .duplicate) := by decide
    have hswap : Dictionary.initial.get? "swap$" = some (.primitive .swap) := by decide
    have hif : Dictionary.initial.get? "if$" = some (.primitive .branch) := by decide
    -- The terms before `if$` leave the copy as its first side, and the procedure itself below.
    have hcopy : ∃ m', terms .initial (procedure .initial depth) (rerun.terms.take 4) m = .ok () m' ∧
        m'.frame.stack = .quoted "skip$" :: .block rerun :: .int 1 :: .block rerun :: rest := by
      obtain ⟨vars, ⟨stack, code, base, drawn⟩, linkage, uses, log⟩ := m
      cases hm
      simp only [rerun, List.take, terms, term, name, hdup, hswap, primitive]
      exact ⟨_, rfl, rfl⟩
    obtain ⟨m', hcopy, hstack⟩ := hcopy
    rw [show procedure .initial (depth + 1) (.group rerun) = _ from
      terms_append .initial (procedure .initial depth) (rerun.terms.take 4) (rerun.terms.drop 4)]
    refine .next hcopy ?_
    simp only [rerun, List.drop, terms, term, name, hif, primitive]
    refine .first (.next rfl (branch_fails (m := { m' with log := _ }) hstack ?_))
    exact fun m₁ hm₁ => rerun_fails depth m₁ rest hm₁

/-- **Analysis may go on forever**: a procedure that is given itself to run again nests deeper than any bound. -/
theorem analysis_diverges_rerun :
    ¬ ∃ depth, ∀ m, routine .initial depth "f" "f" ⟨rerun.toTerm :: rerun.terms, rerun.span⟩ (.start .empty #[]) ≠
      .error .exhausted m := by
  rintro ⟨depth, h⟩
  have hfails : Fails .exhausted (routine .initial depth "f" "f" ⟨rerun.toTerm :: rerun.terms, rerun.span⟩)
      (.start .empty #[]) :=
    .next rfl (.first (.next rfl (rerun_fails (depth + 1) _ [] rfl)))
  obtain ⟨m, hm⟩ := hfails
  exact h m hm

end Eval
end Bibstyle
