import Bibstyle.Proofs.Conduct
/-!
# Building — what a run builds, and of what

A run takes expressions off the stack, builds others around them, and writes them into code.  Only `=` builds a test of
equality, and only a name that is declared as a variable is read as one; whatever else a run builds is something else, with
what it has taken below it.  So the tests of equality in what a run has written are those that some `=` of the run has
built.  On the way types become known and stay known.
-/
namespace Bibstyle

/-! ## Nodes -/

/-- Whether an expression tests for equality. -/
def Expr.isEquation : Expr → Bool
  | compare .eq _ _ => true
  | _ => false

/-- **All nodes of an expression are so.** -/
def Expr.All (N : Expr → Prop) (e : Expr) : Prop :=
  ∀ x ∈ e.nodes, N x

/-- All nodes of all expressions in statements are so. -/
def Block.All (N : Expr → Prop) (b : Block) : Prop :=
  ∀ q ∈ Stmt.actsAll false b, ∀ e, q.2.expr? = some e → e.All N

/-- **All nodes in a frame are so**, on its stack and in its code. -/
structure Frame.All (N : Expr → Prop) (f : Frame) : Prop where
  stack : ∀ e ∈ f.stack, e.All N
  code : Block.All N f.code

namespace Block.All

variable {N : Expr → Prop} {c e : Expr} {a b yes no : Block}

theorem nil : Block.All N [] := List.forall_mem_nil _

theorem append (ha : Block.All N a) (hb : Block.All N b) : Block.All N (a ++ b) := by
  rw [Block.All, Stmt.actsAll_append]
  exact List.forall_mem_append.2 ⟨ha, hb⟩

theorem single {t : Stmt} (h : ∀ q ∈ t.acts false, ∀ e, q.2.expr? = some e → e.All N) : Block.All N [t] := by
  rw [Block.All, Stmt.actsAll_single]
  exact h

theorem eval (h : e.All N) : Block.All N [.eval e] :=
  .single (List.forall_mem_singleton.2 (fun x hx => by cases hx; exact h))

theorem declare {v : VarId} (h : e.All N) : Block.All N [.declare v (some e)] :=
  .single (List.forall_mem_singleton.2 (fun x hx => by cases hx; exact h))

theorem bare (v : VarId) : Block.All N [.declare v none] :=
  .single (List.forall_mem_singleton.2 (fun x hx => by cases hx))

theorem assign {t : Target} (h : e.All N) : Block.All N [.assign t e] :=
  .single (List.forall_mem_singleton.2 (fun x hx => by cases hx; exact h))

theorem branch (hc : c.All N) (hyes : Block.All N yes) (hno : Block.All N no) : Block.All N [.branch c yes no] :=
  .single (List.forall_mem_cons.2 ⟨fun x hx => by cases hx; exact hc, List.forall_mem_append.2 ⟨hyes, hno⟩⟩)

theorem loop (ha : Block.All N a) (hc : c.All N) (hb : Block.All N b) : Block.All N [.loop a c b] :=
  .single (List.forall_mem_cons.2 ⟨fun x hx => by cases hx; exact hc, List.forall_mem_append.2 ⟨ha, hb⟩⟩)

end Block.All

/-- What holds of all nodes but tests of equality and reads of the variables of a style. -/
def Ordinary (N : Expr → Prop) : Prop :=
  ∀ x : Expr, x.isEquation = false → x.isStateRead = false → N x

/-- A read of a variable that a style has declared. -/
inductive Dictionary.Reads (d : Dictionary) : Expr → Prop where
  | global {id : String} {t : Ty} (h : d.Global id t) : Reads d (.global id t)
  | entryVar {n : String} {t : Ty} (h : d.EntryVar n t) : Reads d (.entryVar n t)

namespace Ordinary

variable {N : Expr → Prop} (hN : Ordinary N)

include hN

theorem leaf {e : Expr} (hleaf : e.nodes = [e]) (he : e.isEquation = false) (hread : e.isStateRead = false) : e.All N := by
  rw [Expr.All, hleaf]
  exact List.forall_mem_singleton.2 (hN e he hread)

theorem var (v : VarId) : (Expr.var v).All N :=
  hN.leaf rfl rfl rfl

theorem call {c : Callee} {args : List Expr} {t : Ty} {effect : Bool} (h : ∀ e ∈ args, e.All N) :
    (Expr.call c args t effect).All N := by
  refine List.forall_mem_cons.2 ⟨hN _ rfl rfl, fun x hx => ?_⟩
  obtain ⟨e, he, hx⟩ := Expr.mem_nodesAll.1 hx
  exact h e he x hx

theorem binary {op : BinaryOp} {l r : Expr} (hl : l.All N) (hr : r.All N) : (Expr.binary op l r).All N :=
  List.forall_mem_cons.2 ⟨hN _ rfl rfl, List.forall_mem_append.2 ⟨hl, hr⟩⟩

theorem order {op : CompareOp} (hop : op ≠ .eq) {l r : Expr} (hl : l.All N) (hr : r.All N) :
    (Expr.compare op l r).All N := by
  refine List.forall_mem_cons.2 ⟨hN _ ?_ rfl, List.forall_mem_append.2 ⟨hl, hr⟩⟩
  cases op with
  | eq => exact absurd rfl hop
  | lt | gt => rfl

end Ordinary

/-! ## Runs -/

namespace Eval

variable {α β : Type} {N : Expr → Prop}

/-- **A run that builds only what is so**, and learns types. -/
def Builds (N : Expr → Prop) (x : Eval α) (Q : α → Prop) : Prop :=
  ∀ m a m', m.frame.All N → x m = .ok a m' → m.scope.Sharpens m'.scope ∧ m'.frame.All N ∧ Q a

section Rules

variable {P : α → Prop} {Q : β → Prop}

theorem Builds.bind {x : Eval α} {f : α → Eval β} (hx : Builds N x P) (hf : ∀ a, P a → Builds N (f a) Q) :
    Builds N (x >>= f) Q := by
  intro m b m' hm h
  obtain ⟨a, m₁, hxm, hfm⟩ := bind_ok.1 h
  obtain ⟨hs₁, hm₁, hP⟩ := hx m a m₁ hm hxm
  obtain ⟨hs', hm', hQ⟩ := hf a hP m₁ b m' hm₁ hfm
  exact ⟨hs₁.trans hs', hm', hQ⟩

theorem Builds.pure {b : β} (h : Q b) : Builds N (pure b) Q := by
  intro m b' m' hm heq
  obtain ⟨rfl, rfl⟩ := pure_ok.1 heq
  exact ⟨.refl _, hm, h⟩

theorem Builds.throw {e : AnalysisFault} : Builds N (throw e : Eval β) Q :=
  fun _ _ _ _ h => absurd h throw_ok

theorem Builds.ite {p : Prop} [Decidable p] {x y : Eval β} (hx : Builds N x Q) (hy : Builds N y Q) :
    Builds N (if p then x else y) Q := by
  split
  · exact hx
  · exact hy

theorem Builds.get {f : Machine → Eval β} (h : ∀ m : Machine, m.frame.All N → Builds N (f m) Q) :
    Builds N (get >>= f) Q :=
  fun m b m' hm hf => h m hm m b m' hm hf

theorem Builds.frame {f : Frame → Frame} (h : ∀ g : Frame, g.All N → (f g).All N) :
    Builds N (modify (fun m => { m with frame := f m.frame })) (fun _ => True) := by
  intro m a m' hm hx
  cases hx
  exact ⟨.refl _, h _ hm, trivial⟩

theorem Builds.modify {f : Machine → Machine} (hframe : ∀ m, (f m).frame = m.frame)
    (hscope : ∀ m : Machine, m.scope.Sharpens (f m).scope) : Builds N (modify f) (fun _ => True) := by
  intro m a m' hm hx
  cases hx
  refine ⟨hscope m, ?_, trivial⟩
  rw [hframe]
  exact hm

end Rules

/-! ## Single operations -/

theorem builds_mismatch {Q : α → Prop} (p t : String) (e : Expr) : Builds N (mismatch p t e : Eval α) Q :=
  .get (fun _ _ => .throw)

theorem builds_tyOf (e : Expr) : Builds N (tyOf e) (fun _ => True) :=
  .get (fun _ _ => .pure trivial)

theorem builds_param (depth : Nat) (t : Ty) : Builds N (param depth t) (fun _ => True) := by
  intro m v m' hm h
  rw [param_apply] at h
  cases h
  exact ⟨m.scope.sharpens_param depth t, hm, trivial⟩

theorem builds_newLocal (t : Ty) : Builds N (newLocal t) (fun _ => True) := by
  intro m v m' hm h
  cases h
  exact ⟨m.scope.sharpens_push .local t, hm, trivial⟩

theorem builds_link (h : Helper) : Builds N (link h) (fun _ => True) :=
  .modify (fun m => by split <;> rfl) (fun m => by split <;> exact .refl _)

theorem builds_touchEntry : Builds N touchEntry (fun _ => True) :=
  .modify (fun _ => rfl) (fun _ => .refl _)

theorem builds_emit {t : Stmt} (h : Block.All N [t]) : Builds N (emit t) (fun _ => True) :=
  .frame (f := fun g => { g with code := g.code ++ [t] }) (fun _ hg => ⟨hg.stack, hg.code.append h⟩)

theorem builds_setStack {es : List Expr} (h : ∀ e ∈ es, e.All N) : Builds N (setStack es) (fun _ => True) :=
  .frame (f := fun g => { g with stack := es }) (fun _ hg => ⟨h, hg.code⟩)

theorem builds_push {e : Expr} (h : e.All N) : Builds N (push e) (fun _ => True) :=
  .frame (f := fun g => { g with stack := e :: g.stack }) (fun _ hg => ⟨List.forall_mem_cons.2 ⟨h, hg.stack⟩, hg.code⟩)

theorem builds_clear : Builds N clear (fun _ => True) :=
  .frame (f := fun g => { g with stack := [] }) (fun _ hg => ⟨List.forall_mem_nil _, hg.code⟩)

theorem builds_check {e : Expr} (he : e.All N) (t : Ty) (p : String) : Builds N (check e t p) (fun e => e.All N) := by
  unfold check
  refine .bind (builds_tyOf e) (fun _ _ => .ite (builds_mismatch _ _ _) ?_)
  split
  · exact .bind (.modify (fun _ => rfl) (fun m => m.scope.sharpens_refine _ t)) (fun _ _ => .pure he)
  · exact .pure he

/-- The operands of `=`, in the order they were pushed. -/
def equands : Eval (Expr × Expr) := do
  let right ← popTyped .generic "="
  let left ← popTyped (← tyOf right) "="
  let right ← check right (← tyOf left) "="
  return (left, right)

theorem equal_eq : equal = (do
    let (left, right) ← equands
    push (.compare .eq left right)) := by
  simp only [equal, equands, bind_assoc, pure_bind]

section Ordinary

variable (hN : Ordinary N)

include hN

theorem builds_popAs (t : Ty) : Builds N (popAs t) (fun e => e.All N) := by
  intro m e m' hm h
  cases hstack : m.frame.stack with
  | nil =>
    rw [popAs_nil hstack] at h
    cases h
    exact ⟨m.scope.sharpens_param _ t, ⟨hm.stack, hm.code⟩, hN.var _⟩
  | cons top rest =>
    have hall := hm.stack
    rw [hstack, List.forall_mem_cons] at hall
    rw [popAs_cons hstack] at h
    cases h
    exact ⟨.refl _, ⟨hall.2, hm.code⟩, hall.1⟩

theorem builds_popTyped (t : Ty) (p : String) : Builds N (popTyped t p) (fun e => e.All N) :=
  .bind (builds_popAs hN t) (fun _ he => builds_check he t p)

theorem builds_popProcedure (p : String) : Builds N (popProcedure p) (fun _ => True) := by
  unfold popProcedure
  refine .bind (builds_popAs hN _) (fun e _ => ?_)
  split
  · exact .pure trivial
  · exact .pure trivial
  · exact builds_mismatch _ _ _

theorem builds_popArgs (p : String) : ∀ ts : List Ty, Builds N (popArgs p ts) (fun es => ∀ e ∈ es, e.All N)
  | [] => .pure (List.forall_mem_nil _)
  | t :: ts => .bind (builds_popArgs p ts) (fun _ hrest => .bind (builds_popTyped hN t p) (fun _ he =>
    .pure (List.forall_mem_cons.2 ⟨he, hrest⟩)))

theorem builds_spillSlots (which : Expr → Bool) : ∀ {es : List Expr}, (∀ e ∈ es, e.All N) →
    Builds N (spillSlots which es) (fun slots => ∀ e ∈ slots, e.All N)
  | [], _ => .pure (List.forall_mem_nil _)
  | e :: below, h => by
    rw [List.forall_mem_cons] at h
    unfold spillSlots
    refine .bind (builds_spillSlots which h.2) (fun slots hslots => .ite ?_ (.pure (List.forall_mem_cons.2 ⟨h.1, hslots⟩)))
    refine .bind (builds_tyOf e) (fun t _ => .bind (builds_newLocal t) (fun v _ => ?_))
    exact .bind (builds_emit (.declare h.1)) (fun _ _ => .pure (List.forall_mem_cons.2 ⟨hN.var v, hslots⟩))

theorem builds_spillWhere (changes : Expr → Bool) : Builds N (spillWhere changes) (fun _ => True) :=
  .get (fun _ hm => .bind (builds_spillSlots hN _ hm.stack) (fun _ hslots => builds_setStack hslots))

theorem builds_spillAll (p : String) : Builds N (spillAll p) (fun _ => True) := by
  unfold spillAll
  refine .get (fun m hm => ?_)
  dsimp only
  have hstack := hm.stack
  rw [← take_append_values m.frame.stack, List.forall_mem_append] at hstack
  refine .bind (builds_spillSlots hN _ hstack.2) (fun slots hslots => ?_)
  exact .bind (builds_setStack (List.forall_mem_append.2 ⟨hstack.1, hslots⟩)) (fun _ _ => .ite (.pure trivial) .throw)

/-! ## Branches and loops -/

omit hN in
theorem builds_inNested {x : Eval Unit} (hx : Builds N x (fun _ => True)) : Builds N (inNested x) (fun g => g.All N) := by
  intro m g m' hm h
  obtain ⟨m₁, hxm, rfl, rfl⟩ := inNested_ok.1 h
  obtain ⟨hs, hm₁, -⟩ := hx { m with frame := m.frame.nested } () m₁ ⟨hm.stack, .nil⟩ hxm
  exact ⟨hs, hm, hm₁⟩

theorem builds_paramsTo (base : Nat) : ∀ depth n : Nat, Builds N (paramsTo base depth n) (fun es => ∀ e ∈ es, e.All N)
  | _, 0 => .pure (List.forall_mem_nil _)
  | depth, n + 1 => .bind (builds_paramsTo base (depth + 1) n) (fun _ hdeeper => .bind (builds_param _ _) (fun v _ =>
    .pure (List.forall_mem_cons.2 ⟨hN.var v, hdeeper⟩)))

theorem builds_fullView {g : Frame} (hg : g.All N) (drawn : Nat) :
    Builds N (fullView g drawn) (fun es => ∀ e ∈ es, e.All N) :=
  .bind (builds_paramsTo hN _ _ _) (fun _ hparams => .pure (List.forall_mem_append.2 ⟨hg.stack, hparams⟩))

/-- Slots that have been merged, and what the sides store for them. -/
structure MergedAll (N : Expr → Prop) (g : Merged) : Prop where
  stack : ∀ e ∈ g.stack, e.All N
  yes : Block.All N g.yes
  no : Block.All N g.no

theorem builds_mergeSlot {yes no : Expr} {below : Merged} (hyes : yes.All N) (hno : no.All N) (hbelow : MergedAll N below) :
    Builds N (mergeSlot yes no below) (MergedAll N) := by
  unfold mergeSlot
  refine .ite (.pure ⟨List.forall_mem_cons.2 ⟨hyes, hbelow.stack⟩, hbelow.yes, hbelow.no⟩) (.ite .throw ?_)
  refine .bind (builds_tyOf _) (fun a _ => .bind (builds_tyOf _) (fun b _ => ?_))
  split
  · exact .throw
  · rename_i t _
    refine .bind (builds_check hyes t _) (fun yes hyes => .bind (builds_check hno t _) (fun no hno => ?_))
    refine .bind (builds_newLocal t) (fun v _ => .bind (builds_emit (.bare v)) (fun _ _ => .pure ?_))
    exact ⟨List.forall_mem_cons.2 ⟨hN.var v, hbelow.stack⟩, hbelow.yes.append (.assign hyes), hbelow.no.append (.assign hno)⟩

theorem builds_mergeSlots : ∀ {yes no : List Expr}, (∀ e ∈ yes, e.All N) → (∀ e ∈ no, e.All N) →
    Builds N (mergeSlots yes no) (MergedAll N)
  | [], _, _, _ => .pure ⟨List.forall_mem_nil _, .nil, .nil⟩
  | _ :: _, [], _, _ => .pure ⟨List.forall_mem_nil _, .nil, .nil⟩
  | yes :: yeses, no :: nos, hyes, hno => by
    rw [List.forall_mem_cons] at hyes hno
    exact .bind (builds_mergeSlots hyes.2 hno.2) (fun below hbelow => builds_mergeSlot hN hyes.1 hno.1 hbelow)

/-- What `if$` does when both sides are done. -/
theorem builds_merge {c : Expr} {yes no : Frame} {drawn : Nat} (hc : c.All N) (hyes : yes.All N) (hno : no.All N) :
    Builds N (do
      let yesView ← fullView yes drawn
      let noView ← fullView no drawn
      if yesView.length = noView.length then
        let merged ← mergeSlots yesView noView
        emit (.branch c (yes.code ++ merged.yes) (no.code ++ merged.no))
        replaceStack merged.stack drawn
      else throw (.unbalanced "if$")) (fun _ => True) := by
  refine .bind (builds_fullView hN hyes _) (fun yesView hyesView => .bind (builds_fullView hN hno _) (fun noView hnoView => ?_))
  refine .ite (.bind (builds_mergeSlots hN hyesView hnoView) (fun merged hmerged => ?_)) .throw
  refine .bind (builds_emit (.branch hc (hyes.code.append hmerged.yes) (hno.code.append hmerged.no))) (fun _ _ => ?_)
  exact .frame (f := fun g => { g with stack := merged.stack, drawn := g.drawn + drawn }) (fun _ hg => ⟨hmerged.stack, hg.code⟩)

theorem builds_sides : Builds N sides (fun r => r.2.2.All N) :=
  .bind (builds_popProcedure hN _) (fun _ _ => .bind (builds_popProcedure hN _) (fun _ _ =>
    .bind (builds_popTyped hN _ _) (fun _ he => .pure he)))

theorem builds_branch {run : Procedure → Eval Unit} (hrun : ∀ p, Builds N (run p) (fun _ => True)) :
    Builds N (branch run) (fun _ => True) := by
  rw [branch_eq]
  refine .bind (builds_sides hN) (fun (no, yes, c) hc => .bind (builds_inNested (hrun yes)) (fun gy hy => ?_))
  exact .bind (builds_inNested (hrun no)) (fun gn hn => builds_merge hN hc hy hn)

omit hN in
theorem builds_changedSlots : ∀ (vs : List VarId) {es : List Expr}, (∀ e ∈ es, e.All N) →
    Builds N (changedSlots vs es) (fun changed => ∀ q ∈ changed, q.2.All N)
  | [], _, _ => .pure (List.forall_mem_nil _)
  | _ :: _, [], _ => .pure (List.forall_mem_nil _)
  | v :: vs, e :: es, h => by
    rw [List.forall_mem_cons] at h
    unfold changedSlots
    refine .bind (builds_changedSlots vs h.2) (fun below hbelow => .ite (.pure hbelow) ?_)
    refine .bind (builds_tyOf _) (fun t _ => .bind (builds_check h.1 t _) (fun e he => .pure ?_))
    exact List.forall_mem_append.2 ⟨hbelow, List.forall_mem_singleton.2 he⟩

theorem builds_temporaries : ∀ {changed : List (VarId × Expr)}, (∀ q ∈ changed, q.2.All N) →
    Builds N (temporaries changed) (fun blocks => Block.All N blocks.1 ∧ Block.All N blocks.2)
  | [], _ => .pure ⟨.nil, .nil⟩
  | (v, e) :: rest, h => by
    rw [List.forall_mem_cons] at h
    unfold temporaries
    refine .bind (builds_tyOf _) (fun t _ => .bind (builds_newLocal t) (fun u _ => ?_))
    refine .bind (builds_temporaries h.2) (fun blocks hblocks => .pure ⟨?_, ?_⟩)
    · exact (Block.All.declare h.1).append hblocks.1
    · exact (Block.All.assign (hN.var u)).append hblocks.2

theorem builds_updates {changed : List (VarId × Expr)} (h : ∀ q ∈ changed, q.2.All N) :
    Builds N (updates changed) (Block.All N) := by
  unfold updates
  split
  · exact .pure (.assign (h _ List.mem_cons_self))
  · exact .bind (builds_temporaries hN h) (fun _ hblocks => .pure (hblocks.1.append hblocks.2))

omit hN in
theorem builds_loopTest {run : Eval Unit} (hrun : Builds N run (fun _ => True)) (start : List Expr) :
    Builds N (loopTest run start) (fun r => Block.All N r.1 ∧ r.2.All N) := by
  rw [loopTest_eq]
  refine .bind (builds_inNested hrun) (fun g hg => .ite .throw ?_)
  split
  · exact .throw
  · rename_i value rest hstack
    have hvalue := hg.stack value (by rw [hstack]; exact List.mem_cons_self)
    refine .ite (.bind (builds_check hvalue .int _) (fun value hvalue => ?_)) .throw
    exact .ite (.pure ⟨hg.code, hvalue⟩) .throw

theorem builds_loopBody {run : Eval Unit} (hrun : Builds N run (fun _ => True)) (vars : List VarId) :
    Builds N (loopBody run vars) (Block.All N) := by
  unfold loopBody
  refine .bind (builds_inNested hrun) (fun g hg => .ite .throw (.ite ?_ .throw))
  refine .bind (builds_changedSlots vars hg.stack) (fun changed hchanged => ?_)
  exact .bind (builds_updates hN hchanged) (fun code hcode => .pure (hg.code.append hcode))

theorem builds_loopStart : Builds N loopStart (fun _ => True) :=
  .bind (builds_popProcedure hN _) (fun _ _ => .bind (builds_popProcedure hN _) (fun _ _ =>
    .bind (builds_spillAll hN _) (fun _ _ => .pure trivial)))

theorem builds_loop {run : Procedure → Eval Unit} (hrun : ∀ p, Builds N (run p) (fun _ => True)) :
    Builds N (loop run) (fun _ => True) := by
  rw [loop_eq]
  refine .bind (builds_loopStart hN) (fun (body, condition, vars) _ => ?_)
  refine .bind (builds_loopTest (hrun condition) _) (fun r hr => .bind (builds_loopBody hN (hrun body) vars) (fun code hcode => ?_))
  exact builds_emit (.loop hr.1 hr.2 hcode)

/-! ## Whole bodies -/

theorem builds_callMethod (p : String) (ts : List Ty) (method : String) (t : Ty) :
    Builds N (callMethod p ts method t) (fun _ => True) :=
  .bind (builds_popArgs hN p ts) (fun _ hargs => builds_push (hN.call hargs))

theorem builds_callHelper (p : String) (ts : List Ty) (h : Helper) (t : Ty) :
    Builds N (callHelper p ts h t) (fun _ => True) :=
  .bind (builds_link h) (fun _ _ => builds_callMethod hN p ts h.name t)

theorem builds_callWriter (p : String) (ts : List Ty) (method : String) : Builds N (callWriter p ts method) (fun _ => True) :=
  .bind (builds_popArgs hN p ts) (fun _ hargs => builds_emit (.eval (hN.call hargs)))

theorem builds_binary (op : BinaryOp) (t : Ty) (p : String) : Builds N (binary op t p) (fun _ => True) :=
  .bind (builds_popTyped hN t p) (fun _ hr => .bind (builds_popTyped hN t p) (fun _ hl => builds_push (hN.binary hl hr)))

theorem builds_compare {op : CompareOp} (hop : op ≠ .eq) (p : String) : Builds N (compare op p) (fun _ => True) :=
  .bind (builds_popTyped hN .int p) (fun _ hr => .bind (builds_popTyped hN .int p) (fun _ hl => builds_push (hN.order hop hl hr)))

theorem builds_storeTop (target : Target) (t : Ty) : Builds N (storeTop target t) (fun _ => True) :=
  .bind (builds_popTyped hN t _) (fun _ he => .bind (builds_spillWhere hN _) (fun _ _ => builds_emit (.assign he)))

theorem builds_assign (d : Dictionary) : Builds N (assign d) (fun _ => True) := by
  unfold assign
  refine .bind (builds_popAs hN _) (fun e _ => ?_)
  split
  · split
    · exact .throw
    · dsimp only
      split
      · exact .bind builds_touchEntry (fun _ _ => builds_storeTop hN _ _)
      · exact builds_storeTop hN _ _
  · exact builds_mismatch _ _ _

theorem builds_missing : Builds N missing (fun _ => True) := by
  unfold missing
  refine .bind (builds_popAs hN _) (fun e he => .bind (builds_check he .generic _) (fun e he => ?_))
  split
  · exact .bind builds_touchEntry (fun _ _ => builds_push (hN.call (List.forall_mem_singleton.2 (hN.leaf rfl rfl rfl))))
  · refine .get (fun m _ => .ite ?_ (builds_push (hN.leaf rfl rfl rfl)))
    exact .bind (builds_link _) (fun _ _ => builds_push (hN.call (List.forall_mem_singleton.2 he)))

theorem builds_callType : Builds N callType (fun _ => True) :=
  .bind (builds_link _) (fun _ _ => .bind (builds_spillWhere hN _) (fun _ _ => .bind builds_touchEntry (fun _ _ =>
    builds_emit (.eval (hN.call (List.forall_mem_singleton.2 (hN.leaf rfl rfl rfl)))))))

theorem builds_invoke (s : Signature) {args : List Expr} (hargs : ∀ e ∈ args, e.All N) :
    Builds N (invoke s args) (fun _ => True) := by
  refine .bind (builds_spillWhere hN _) (fun _ _ => .ite (builds_emit (.eval (hN.call hargs))) ?_)
  refine .bind (builds_newLocal _) (fun v _ => ?_)
  exact .bind (builds_emit (.declare (hN.call hargs))) (fun _ _ => builds_push (hN.var v))

theorem builds_callRoutine (n : String) (s : Signature) : Builds N (callRoutine n s) (fun _ => True) := by
  rw [callRoutine_eq]
  refine .bind (builds_popArgs hN n s.params) (fun args hargs => .ite ?_ (builds_invoke hN s hargs))
  refine .bind builds_touchEntry (fun _ _ => builds_invoke hN s ?_)
  exact List.forall_mem_cons.2 ⟨hN.leaf rfl rfl rfl, hargs⟩

theorem builds_equands : Builds N equands (fun r => r.1.All N ∧ r.2.All N) := by
  refine .bind (builds_popTyped hN _ _) (fun right hr => .bind (builds_tyOf _) (fun t _ => ?_))
  refine .bind (builds_popTyped hN t _) (fun left hl => .bind (builds_tyOf _) (fun t' _ => ?_))
  exact .bind (builds_check hr t' _) (fun right hr => .pure ⟨hl, hr⟩)

theorem builds_equal (h : ∀ l r, N (.compare .eq l r)) : Builds N equal (fun _ => True) := by
  rw [equal_eq]
  refine .bind (builds_equands hN) (fun (l, r) hlr => builds_push ?_)
  exact List.forall_mem_cons.2 ⟨h l r, List.forall_mem_append.2 ⟨hlr.1, hlr.2⟩⟩

section Runs

variable {d : Dictionary} {run : Procedure → Eval Unit} (hrun : ∀ p, Builds N (run p) (fun _ => True))

include hrun

/-- **Every primitive but `=` builds what is not a test of equality.** -/
theorem builds_primitive {p : Primitive} (heq : p = .eq → Builds N equal (fun _ => True)) :
    Builds N (primitive d run p) (fun _ => True) := by
  cases p with
  | eq => exact heq rfl
  | branch => exact builds_branch hN hrun
  | loop => exact builds_loop hN hrun
  | add | sub | concat => exact builds_binary hN _ _ _
  | lt | gt => exact builds_compare hN (by decide) _
  | assign => exact builds_assign hN d
  | callType => exact builds_callType hN
  | missing => exact builds_missing hN
  | clear => exact builds_clear
  | duplicate => exact .bind (builds_popAs hN _) (fun _ he => .bind (builds_push he) (fun _ _ => builds_push he))
  | swap =>
    exact .bind (builds_popAs hN _) (fun _ htop => .bind (builds_popAs hN _) (fun _ hbelow =>
      .bind (builds_push htop) (fun _ _ => builds_push hbelow)))
  | skip => exact .pure trivial
  | quote | preamble => exact builds_push (hN.leaf rfl rfl rfl)
  | cite | entryType => exact .bind builds_touchEntry (fun _ _ => builds_push (hN.leaf rfl rfl rfl))
  | pop | top => exact .bind (builds_popAs hN _) (fun _ _ => .pure trivial)
  | newline | warning | write => exact builds_callWriter hN _ _ _
  | changeCase | intToStr | purify | width => exact builds_callMethod hN _ _ _ _
  | addPeriod | chrToInt | empty | formatName | intToChr | numNames | substring | textLength | textPrefix =>
    exact builds_callHelper hN _ _ _ _

variable (hreads : ∀ x, d.Reads x → N x)

include hreads

theorem builds_name {n : String} (heq : d.get? n = some (.primitive .eq) → Builds N equal (fun _ => True)) :
    Builds N (name d run n) (fun _ => True) := by
  have hglobal {id : String} {t : Ty} (h : d.Global id t) : Builds N (push (.global id t)) (fun _ => True) :=
    builds_push (List.forall_mem_singleton.2 (hreads _ (.global h)))
  have hentryVar {t : Ty} (h : d.EntryVar n t) : Builds N (push (.entryVar n t)) (fun _ => True) :=
    builds_push (List.forall_mem_singleton.2 (hreads _ (.entryVar h)))
  unfold name
  split
  · exact .throw
  · rename_i hp
    exact builds_primitive hN hrun (fun h => heq (h ▸ hp))
  · exact builds_callRoutine hN _ _
  · exact .bind builds_touchEntry (fun _ _ => builds_push (hN.leaf rfl rfl rfl))
  · rename_i hn
    exact hglobal ⟨n, _, hn, rfl⟩
  · rename_i hn
    exact hglobal ⟨n, _, hn, rfl⟩
  · rename_i hn
    exact .bind builds_touchEntry (fun _ _ => hentryVar ⟨_, hn, rfl⟩)
  · rename_i hn
    exact .bind builds_touchEntry (fun _ _ => hentryVar ⟨_, hn, rfl⟩)
  · exact builds_push (hN.leaf rfl rfl rfl)

/-- A term that is no name of `=`. -/
theorem builds_term {t : Term}
    (heq : ∀ n span, t = .name n span → d.get? n = some (.primitive .eq) → Builds N equal (fun _ => True)) :
    Builds N (term d run t) (fun _ => True) := by
  unfold term
  refine .bind (.modify (fun _ => rfl) (fun _ => .refl _)) (fun _ _ => ?_)
  cases t with
  | integer | string | quoted | block => exact builds_push (hN.leaf rfl rfl rfl)
  | name n span => exact builds_name hN hrun hreads (heq n span rfl)
  | field | entryInteger | entryString => exact .throw

end Runs

section Procedures

variable {d : Dictionary} (hreads : ∀ x, d.Reads x → N x) (hequation : ∀ l r, N (.compare .eq l r))

include hreads hequation

theorem builds_terms {run : Procedure → Eval Unit} (hrun : ∀ p, Builds N (run p) (fun _ => True)) :
    ∀ ts : List Term, Builds N (terms d run ts) (fun _ => True)
  | [] => .pure trivial
  | _ :: ts => .bind (builds_term hN hrun hreads (fun _ _ _ _ => builds_equal hN hequation)) (fun _ _ => builds_terms hrun ts)

/-- **What holds of all that `=` builds too, a run builds throughout.** -/
theorem builds_procedure : ∀ (depth : Nat) (p : Procedure), Builds N (procedure d depth p) (fun _ => True)
  | 0, _ => .throw
  | depth + 1, .group g => builds_terms hN hreads hequation (builds_procedure depth) g.terms
  | depth + 1, .named _ => builds_name hN (builds_procedure depth) hreads (fun _ => builds_equal hN hequation)

end Procedures

end Ordinary

/-! ## Types learned -/

/-- Where nothing is asked of nodes, a run learns types. -/
theorem Builds.sharpens {x : Eval α} {Q : α → Prop} {m m' : Machine} {a : α} (h : Builds (fun _ => True) x Q)
    (hx : x m = .ok a m') : m.scope.Sharpens m'.scope :=
  (h m a m' ⟨fun _ _ _ _ => trivial, fun _ _ _ _ _ _ => trivial⟩ hx).1

theorem ordinary_any : Ordinary (fun _ => True) := fun _ _ _ => trivial

theorem builds_any (d : Dictionary) (depth : Nat) (p : Procedure) :
    Builds (fun _ => True) (procedure d depth p) (fun _ => True) :=
  builds_procedure ordinary_any (fun _ _ => trivial) (fun _ _ => trivial) depth p

end Eval
end Bibstyle
