import Mathlib.Logic.Function.Iterate
import Bibstyle.Proofs.Acts
/-!
# NormalForm — a reduced method cannot be reduced

What a method looks like in which there is nothing to reduce is said here without the passes: no node is known from its
parts, no branch or loop has a known outcome, and every local that is stored in is read.  The passes leave such a method
as it is, and a pass that leaves something as it is has found nothing to do.  So the rounds end where the method is
normal, which is why reducing twice is reducing once.  That the constants are computed only once, before the rounds, does
no harm: a round moves expressions about and drops some, but it makes no new ones.
-/
namespace Bibstyle

/-! ## Constants -/

namespace Expr

/-- **A node that is known from its parts**, looked at without what is below them.  A sum or a difference is known only if
it fits in 32 bits. -/
inductive Foldable : Expr → Prop where
  | sum {a b : Int32} (hmin : -2147483648 ≤ a.toInt + b.toInt) (hmax : a.toInt + b.toInt ≤ 2147483647) :
    Foldable (.binary .add (.int a) (.int b))
  | difference {a b : Int32} (hmin : -2147483648 ≤ a.toInt - b.toInt) (hmax : a.toInt - b.toInt ≤ 2147483647) :
    Foldable (.binary .sub (.int a) (.int b))
  | join (a b : String) : Foldable (.binary .concat (.str a) (.str b))
  | lengthened (e : Expr) (a b : String) : Foldable (.binary .concat (.binary .concat e (.str a)) (.str b))
  | order (op : CompareOp) (a b : Int32) : Foldable (.compare op (.int a) (.int b))
  | sameText (a b : String) : Foldable (.compare .eq (.str a) (.str b))

/-- **An expression in which nothing is left to compute.** -/
def Folded (e : Expr) : Prop :=
  ∀ x ∈ e.nodes, ¬ x.Foldable

theorem folded_binary {op : BinaryOp} {l r : Expr} :
    (binary op l r).Folded ↔ ¬ (binary op l r).Foldable ∧ l.Folded ∧ r.Folded := by
  rw [Folded, nodes, List.forall_mem_cons, List.forall_mem_append]
  rfl

theorem folded_compare {op : CompareOp} {l r : Expr} :
    (compare op l r).Folded ↔ ¬ (compare op l r).Foldable ∧ l.Folded ∧ r.Folded := by
  rw [Folded, nodes, List.forall_mem_cons, List.forall_mem_append]
  rfl

theorem folded_call {c : Callee} {args : List Expr} {t : Ty} {effect : Bool} :
    (call c args t effect).Folded ↔ ∀ x ∈ nodesAll args, ¬ x.Foldable := by
  rw [Folded, nodes, List.forall_mem_cons]
  exact and_iff_right nofun

theorem folded_int (n : Int32) : (int n).Folded :=
  List.forall_mem_singleton.2 nofun

theorem folded_str (s : String) : (str s).Folded :=
  List.forall_mem_singleton.2 nofun

theorem bounds_of_word? {n : Int} {m : Int32} (h : Decimal.word? n = some m) : -2147483648 ≤ n ∧ n ≤ 2147483647 := by
  unfold Decimal.word? at h
  split at h
  · assumption
  · cases h

theorem foldBinary_eq {op : BinaryOp} {l r : Expr} (h : ¬ (binary op l r).Foldable) : foldBinary op l r = binary op l r := by
  unfold foldBinary
  split
  · split
    · rename_i hword
      obtain ⟨hmin, hmax⟩ := bounds_of_word? hword
      exact absurd (.sum hmin hmax) h
    · rfl
  · split
    · rename_i hword
      obtain ⟨hmin, hmax⟩ := bounds_of_word? hword
      exact absurd (.difference hmin hmax) h
    · rfl
  · exact absurd (.join _ _) h
  · exact absurd (.lengthened _ _ _) h
  · rfl

theorem foldCompare_eq {op : CompareOp} {l r : Expr} (h : ¬ (compare op l r).Foldable) : foldCompare op l r = compare op l r := by
  unfold foldCompare
  split
  · exact absurd (.order _ _ _) h
  · exact absurd (.order _ _ _) h
  · exact absurd (.order _ _ _) h
  · exact absurd (.sameText _ _) h
  · rfl

/-- What is made of folded parts is folded: a join that takes a constant in was no known node before, so what it begins with
is neither a constant nor a join that ends in one. -/
theorem folded_foldBinary {op : BinaryOp} {l r : Expr} (hl : l.Folded) (hr : r.Folded) : (foldBinary op l r).Folded := by
  by_cases h : (binary op l r).Foldable
  · cases h with
    | sum hmin hmax =>
      rw [foldBinary, Decimal.word?, if_pos ⟨hmin, hmax⟩]
      exact folded_int _
    | difference hmin hmax =>
      rw [foldBinary, Decimal.word?, if_pos ⟨hmin, hmax⟩]
      exact folded_int _
    | join a b => exact folded_str _
    | lengthened e a b =>
      rw [foldBinary]
      obtain ⟨hjoin, he, -⟩ := folded_binary.1 hl
      refine folded_binary.2 ⟨fun hnode => hjoin ?_, he, folded_str _⟩
      cases hnode with
      | join c d => exact .join c a
      | lengthened e c d => exact .lengthened e c a
  · rw [foldBinary_eq h]
    exact folded_binary.2 ⟨h, hl, hr⟩

theorem folded_foldCompare {op : CompareOp} {l r : Expr} (hl : l.Folded) (hr : r.Folded) : (foldCompare op l r).Folded := by
  by_cases h : (compare op l r).Foldable
  · cases h with
    | order op a b => cases op <;> exact folded_int _
    | sameText a b => exact folded_int _
  · rw [foldCompare_eq h]
    exact folded_compare.2 ⟨h, hl, hr⟩

mutual

/-- **Computing constants leaves nothing to compute.** -/
theorem folded_fold : ∀ e : Expr, (fold e).Folded
  | call _ args _ _ => folded_call.2 (folded_foldAll args)
  | binary _ l r => folded_foldBinary (folded_fold l) (folded_fold r)
  | compare _ l r => folded_foldCompare (folded_fold l) (folded_fold r)
  | int _ | str _ | quoted _ | var _ | global _ _ | field _ | entryVar _ _ | entry | verbatim _ _ | block _ =>
    List.forall_mem_singleton.2 nofun

theorem folded_foldAll : ∀ es : List Expr, ∀ x ∈ nodesAll (foldAll es), ¬ x.Foldable
  | [] => List.forall_mem_nil _
  | e :: es => List.forall_mem_append.2 ⟨folded_fold e, folded_foldAll es⟩

end

mutual

/-- **An expression in which nothing is left to compute stays as it is.** -/
theorem fold_of_folded : ∀ {e : Expr}, e.Folded → fold e = e
  | call c args t effect, h => by rw [fold, foldAll_of_folded (folded_call.1 h)]
  | binary op l r, h => by
    obtain ⟨hnode, hl, hr⟩ := folded_binary.1 h
    rw [fold, fold_of_folded hl, fold_of_folded hr, foldBinary_eq hnode]
  | compare op l r, h => by
    obtain ⟨hnode, hl, hr⟩ := folded_compare.1 h
    rw [fold, fold_of_folded hl, fold_of_folded hr, foldCompare_eq hnode]
  | int _, _ | str _, _ | quoted _, _ | var _, _ | global _ _, _ | field _, _ | entryVar _ _, _ | entry, _
  | verbatim _ _, _ | block _, _ => rfl

theorem foldAll_of_folded : ∀ {es : List Expr}, (∀ x ∈ nodesAll es, ¬ x.Foldable) → foldAll es = es
  | [], _ => rfl
  | e :: es, h => by
    obtain ⟨he, hes⟩ := List.forall_mem_append.1 h
    rw [foldAll, fold_of_folded he, foldAll_of_folded hes]

end

theorem fold_fold (e : Expr) : fold (fold e) = fold e :=
  fold_of_folded (folded_fold e)

end Expr

/-- An act in which nothing is left to compute. -/
def Act.Folded (a : Act) : Prop :=
  ∀ e, a.expr? = some e → e.Folded

theorem Act.folded_map (a : Act) : (a.map Expr.fold).Folded := by
  intro e he
  rw [expr?_map] at he
  obtain ⟨e', -, rfl⟩ := Option.map_eq_some_iff.1 he
  exact Expr.folded_fold e'

theorem Act.stable_folded : Act.Stable (fun _ a => a.Folded) where
  fold _ a _ := a.folded_map
  leaves _ _ _ hleaves h e he := h e (hleaves.expr?_eq ▸ he)

namespace Stmt

mutual

theorem map_of_folded : ∀ {t : Stmt} {bound : Bool}, (∀ q ∈ acts bound t, q.2.Folded) → map Expr.fold t = t
  | eval e, _, h => congrArg eval (Expr.fold_of_folded (List.forall_mem_singleton.1 h e rfl))
  | declare v none, _, _ | comment _, _, _ => rfl
  | declare v (some e), _, h =>
    congrArg (fun e => declare v (some e)) (Expr.fold_of_folded (List.forall_mem_singleton.1 h e rfl))
  | assign t e, _, h => congrArg (assign t) (Expr.fold_of_folded (List.forall_mem_singleton.1 h e rfl))
  | branch c yes no, _, h => by
    rw [acts, List.forall_mem_cons, List.forall_mem_append] at h
    rw [map, Expr.fold_of_folded (h.1 c rfl), mapAll_of_folded h.2.1, mapAll_of_folded h.2.2]
  | loop setup c body, _, h => by
    rw [acts, List.forall_mem_cons, List.forall_mem_append] at h
    rw [map, Expr.fold_of_folded (h.1 c rfl), mapAll_of_folded h.2.1, mapAll_of_folded h.2.2]
  | each reverse body, _, h => congrArg (each reverse) (mapAll_of_folded h)

/-- Code in which nothing is left to compute stays as it is. -/
theorem mapAll_of_folded : ∀ {b : List Stmt} {bound : Bool}, (∀ q ∈ actsAll bound b, q.2.Folded) → mapAll Expr.fold b = b
  | [], _, _ => rfl
  | t :: ts, _, h => by
    rw [actsAll, List.forall_mem_append] at h
    rw [mapAll, map_of_folded h.1, mapAll_of_folded h.2]

end

/-! ## Known branches -/

/-- A pass that takes weight away for each change it tells of tells truly. -/
theorem changed_iff {p : Pass} {b : List Stmt} (hblock : p.changed = false → p.block = b)
    (hweight : weightAll p.block + p.changed.toNat ≤ weightAll b) : p.changed = false ↔ p.block = b := by
  refine ⟨hblock, fun h => ?_⟩
  cases hchanged : p.changed with
  | false => rfl
  | true =>
    rw [h, hchanged, Bool.toNat_true] at hweight
    omega

/-- **A statement whose outcome is known before it is run.** -/
inductive Known : Stmt → Prop where
  | constant (n : Int32) (yes no : List Stmt) : Known (branch (.int n) yes no)
  | idle {c : Expr} (h : c.isPure = true) : Known (branch c [] [])
  | never {n : Int32} (h : n ≤ 0) (body : List Stmt) : Known (loop [] (.int n) body)

theorem known_branch_iff {c : Expr} {yes no : List Stmt} :
    (branch c yes no).Known ↔ c.constant?.isSome = true ∨ (yes.isEmpty && no.isEmpty && c.isPure) = true := by
  constructor
  · rintro (_ | h)
    · exact .inl rfl
    · exact .inr h
  · rintro (h | h)
    · obtain ⟨n, hn⟩ := Option.isSome_iff_exists.1 h
      cases c <;> cases hn
      exact .constant n yes no
    · simp only [Bool.and_eq_true, List.isEmpty_iff] at h
      obtain ⟨⟨rfl, rfl⟩, hpure⟩ := h
      exact .idle hpure

theorem known_loop_iff {setup body : List Stmt} {c : Expr} :
    (loop setup c body).Known ↔ (setup.isEmpty && c.fails) = true := by
  constructor
  · rintro (_ | _ | h)
    exact decide_eq_true h
  · intro h
    simp only [Bool.and_eq_true, List.isEmpty_iff] at h
    obtain ⟨rfl, hfails⟩ := h
    cases c <;> first | exact .never (of_decide_eq_true hfails) body | cases hfails

mutual

/-- A statement is pruned if its outcome is known, or that of a statement below it. -/
theorem prune_changed : ∀ t : Stmt, (prune t).changed = false ↔ ∀ x ∈ parts t, ¬ x.Known
  | branch c yes no => by
    rw [parts, List.forall_mem_cons, List.forall_mem_append, ← pruneAll_changed yes, ← pruneAll_changed no,
      known_branch_iff, prune]
    split
    · rename_i hc
      simp [hc]
    · rename_i hc
      split
      · rename_i hidle
        simp [hidle]
      · rename_i hidle
        simp [hc, hidle]
  | loop setup c body => by
    rw [parts, List.forall_mem_cons, List.forall_mem_append, ← pruneAll_changed setup, ← pruneAll_changed body,
      known_loop_iff, prune]
    split
    · rename_i hnever
      simp [hnever]
    · rename_i hnever
      simp [hnever]
  | each reverse body => by
    rw [parts, List.forall_mem_cons, ← pruneAll_changed body]
    exact (and_iff_right nofun).symm
  | eval _ | declare _ _ | assign _ _ | comment _ => ⟨fun _ => List.forall_mem_singleton.2 nofun, fun _ => rfl⟩

theorem pruneAll_changed : ∀ b : List Stmt, (pruneAll b).changed = false ↔ ∀ x ∈ partsAll b, ¬ x.Known
  | [] => ⟨fun _ => List.forall_mem_nil _, fun _ => rfl⟩
  | t :: ts => by
    rw [partsAll, List.forall_mem_append, ← prune_changed t, ← pruneAll_changed ts]
    exact Bool.or_eq_false_iff

end

mutual

theorem prune_block : ∀ {t : Stmt}, (prune t).changed = false → (prune t).block = [t]
  | branch c yes no, h => by
    rw [prune] at h ⊢
    split at h
    · cases h
    · split at h
      · cases h
      · rename_i hc hidle
        obtain ⟨hyes, hno⟩ := Bool.or_eq_false_iff.1 h
        rw [if_neg hidle, pruneAll_block hyes, pruneAll_block hno]
  | loop setup c body, h => by
    rw [prune] at h ⊢
    split at h
    · cases h
    · rename_i hnever
      obtain ⟨hsetup, hbody⟩ := Bool.or_eq_false_iff.1 h
      rw [if_neg hnever, pruneAll_block hsetup, pruneAll_block hbody]
  | each reverse body, h => by
    rw [prune] at h ⊢
    rw [pruneAll_block h]
  | eval _, _ | declare _ _, _ | assign _ _, _ | comment _, _ => rfl

theorem pruneAll_block : ∀ {b : List Stmt}, (pruneAll b).changed = false → (pruneAll b).block = b
  | [], _ => rfl
  | t :: ts, h => by
    rw [pruneAll, Pass.append] at h ⊢
    obtain ⟨ht, hts⟩ := Bool.or_eq_false_iff.1 h
    rw [prune_block ht, pruneAll_block hts]
    rfl

end

/-- **Pruning tells truly whether it has changed anything.** -/
theorem pruneAll_changed_iff (b : List Stmt) : (pruneAll b).changed = false ↔ (pruneAll b).block = b :=
  changed_iff pruneAll_block (weight_pruneAll b)

/-! ## Dead stores -/

/-- **A statement that stores in a variable**, or makes it. -/
inductive Stores (v : VarId) : Stmt → Prop where
  | declare (init : Option Expr) : Stores v (declare v init)
  | assign (e : Expr) : Stores v (assign (.var v) e)

mutual

/-- A statement is swept if it, or a statement below it, stores in a dead variable. -/
theorem sweep_changed (dead : VarId → Bool) : ∀ t : Stmt,
    (sweep dead t).changed = false ↔ ∀ x ∈ parts t, ∀ v, x.Stores v → dead v = false
  | declare v init => by
    rw [show parts (declare v init) = [declare v init] from rfl, List.forall_mem_singleton]
    have hstores : (∀ w, (declare v init).Stores w → dead w = false) ↔ dead v = false :=
      ⟨fun h => h v (.declare init), fun h w hw => by cases hw; exact h⟩
    rw [hstores]
    cases init <;> cases hv : dead v <;> simp [sweep, hv, Pass.keep]
  | assign (.var v) e => by
    rw [show parts (assign (.var v) e) = [assign (.var v) e] from rfl, List.forall_mem_singleton]
    have hstores : (∀ w, (assign (.var v) e).Stores w → dead w = false) ↔ dead v = false :=
      ⟨fun h => h v (.assign e), fun h w hw => by cases hw; exact h⟩
    rw [hstores]
    cases hv : dead v <;> simp [sweep, hv, Pass.keep]
  | branch c yes no => by
    rw [parts, List.forall_mem_cons, List.forall_mem_append, ← sweepAll_changed dead yes, ← sweepAll_changed dead no]
    exact Bool.or_eq_false_iff.trans (and_iff_right nofun).symm
  | loop setup c body => by
    rw [parts, List.forall_mem_cons, List.forall_mem_append, ← sweepAll_changed dead setup, ← sweepAll_changed dead body]
    exact Bool.or_eq_false_iff.trans (and_iff_right nofun).symm
  | each reverse body => by
    rw [parts, List.forall_mem_cons, ← sweepAll_changed dead body]
    exact (and_iff_right nofun).symm
  | eval _ | assign (.global _) _ | assign (.entryVar _) _ | comment _ =>
    ⟨fun _ => List.forall_mem_singleton.2 nofun, fun _ => rfl⟩

theorem sweepAll_changed (dead : VarId → Bool) : ∀ b : List Stmt,
    (sweepAll dead b).changed = false ↔ ∀ x ∈ partsAll b, ∀ v, x.Stores v → dead v = false
  | [] => ⟨fun _ => List.forall_mem_nil _, fun _ => rfl⟩
  | t :: ts => by
    rw [partsAll, List.forall_mem_append, ← sweep_changed dead t, ← sweepAll_changed dead ts]
    exact Bool.or_eq_false_iff

end

mutual

theorem sweep_block {dead : VarId → Bool} : ∀ {t : Stmt}, (sweep dead t).changed = false → (sweep dead t).block = [t]
  | declare v none, h | declare v (some e), h | assign (.var v) e, h => by
    rw [sweep] at h ⊢
    split at h
    · cases h
    · rename_i hv
      rw [if_neg hv]
      rfl
  | branch c yes no, h => by
    rw [sweep] at h ⊢
    obtain ⟨hyes, hno⟩ := Bool.or_eq_false_iff.1 h
    rw [sweepAll_block hyes, sweepAll_block hno]
  | loop setup c body, h => by
    rw [sweep] at h ⊢
    obtain ⟨hsetup, hbody⟩ := Bool.or_eq_false_iff.1 h
    rw [sweepAll_block hsetup, sweepAll_block hbody]
  | each reverse body, h => by
    rw [sweep] at h ⊢
    rw [sweepAll_block h]
  | eval _, _ | assign (.global _) _, _ | assign (.entryVar _) _, _ | comment _, _ => rfl

theorem sweepAll_block {dead : VarId → Bool} : ∀ {b : List Stmt}, (sweepAll dead b).changed = false → (sweepAll dead b).block = b
  | [], _ => rfl
  | t :: ts, h => by
    rw [sweepAll, Pass.append] at h ⊢
    obtain ⟨ht, hts⟩ := Bool.or_eq_false_iff.1 h
    rw [sweep_block ht, sweepAll_block hts]
    rfl

end

/-- **Sweeping tells truly whether it has changed anything.** -/
theorem sweepAll_changed_iff (dead : VarId → Bool) (b : List Stmt) :
    (sweepAll dead b).changed = false ↔ (sweepAll dead b).block = b :=
  changed_iff sweepAll_block (weight_sweepAll dead b)

end Stmt

/-- **An act that reads a variable**, other than in a pure value that it stores in that same variable. -/
def Act.Uses (v : VarId) : Act → Prop
  | .eval e | .test e | .assign (.global _) e | .assign (.entryVar _) e => v ∈ e.vars
  | .declare x (some e) | .assign (.var x) e => v ∈ e.vars ∧ (e.isPure = true → v ≠ x)
  | .declare _ none => False

namespace Stmt

mutual

theorem mem_reads {v : VarId} : ∀ (t : Stmt) (bound : Bool), v ∈ reads t ↔ ∃ q ∈ acts bound t, q.2.Uses v
  | eval e, bound | assign (.global _) e, bound | assign (.entryVar _) e, bound => by
    simp [acts, reads, Act.Uses]
  | declare x (some e), bound | assign (.var x) e, bound => by
    simp [acts, reads, Act.Uses, mem_storeReads]
  | declare x none, bound | comment _, bound => by
    simp [acts, reads, Act.Uses]
  | branch c yes no, bound => by
    simp only [acts, reads, List.append_assoc, List.mem_append, List.mem_cons, or_and_right, exists_or, exists_eq_left,
      Act.Uses, mem_readsAll yes bound, mem_readsAll no bound]
  | loop setup c body, bound => by
    simp only [acts, reads, List.append_assoc, List.mem_append, List.mem_cons, or_and_right, exists_or, exists_eq_left,
      Act.Uses, mem_readsAll setup bound, mem_readsAll body bound]
    exact or_left_comm
  | each reverse body, bound => mem_readsAll body true

/-- The variables that code keeps alive are those that its acts use. -/
theorem mem_readsAll {v : VarId} : ∀ (b : List Stmt) (bound : Bool), v ∈ readsAll b ↔ ∃ q ∈ actsAll bound b, q.2.Uses v
  | [], bound => by simp [readsAll, actsAll]
  | t :: ts, bound => by
    simp [readsAll, actsAll, or_and_right, exists_or, mem_reads t bound, mem_readsAll ts bound]

end

end Stmt

/-! ## Rounds -/

/-- **A method reads a variable**, in its code or in its result. -/
def Routine.Uses (r : Routine) (v : VarId) : Prop :=
  (∃ q ∈ Stmt.actsAll false r.body, q.2.Uses v) ∨ ∃ e, r.result = some e ∧ v ∈ e.vars

theorem Routine.mem_alive {r : Routine} {v : VarId} : v ∈ Block.alive r.body r.result ↔ r.Uses v := by
  unfold Block.alive Uses
  rw [List.mem_append, Stmt.mem_readsAll _ false]
  refine or_congr_right ?_
  cases r.result with
  | none => simp
  | some e => simp

theorem Scope.dead_eq_false_iff {s : Scope} {alive : List VarId} {v : VarId} :
    s.dead alive v = false ↔ (s.isLocal v = true → v ∈ alive) := by
  cases h : s.isLocal v <;> simp [Scope.dead, h]

namespace Block

variable {s : Scope} {result : Option Expr} {b : Block}

/-- A round that tells of no change has left the code as it was. -/
theorem round_block (h : (round s result b).changed = false) : (round s result b).block = b := by
  obtain ⟨hprune, hsweep⟩ := Bool.or_eq_false_iff.1 h
  rw [round, Stmt.sweepAll_block hsweep, Stmt.pruneAll_block hprune]

/-- **A round changes nothing exactly where it finds nothing**: no outcome is known, and all locals that are stored in are
alive. -/
theorem round_changed_iff : (round s result b).changed = false ↔ (∀ t ∈ Stmt.partsAll b, ¬ t.Known) ∧
    ∀ t ∈ Stmt.partsAll b, ∀ v, t.Stores v → s.isLocal v = true → v ∈ alive b result := by
  rw [round, Bool.or_eq_false_iff, ← Stmt.pruneAll_changed]
  refine and_congr_right (fun hprune => ?_)
  rw [Stmt.pruneAll_block hprune, Stmt.sweepAll_changed]
  simp only [Scope.dead_eq_false_iff]

theorem settle_eq_self (h : (round s result b).changed = false) : settle s result b = b := by
  rw [settle, dif_neg (by rw [h]; exact Bool.false_ne_true), round_block h]

/-- **The rounds end**, after no more rounds than the code has weight: each but the last changes something, and what they
leave is what the last one has found. -/
theorem settle_rounds (s : Scope) (result : Option Expr) (b : Block) :
    ∃ n ≤ Stmt.weightAll b, settle s result b = (fun b => (round s result b).block)^[n] b ∧
      (∀ k < n, (round s result ((fun b => (round s result b).block)^[k] b)).changed = true) ∧
      (round s result (settle s result b)).changed = false := by
  induction b using settle.induct s result with
  | case1 b p hp hlighter ih =>
    obtain ⟨n, hn, hsettle, hchanged, hlast⟩ := ih
    have hfirst : settle s result b = settle s result p.block := by rw [settle, dif_pos hp]
    refine ⟨n + 1, Nat.lt_of_le_of_lt hn hlighter, ?_, ?_, hfirst ▸ hlast⟩
    · rw [hfirst, hsettle]
      rfl
    · intro k hk
      cases k with
      | zero => exact hp
      | succ k => exact hchanged k (Nat.lt_of_succ_lt_succ hk)
  | case2 b p hp =>
    have hunchanged : (round s result b).changed = false := Bool.eq_false_iff.2 hp
    refine ⟨0, Nat.zero_le _, settle_eq_self hunchanged, fun k hk => absurd hk (Nat.not_lt_zero k), ?_⟩
    rw [settle_eq_self hunchanged]
    exact hunchanged

end Block

namespace Routine

/-- **A method in which there is nothing to reduce**: no node is known from its parts, no outcome of a branch or a loop is
known, and every local that is stored in is read. -/
structure Normal (r : Routine) : Prop where
  values : ∀ q ∈ Stmt.actsAll false r.body, ∀ e, q.2.expr? = some e → ∀ x ∈ e.nodes, ¬ x.Foldable
  result : ∀ e, r.result = some e → ∀ x ∈ e.nodes, ¬ x.Foldable
  outcomes : ∀ t ∈ Stmt.partsAll r.body, ¬ t.Known
  stores : ∀ t ∈ Stmt.partsAll r.body, ∀ v, t.Stores v → r.scope.isLocal v = true → r.Uses v

/-- A reduced method is normal. -/
theorem normal_reduce (r : Routine) : r.reduce.Normal := by
  have hvalues : ∀ q ∈ Stmt.actsAll false r.reduce.body, q.2.Folded := by
    refine @Act.Stable.settle _ false Act.stable_folded _ _ _ (fun q hq => ?_)
    rw [Stmt.actsAll_mapAll] at hq
    obtain ⟨a, -, rfl⟩ := List.mem_map.1 hq
    exact a.2.folded_map
  obtain ⟨-, -, -, -, hlast⟩ := Block.settle_rounds r.scope r.reduce.result (Stmt.mapAll Expr.fold r.body)
  obtain ⟨houtcomes, hstores⟩ := Block.round_changed_iff.1 hlast
  refine ⟨hvalues, fun e he => ?_, houtcomes, fun t ht v hv hlocal => mem_alive.1 (hstores t ht v hv hlocal)⟩
  obtain ⟨e', -, rfl⟩ := Option.map_eq_some_iff.1 he
  exact Expr.folded_fold e'

/-- **The normal methods are those that the reduction leaves as they are.** -/
theorem normal_iff (r : Routine) : r.Normal ↔ r.reduce = r := by
  constructor
  · intro h
    have hbody : Stmt.mapAll Expr.fold r.body = r.body := Stmt.mapAll_of_folded h.values
    have hresult : r.result.map Expr.fold = r.result := by
      cases hr : r.result with
      | none => rfl
      | some e => exact congrArg some (Expr.fold_of_folded (h.result e hr))
    have hround : (Block.round r.scope r.result r.body).changed = false :=
      Block.round_changed_iff.2 ⟨h.outcomes, fun t ht v hv hlocal => mem_alive.2 (h.stores t ht v hv hlocal)⟩
    rw [reduce, hbody, hresult, Block.settle_eq_self hround]
  · intro h
    rw [← h]
    exact normal_reduce r

/-- **The reduction settles.**  Computing constants twice is computing them once, and each of the other passes tells truly
whether it has changed anything.  For every method the rounds end, with a normal method: reducing it again changes
nothing. -/
theorem reduce_settles :
    (∀ e : Expr, e.fold.fold = e.fold) ∧
    (∀ b : Block, (Stmt.pruneAll b).changed = false ↔ (Stmt.pruneAll b).block = b) ∧
    (∀ (dead : VarId → Bool) (b : Block), (Stmt.sweepAll dead b).changed = false ↔ (Stmt.sweepAll dead b).block = b) ∧
    ∀ r : Routine,
      (∃ n ≤ Stmt.weightAll (Stmt.mapAll Expr.fold r.body),
        r.reduce.body = (fun b => (Block.round r.scope r.reduce.result b).block)^[n] (Stmt.mapAll Expr.fold r.body) ∧
        (∀ k < n, (Block.round r.scope r.reduce.result
          ((fun b => (Block.round r.scope r.reduce.result b).block)^[k] (Stmt.mapAll Expr.fold r.body))).changed = true) ∧
        (Block.round r.scope r.reduce.result r.reduce.body).changed = false) ∧
      r.reduce.Normal ∧ r.reduce.reduce = r.reduce := by
  refine ⟨Expr.fold_fold, Stmt.pruneAll_changed_iff, Stmt.sweepAll_changed_iff, fun r => ⟨?_, normal_reduce r, ?_⟩⟩
  · exact Block.settle_rounds r.scope r.reduce.result (Stmt.mapAll Expr.fold r.body)
  · exact (normal_iff r.reduce).1 (normal_reduce r)

end Routine
end Bibstyle
