import Bibstyle.Proofs.Execution
import Bibstyle.Reduction.Fixpoint
/-!
# Reduction — a reduced method does what the method did

Each pass keeps every run that ends.  Computing constants changes no value.  Pruning keeps the side that a run takes.
Sweeping is the hard one: with and without the dead stores, two runs go side by side, and their variables agree wherever
a variable is alive.  What is left after a sweep reads only variables that are alive, because a value that reads a dead
variable is either stored in that same variable or counted as a read of it.
-/
namespace Bibstyle

variable {rt : Runtime} {ent : Option Entry}

/-! ## Constants -/

theorem Decimal.eq_of_word? {n : Int} {m : Int32} (h : word? n = some m) : m = Int32.ofInt n := by
  unfold word? at h
  split at h
  · exact (Option.some.inj h).symm
  · cases h

namespace Expr

variable {ρ : Locals}

theorem gives_int {n : Int32} {w w' : World} {v : Value} :
    (int n).Gives rt ent ρ w v w' ↔ v = .int n ∧ w' = w := by
  simp [Gives, worth, eq_comm]

theorem gives_str {s : String} {w w' : World} {v : Value} :
    (str s).Gives rt ent ρ w v w' ↔ v = .str s ∧ w' = w := by
  simp [Gives, worth, eq_comm]

theorem foldBinary_gives {op : BinaryOp} {l r : Expr} {w w₁ w' : World} {a b v : Value}
    (hl : l.Gives rt ent ρ w a w₁) (hr : r.Gives rt ent ρ w₁ b w') (hv : op.apply a b = some v) :
    (foldBinary op l r).Gives rt ent ρ w v w' := by
  have hsame : ∀ {x y : Expr}, l = x → r = y → (binary op x y).Gives rt ent ρ w v w' := by
    rintro x y rfl rfl
    exact ⟨a, w₁, b, hl, hr, hv⟩
  unfold foldBinary
  split
  · rename_i i j
    split
    · rename_i n hn
      obtain ⟨rfl, rfl⟩ := gives_int.1 hl
      obtain ⟨rfl, rfl⟩ := gives_int.1 hr
      have hsum : n = i + j := by rw [Decimal.eq_of_word? hn, Int32.ofInt_add, Int32.ofInt_toInt, Int32.ofInt_toInt]
      exact gives_int.2 ⟨by rw [hsum]; exact (Option.some.inj hv).symm, rfl⟩
    · exact hsame rfl rfl
  · rename_i i j
    split
    · rename_i n hn
      obtain ⟨rfl, rfl⟩ := gives_int.1 hl
      obtain ⟨rfl, rfl⟩ := gives_int.1 hr
      have hdiff : n = i - j := by rw [Decimal.eq_of_word? hn, Int32.ofInt_sub, Int32.ofInt_toInt, Int32.ofInt_toInt]
      exact gives_int.2 ⟨by rw [hdiff]; exact (Option.some.inj hv).symm, rfl⟩
    · exact hsame rfl rfl
  · obtain ⟨rfl, rfl⟩ := gives_str.1 hl
    obtain ⟨rfl, rfl⟩ := gives_str.1 hr
    exact gives_str.2 ⟨(Option.some.inj hv).symm, rfl⟩
  · -- a join that ends in a constant takes the next constant in: joining is associative
    obtain ⟨c, w₂, d, hc, hd, hcd⟩ := hl
    obtain ⟨rfl, rfl⟩ := gives_str.1 hd
    obtain ⟨rfl, rfl⟩ := gives_str.1 hr
    cases c <;> simp only [BinaryOp.apply, reduceCtorEq, Option.some.injEq] at hcd
    subst hcd
    simp only [BinaryOp.apply, Option.some.injEq, String.append_assoc] at hv
    exact ⟨_, _, _, hc, gives_str.2 ⟨rfl, rfl⟩, by rw [← hv]; rfl⟩
  · exact hsame rfl rfl

theorem foldCompare_gives {op : CompareOp} {l r : Expr} {w w₁ w' : World} {a b v : Value}
    (hl : l.Gives rt ent ρ w a w₁) (hr : r.Gives rt ent ρ w₁ b w') (hv : op.apply a b = some v) :
    (foldCompare op l r).Gives rt ent ρ w v w' := by
  unfold foldCompare
  split
  · obtain ⟨rfl, rfl⟩ := gives_int.1 hl
    obtain ⟨rfl, rfl⟩ := gives_int.1 hr
    exact gives_int.2 ⟨(Option.some.inj hv).symm, rfl⟩
  · obtain ⟨rfl, rfl⟩ := gives_int.1 hl
    obtain ⟨rfl, rfl⟩ := gives_int.1 hr
    exact gives_int.2 ⟨(Option.some.inj hv).symm, rfl⟩
  · rename_i i j
    obtain ⟨rfl, rfl⟩ := gives_int.1 hl
    obtain ⟨rfl, rfl⟩ := gives_int.1 hr
    have heq : (Value.int i == Value.int j) = (i == j) := by simp [BEq.beq]
    exact gives_int.2 ⟨by rw [← Option.some.inj hv, heq]; rfl, rfl⟩
  · rename_i s t
    obtain ⟨rfl, rfl⟩ := gives_str.1 hl
    obtain ⟨rfl, rfl⟩ := gives_str.1 hr
    have heq : (Value.str s == Value.str t) = (s == t) := by simp [BEq.beq]
    exact gives_int.2 ⟨by rw [← Option.some.inj hv, heq]; rfl, rfl⟩
  · exact ⟨a, w₁, b, hl, hr, hv⟩

mutual

/-- **Computing constants keeps the value** of an expression, and what evaluating it does. -/
theorem fold_gives : ∀ {e : Expr} {w w' : World} {v : Value}, e.Gives rt ent ρ w v w' → (fold e).Gives rt ent ρ w v w'
  | call c args t false, w, w', v, h => by
    simp only [Gives, fold] at h ⊢
    obtain ⟨vs, hvs, hv⟩ := h
    exact ⟨vs, foldAll_gives hvs, hv⟩
  | call c args t true, w, w', v, h => by
    simp only [Gives, fold] at h ⊢
    obtain ⟨vs, w₁, hvs, hv⟩ := h
    exact ⟨vs, w₁, foldAll_gives hvs, hv⟩
  | binary op l r, w, w', v, h => by
    simp only [Gives] at h
    obtain ⟨a, w₁, b, hl, hr, hv⟩ := h
    exact foldBinary_gives (fold_gives hl) (fold_gives hr) hv
  | compare op l r, w, w', v, h => by
    simp only [Gives] at h
    obtain ⟨a, w₁, b, hl, hr, hv⟩ := h
    exact foldCompare_gives (fold_gives hl) (fold_gives hr) hv
  | int _, _, _, _, h | str _, _, _, _, h | quoted _, _, _, _, h | var _, _, _, _, h | global _ _, _, _, _, h
  | field _, _, _, _, h | entryVar _ _, _, _, _, h | entry, _, _, _, h | verbatim _ _, _, _, _, h
  | block _, _, _, _, h => h

theorem foldAll_gives : ∀ {es : List Expr} {w w' : World} {vs : List Value},
    GivesAll rt ent ρ es w vs w' → GivesAll rt ent ρ (foldAll es) w vs w'
  | [], _, _, _, h => h
  | e :: es, w, w', vs, h => by
    simp only [GivesAll, foldAll] at h ⊢
    obtain ⟨v, w₁, vs', hv, hvs, rfl⟩ := h
    exact ⟨v, w₁, vs', fold_gives hv, foldAll_gives hvs, rfl⟩

end

end Expr

/-- What can be run, with every expression in it changed. -/
def Job.map (f : Expr → Expr) : Job → Job
  | stmt t => stmt (Stmt.map f t)
  | block b => block (Stmt.mapAll f b)
  | entries es b => entries es (Stmt.mapAll f b)

theorem fold_runs {j : Job} {s s' : Store} (h : Runs rt j ent s s') : Runs rt (j.map Expr.fold) ent s s' := by
  induction h with
  | eval h => exact .eval (Expr.fold_gives h)
  | declare => exact .declare
  | init h => exact .init (Expr.fold_gives h)
  | assign h ht => exact .assign (Expr.fold_gives h) ht
  | yes h hn _ ih => exact .yes (Expr.fold_gives h) hn ih
  | no h hn _ ih => exact .no (Expr.fold_gives h) hn ih
  | done _ h hn ih => exact .done ih (Expr.fold_gives h) hn
  | again _ h hn _ _ ih₁ ih₂ ih₃ => exact .again ih₁ (Expr.fold_gives h) hn ih₂ ih₃
  | each _ ih => exact .each ih
  | comment => exact .comment
  | nil => exact .nil
  | cons _ _ ih₁ ih₂ => exact .cons ih₁ ih₂
  | noEntry => exact .noEntry
  | nextEntry _ _ ih₁ ih₂ => exact .nextEntry ih₁ ih₂

/-! ## Known branches -/

/-- What can be run, without the branches whose outcome is known. -/
def Job.prune : Job → Job
  | stmt t => block (Stmt.prune t).block
  | block b => block (Stmt.pruneAll b).block
  | entries es b => entries es (Stmt.pruneAll b).block

theorem Expr.eq_int_of_constant? {e : Expr} {n : Int32} (h : e.constant? = some n) : e = .int n := by
  cases e <;> simp_all [Expr.constant?]

theorem Expr.gives_of_constant? {e : Expr} {n k : Int32} {ρ : Locals} {w w' : World} (hc : e.constant? = some n)
    (h : e.Gives rt ent ρ w (.int k) w') : k = n ∧ w' = w := by
  rw [Expr.eq_int_of_constant? hc] at h
  obtain ⟨hk, hw⟩ := Expr.gives_int.1 h
  exact ⟨by injection hk, hw⟩

theorem Expr.not_pos_of_fails {e : Expr} {k : Int32} {ρ : Locals} {w w' : World} (hf : e.fails = true)
    (h : e.Gives rt ent ρ w (.int k) w') : ¬ 0 < k ∧ w' = w := by
  unfold Expr.fails at hf
  split at hf
  · rename_i n hc
    obtain ⟨rfl, hw⟩ := Expr.gives_of_constant? hc h
    exact ⟨Int32.not_lt.2 (by simpa using hf), hw⟩
  · cases hf

/-- A branch pruned does what the side it takes does, pruned. -/
theorem prune_branch {c : Expr} {yes no : Block} {n : Int32} {w : World} {s s' : Store}
    (h : c.Gives rt ent s.locals s.world (.int n) w)
    (hb : Runs rt (.block (if 0 < n then (Stmt.pruneAll yes).block else (Stmt.pruneAll no).block)) ent
      { s with world := w } s') :
    Runs rt (.block (Stmt.prune (.branch c yes no)).block) ent s s' := by
  simp only [Stmt.prune]
  split
  · rename_i m hm
    obtain ⟨rfl, rfl⟩ := Expr.gives_of_constant? hm h
    exact hb
  · split
    · rename_i hempty
      simp only [Bool.and_eq_true, List.isEmpty_iff] at hempty
      obtain ⟨⟨rfl, rfl⟩, hp⟩ := hempty
      rw [h.world_eq hp, ite_self] at hb
      exact hb
    · by_cases hn : 0 < n
      · rw [if_pos hn] at hb
        exact .single (.yes h hn hb)
      · rw [if_neg hn] at hb
        exact .single (.no h hn hb)

/-- **Pruning keeps every run that ends.** -/
theorem prune_runs {j : Job} {s s' : Store} (h : Runs rt j ent s s') : Runs rt j.prune ent s s' := by
  induction h with
  | eval h => exact .single (.eval h)
  | declare => exact .single .declare
  | init h => exact .single (.init h)
  | assign h ht => exact .single (.assign h ht)
  | yes h hn _ ih => exact prune_branch h (by rw [if_pos hn]; exact ih)
  | no h hn _ ih => exact prune_branch h (by rw [if_neg hn]; exact ih)
  | done hs h hn ih =>
    simp only [Job.prune, Stmt.prune] at ih ⊢
    split
    · -- a loop that is dropped has no setup, and its test changes nothing
      rename_i hfails
      simp only [Bool.and_eq_true, List.isEmpty_iff] at hfails
      obtain ⟨rfl, hf⟩ := hfails
      cases hs
      obtain ⟨-, rfl⟩ := Expr.not_pos_of_fails hf h
      exact .nil
    · exact .single (.done ih h hn)
  | again _ h hn _ _ ih₁ ih₂ ih₃ =>
    simp only [Job.prune, Stmt.prune] at ih₁ ih₂ ih₃ ⊢
    split
    · rename_i hfails
      simp only [Bool.and_eq_true] at hfails
      exact absurd hn (Expr.not_pos_of_fails hfails.2 h).1
    · rename_i hfails
      rw [if_neg hfails] at ih₃
      cases ih₃ with
      | cons hloop hnil => cases hnil; exact .single (.again ih₁ h hn ih₂ hloop)
  | each _ ih => exact .single (.each ih)
  | comment => exact .single .comment
  | nil => exact .nil
  | cons _ _ ih₁ ih₂ => exact ih₁.append ih₂
  | noEntry => exact .noEntry
  | nextEntry _ _ ih₁ ih₂ => exact .nextEntry ih₁ ih₂

/-! ## Dead stores -/

/-- What can be run, without stores to dead variables. -/
def Job.sweep (dead : VarId → Bool) : Job → Job
  | stmt t => block (Stmt.sweep dead t).block
  | block b => block (Stmt.sweepAll dead b).block
  | entries es b => entries es (Stmt.sweepAll dead b).block

/-- The variables that what can be run reads. -/
def Job.reads : Job → List VarId
  | stmt t => t.reads
  | block b | entries _ b => Stmt.readsAll b

/-- **Two states that differ at most in dead variables.** -/
structure Store.Agree (dead : VarId → Bool) (s t : Store) : Prop where
  world : t.world = s.world
  locals : ∀ x, dead x = false → t.locals x = s.locals x

namespace Store.Agree

variable {dead : VarId → Bool} {s t : Store} {ρ : Locals} {w : World}

theorem set {x : VarId} {v : Option Value} (h : s.Agree dead t) :
    Store.Agree dead ⟨s.locals.set x v, w⟩ ⟨t.locals.set x v, w⟩ := by
  refine ⟨rfl, fun y hy => ?_⟩
  simp only [Locals.set]
  split
  · rfl
  · exact h.locals y hy

theorem withWorld (h : s.Agree dead t) : Store.Agree dead { s with world := w } { t with world := w } :=
  ⟨rfl, h.locals⟩

/-- A store to a dead variable may be left out. -/
theorem skip {x : VarId} {v : Option Value} (h : s.Agree dead t) (hx : dead x = true) :
    Store.Agree dead ⟨s.locals.set x v, w⟩ { t with world := w } := by
  refine ⟨rfl, fun y hy => ?_⟩
  have hne : y ≠ x := fun heq => by rw [heq, hx] at hy; cases hy
  simp only [Locals.set, if_neg hne]
  exact h.locals y hy

theorem gives {e : Expr} {v : Value} (h : s.Agree dead t) (hlive : ∀ x ∈ e.vars, dead x = false)
    (he : e.Gives rt ent s.locals s.world v w) : e.Gives rt ent t.locals t.world v w := by
  rw [h.world]
  exact he.congr_locals (fun x hx => h.locals x (hlive x hx))

theorem assign? {s' : Store} {v : Value} {g : Target} (h : s.Agree dead t) (hs : s.assign? ent v g = some s') :
    ∃ t', t.assign? ent v g = some t' ∧ Store.Agree dead s' t' := by
  cases g with
  | var x =>
    cases hs
    exact ⟨_, rfl, by rw [h.world]; exact h.set⟩
  | global n =>
    cases hs
    exact ⟨_, rfl, by rw [h.world]; exact h.withWorld⟩
  | entryVar n =>
    obtain ⟨e, rfl, rfl⟩ := Option.map_eq_some_iff.1 hs
    exact ⟨_, rfl, by rw [h.world]; exact h.withWorld⟩

end Store.Agree

section Sweep

variable {dead : VarId → Bool}

/-- A value stored in a variable that is alive reads only variables that are. -/
theorem live_of_storeReads {x : VarId} {e : Expr} (hx : dead x = false)
    (hreads : ∀ y ∈ Stmt.storeReads x e, dead y = false) : ∀ y ∈ e.vars, dead y = false := by
  intro y hy
  by_cases hyx : y = x
  · rw [hyx]; exact hx
  · exact hreads y (Stmt.mem_storeReads.2 ⟨hy, fun _ => hyx⟩)

/-- What remains of a value stored in a dead variable does what evaluating the value did. -/
theorem residue_runs {s t : Store} {x : VarId} {e : Expr} {v : Value} {w : World} (hst : s.Agree dead t)
    (hx : dead x = true) (hreads : ∀ y ∈ Stmt.storeReads x e, dead y = false)
    (h : e.Gives rt ent s.locals s.world v w) :
    ∃ t', Runs rt (.block (Stmt.residue e)) ent t t' ∧ Store.Agree dead ⟨s.locals.set x (some v), w⟩ t' := by
  unfold Stmt.residue
  by_cases hp : e.isPure = true
  · rw [if_pos hp, h.world_eq hp, ← hst.world]
    exact ⟨t, .nil, hst.skip hx⟩
  · rw [if_neg hp]
    have hlive : ∀ y ∈ e.vars, dead y = false := fun y hy =>
      hreads y (Stmt.mem_storeReads.2 ⟨hy, fun hpure => absurd hpure hp⟩)
    exact ⟨_, .single (.eval (hst.gives hlive h)), hst.skip hx⟩

/-- **Sweeping keeps every run that ends**, up to dead variables. -/
theorem sweep_runs {j : Job} {s s' : Store} (h : Runs rt j ent s s') :
    (∀ x ∈ j.reads, dead x = false) → ∀ t, s.Agree dead t →
      ∃ t', Runs rt (j.sweep dead) ent t t' ∧ s'.Agree dead t' := by
  induction h with
  | eval h =>
    intro hlive t hst
    exact ⟨_, .single (.eval (hst.gives hlive h)), hst.withWorld⟩
  | @declare ent s x =>
    intro _ t hst
    simp only [Job.sweep, Stmt.sweep]
    split
    · rename_i hx
      exact ⟨t, .nil, by rw [← hst.world]; exact hst.skip hx⟩
    · exact ⟨_, .single .declare, by rw [hst.world]; exact hst.set⟩
  | @init ent s x e v w h =>
    intro hlive t hst
    simp only [Job.sweep, Stmt.sweep]
    split
    · rename_i hx
      exact residue_runs hst hx hlive h
    · rename_i hx
      exact ⟨_, .single (.init (hst.gives (live_of_storeReads (by simpa using hx) hlive) h)), hst.set⟩
  | @assign ent s s' g e v w h ht =>
    intro hlive t hst
    cases g with
    | var x =>
      simp only [Job.sweep, Stmt.sweep]
      cases ht
      split
      · rename_i hx
        exact residue_runs (s := s) hst hx hlive h
      · rename_i hx
        exact ⟨_, .single (.assign (hst.gives (live_of_storeReads (by simpa using hx) hlive) h) rfl), hst.set⟩
    | global n | entryVar n =>
      obtain ⟨t', ht', hagree⟩ := (hst.withWorld (w := w)).assign? ht
      exact ⟨t', .single (.assign (hst.gives hlive h) ht'), hagree⟩
  | yes h hn _ ih =>
    intro hlive t hst
    simp only [Job.reads, Stmt.reads, List.mem_append] at hlive ih
    obtain ⟨t', ht', hagree⟩ := ih (fun x hx => hlive x (.inl (.inr hx))) _ hst.withWorld
    exact ⟨t', .single (.yes (hst.gives (fun x hx => hlive x (.inl (.inl hx))) h) hn ht'), hagree⟩
  | no h hn _ ih =>
    intro hlive t hst
    simp only [Job.reads, Stmt.reads, List.mem_append] at hlive ih
    obtain ⟨t', ht', hagree⟩ := ih (fun x hx => hlive x (.inr hx)) _ hst.withWorld
    exact ⟨t', .single (.no (hst.gives (fun x hx => hlive x (.inl (.inl hx))) h) hn ht'), hagree⟩
  | done _ h hn ih =>
    intro hlive t hst
    simp only [Job.reads, Stmt.reads, List.mem_append] at hlive ih
    obtain ⟨t₁, ht₁, hagree⟩ := ih (fun x hx => hlive x (.inl (.inl hx))) t hst
    exact ⟨_, .single (.done ht₁ (hagree.gives (fun x hx => hlive x (.inl (.inr hx))) h) hn), hagree.withWorld⟩
  | again _ h hn _ _ ih₁ ih₂ ih₃ =>
    intro hlive t hst
    have hlive' := hlive
    simp only [Job.reads, Stmt.reads, List.mem_append] at hlive' ih₁ ih₂
    obtain ⟨t₁, ht₁, hagree₁⟩ := ih₁ (fun x hx => hlive' x (.inl (.inl hx))) t hst
    obtain ⟨t₂, ht₂, hagree₂⟩ := ih₂ (fun x hx => hlive' x (.inr hx)) _ hagree₁.withWorld
    obtain ⟨t', ht', hagree⟩ := ih₃ hlive t₂ hagree₂
    cases ht' with
    | cons hloop hnil =>
      cases hnil
      have htest := hagree₁.gives (fun x hx => hlive' x (.inl (.inr hx))) h
      exact ⟨t', .single (.again ht₁ htest hn ht₂ hloop), hagree⟩
  | each _ ih =>
    intro hlive t hst
    obtain ⟨t', ht', hagree⟩ := ih hlive t hst
    rw [← hst.world] at ht'
    exact ⟨t', .single (.each ht'), hagree⟩
  | comment => exact fun _ t hst => ⟨t, .single .comment, hst⟩
  | nil => exact fun _ t hst => ⟨t, .nil, hst⟩
  | cons _ _ ih₁ ih₂ =>
    intro hlive t hst
    simp only [Job.reads, Stmt.readsAll, List.mem_append] at hlive ih₁ ih₂
    obtain ⟨t₁, ht₁, hagree₁⟩ := ih₁ (fun x hx => hlive x (.inl hx)) t hst
    obtain ⟨t', ht', hagree⟩ := ih₂ (fun x hx => hlive x (.inr hx)) t₁ hagree₁
    exact ⟨t', ht₁.append ht', hagree⟩
  | noEntry => exact fun _ t hst => ⟨t, .noEntry, hst⟩
  | nextEntry _ _ ih₁ ih₂ =>
    intro hlive t hst
    obtain ⟨t₁, ht₁, hagree₁⟩ := ih₁ hlive t hst
    obtain ⟨t', ht', hagree⟩ := ih₂ hlive t₁ hagree₁
    exact ⟨t', .nextEntry ht₁ ht', hagree⟩

end Sweep

/-! ## Methods -/

theorem Scope.dead_eq_false {s : Scope} {alive : List VarId} {x : VarId} (h : x ∈ alive) : s.dead alive x = false := by
  simp [Scope.dead, h]

namespace Block

variable {scope : Scope} {result : Option Expr} {v : Option Value} {w : World} {s : Store}

/-- One round keeps what a method does: a variable that a round calls dead is read nowhere, the result included. -/
theorem round_completes {b : Block} (h : Completes rt b result ent s v w) :
    Completes rt (round scope result b).block result ent s v w := by
  obtain ⟨s', hb, hres⟩ := h
  have halive : ∀ x ∈ Stmt.readsAll (Stmt.pruneAll b).block,
      scope.dead (alive (Stmt.pruneAll b).block result) x = false := fun x hx =>
    Scope.dead_eq_false (List.mem_append_left _ hx)
  obtain ⟨t', ht', hagree⟩ := sweep_runs (prune_runs hb) halive s ⟨rfl, fun _ _ => rfl⟩
  refine ⟨t', ht', ?_⟩
  cases result with
  | none => exact ⟨hres.1, by rw [hres.2, hagree.world]⟩
  | some e =>
    obtain ⟨x, hx, hv⟩ := hres
    have hlive : ∀ y ∈ e.vars, scope.dead (alive (Stmt.pruneAll b).block (some e)) y = false := fun y hy =>
      Scope.dead_eq_false (List.mem_append_right _ hy)
    exact ⟨x, hagree.gives hlive hx, hv⟩

theorem settle_completes {b : Block} (h : Completes rt b result ent s v w) :
    Completes rt (settle scope result b) result ent s v w :=
  settle_keeps (P := fun b => Completes rt b result ent s v w) (fun _ => round_completes) h

end Block

/-- **Reducing a method keeps what it does**: from every state, for every meaning of the calls in it, with the same value
and the same world at its end. -/
theorem Routine.reduce_completes (rt : Runtime) (r : Routine) (ent : Option Entry) (s : Store) (v : Option Value)
    (w : World) (h : r.Completes rt ent s v w) : r.reduce.Completes rt ent s v w := by
  obtain ⟨s', hb, hres⟩ := h
  refine Block.settle_completes ⟨s', fold_runs hb, ?_⟩
  cases hr : r.result with
  | none => rw [hr] at hres; exact hres
  | some e =>
    rw [hr] at hres
    obtain ⟨x, hx, hv⟩ := hres
    exact ⟨x, Expr.fold_gives hx, hv⟩

/-- A runtime in which every call for its effect gives 7 and is written down, and other calls give nothing. -/
def Runtime.recording : Runtime where
  field _ _ := .missing
  text _ := none
  entryText _ _ := none
  method _ _ := none
  entryMethod _ _ _ := none
  effect c vs w v w' := v = .int 7 ∧ w' = { w with output := w.output ++ [(c.method, vs)] }

/-- A world in which every variable holds an integer, and nothing has been written. -/
def World.filled (n : Int32) : World :=
  ⟨fun _ => .int n, fun _ _ => .int n, [], []⟩

/-- A loop that counts a global down and a local up; nobody reads the local, nor the local a call is stored in. -/
def Routine.countdown : Routine where
  name := "count.down"
  method := "countDown"
  params := []
  usesEntry := false
  body := [
    .declare 0 (some (.int 0)),
    .declare 1 (some (.call (.style "tick") [.int 2] .int true)),
    .loop [] (.compare .gt (.global "g" .int) (.int 0)) [
      .assign (.var 0) (.binary .add (.var 0) (.int 1)),
      .assign (.global "g") (.binary .sub (.global "g" .int) (.int 1))]]
  result := some (.binary .add (.int 2147483647) (.int 1))
  scope := ⟨#[⟨.local, .int, none⟩, ⟨.local, .int, none⟩]⟩

/-- The world after it, if the global was 1. -/
def World.counted : World :=
  { (World.filled 1).setGlobal "g" (.int 0) with output := [("tick", [.int 2])] }

theorem Routine.reduce_completes_countdown :
    countdown.Completes .recording none ⟨fun _ => none, .filled 1⟩ (some (.int (-2147483648))) .counted ∧
    countdown.reduce.Completes .recording none ⟨fun _ => none, .filled 1⟩ (some (.int (-2147483648))) .counted := by
  have h : countdown.Completes .recording none ⟨fun _ => none, .filled 1⟩ (some (.int (-2147483648))) .counted := by
    have htick : (Expr.call (.style "tick") [.int 2] .int true).Gives .recording none
        (Locals.set (fun _ => none) 0 (some (.int 0))) (.filled 1) (.int 7)
        { World.filled 1 with output := [("tick", [.int 2])] } :=
      ⟨[.int 2], .filled 1, ⟨_, _, [], Expr.gives_int.2 ⟨rfl, rfl⟩, ⟨rfl, rfl⟩, rfl⟩, rfl, rfl⟩
    have htest : ∀ (ρ : Locals) (w : World) (n k : Int32), w.globals "g" = .int n → (if 0 < n then 1 else 0) = k →
        (Expr.compare .gt (.global "g" .int) (.int 0)).Gives .recording none ρ w (.int k) w := by
      rintro ρ w n k hn rfl
      exact ⟨.int n, w, .int 0, ⟨by rw [← hn]; rfl, rfl⟩, Expr.gives_int.2 ⟨rfl, rfl⟩, by simp [CompareOp.apply, Value.ofBool]⟩
    have hlast : ∀ ρ : Locals, Runs .recording (.stmt (.loop [] (.compare .gt (.global "g" .int) (.int 0)) [
        .assign (.var 0) (.binary .add (.var 0) (.int 1)),
        .assign (.global "g") (.binary .sub (.global "g" .int) (.int 1))])) none ⟨ρ, .counted⟩ ⟨ρ, .counted⟩ :=
      fun ρ => .done .nil (htest ρ .counted 0 0 rfl (by decide)) (by decide)
    let start : Locals := Locals.set (Locals.set (fun _ => none) 0 (some (.int 0))) 1 (some (.int 7))
    refine ⟨⟨start.set 0 (some (.int 1)), .counted⟩, .cons (.init (Expr.gives_int.2 ⟨rfl, rfl⟩)) (.cons (.init htick)
      (.single (.again .nil (htest start _ 1 1 rfl (by decide)) (by decide) ?_ (hlast _)))), ?_⟩
    · exact .cons (.assign ⟨.int 0, _, .int 1, ⟨rfl, rfl⟩, Expr.gives_int.2 ⟨rfl, rfl⟩, rfl⟩ rfl)
        (.single (.assign ⟨.int 1, _, .int 1, ⟨rfl, rfl⟩, Expr.gives_int.2 ⟨rfl, rfl⟩, rfl⟩ rfl))
    · exact ⟨_, ⟨_, _, _, Expr.gives_int.2 ⟨rfl, rfl⟩, Expr.gives_int.2 ⟨rfl, rfl⟩, rfl⟩, rfl⟩
  exact ⟨h, reduce_completes _ _ _ _ _ _ h⟩

end Bibstyle
