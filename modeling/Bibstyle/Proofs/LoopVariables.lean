import Mathlib.Data.List.Nodup
import Bibstyle.Proofs.Drawing
import Bibstyle.Proofs.Passages
import Bibstyle.Proofs.Storing
/-!
# LoopVariables — a loop gives its variables their new values at once

Before a loop every slot of the stack is stored in a variable of its own.  At the end of the body each variable takes what its
slot is worth there.  A new value may read any of the old ones, so more than one go through temporaries: all are read before
the first is set.  The condition sets none of the variables, for what it adds sets only variables that are new to it.
-/
namespace Bibstyle

theorem Expr.Lies.waits {c : Custom} {n : Nat} {e : Expr} (h : e.Lies c n) : e.Waits n :=
  ⟨isPure_of_proper h.nodes h.calm, lt_of_mem_vars h.nodes⟩

section Moves

variable {rt : Runtime} {ent : Option Entry} {s s' : Store}

theorem SameWorth.moved {x y : VarId} (h : s'.locals y = s.locals x) : SameWorth rt ent s s' (.var x) (.var y) := by
  refine ⟨fun v => ?_, fun p => ?_⟩
  · change s'.locals y = some v ∧ _ ↔ s.locals x = some v ∧ _
    rw [h]
    exact ⟨fun hv => ⟨hv.1, rfl⟩, fun hv => ⟨hv.1, rfl⟩⟩
  · cases p <;> (constructor <;> intro hp <;> cases hp)

/-- Variables set from others. -/
def moves (pairs : List (VarId × VarId)) : Block :=
  pairs.map (fun q => .assign (.var q.1) (.var q.2))

/-- **Moves read what was there before the first of them**, if no variable is set that one reads. -/
theorem moves_keep {pairs : List (VarId × VarId)} (hnodup : (pairs.map (·.1)).Nodup)
    (hapart : ∀ q ∈ pairs, q.2 ∉ pairs.map (·.1)) (h : Runs rt (.block (moves pairs)) ent s s') :
    s'.world = s.world ∧ (∀ q ∈ pairs, s'.locals q.1 = s.locals q.2) ∧ ∀ x, x ∉ pairs.map (·.1) → s'.locals x = s.locals x := by
  induction pairs generalizing s with
  | nil =>
    cases h
    exact ⟨rfl, List.forall_mem_nil _, fun _ _ => rfl⟩
  | cons q pairs ih =>
    rw [List.map_cons, List.nodup_cons] at hnodup
    rw [List.map_cons] at hapart
    cases h with
    | @cons _ _ s₁ _ _ _ h hs =>
      obtain ⟨v, w, ⟨hv, rfl⟩, rfl⟩ := (Stmt.Puts.assign (x := q.1)).runs_iff.1 h
      have hrest : ∀ p ∈ pairs, p.2 ∉ pairs.map (·.1) := fun p hp hmem =>
        hapart p (List.mem_cons_of_mem _ hp) (List.mem_cons_of_mem _ hmem)
      obtain ⟨hworld, hset, hkept⟩ := ih hnodup.2 hrest hs
      refine ⟨hworld, List.forall_mem_cons.2 ⟨?_, fun p hp => ?_⟩, fun x hx => ?_⟩
      · rw [hkept q.1 hnodup.1]
        exact (Locals.set_self _ _ _).trans hv.symm
      · rw [hset p hp]
        exact Locals.set_ne (fun heq => hapart p (List.mem_cons_of_mem _ hp) (by rw [heq]; exact List.mem_cons_self))
      · rw [List.map_cons, List.mem_cons, not_or] at hx
        rw [hkept x hx.2]
        exact Locals.set_ne hx.1

theorem exists_moves {pairs : List (VarId × VarId)} (hapart : ∀ q ∈ pairs, q.2 ∉ pairs.map (·.1))
    (hworth : ∀ q ∈ pairs, ∃ v, s.locals q.2 = some v) : ∃ s', Runs rt (.block (moves pairs)) ent s s' := by
  induction pairs generalizing s with
  | nil => exact ⟨s, .nil⟩
  | cons q pairs ih =>
    rw [List.map_cons] at hapart
    obtain ⟨v, hv⟩ := hworth q List.mem_cons_self
    have hfirst : Runs rt (.stmt (.assign (.var q.1) (.var q.2))) ent s ⟨s.locals.set q.1 (some v), s.world⟩ :=
      Stmt.Puts.assign.runs_iff.2 ⟨v, s.world, ⟨hv, rfl⟩, rfl⟩
    obtain ⟨s', hs'⟩ := ih (s := ⟨s.locals.set q.1 (some v), s.world⟩)
      (fun p hp hmem => hapart p (List.mem_cons_of_mem _ hp) (List.mem_cons_of_mem _ hmem)) (fun p hp => by
        obtain ⟨u, hu⟩ := hworth p (List.mem_cons_of_mem _ hp)
        refine ⟨u, (Locals.set_ne (fun heq => ?_)).trans hu⟩
        exact hapart p (List.mem_cons_of_mem _ hp) (by rw [heq]; exact List.mem_cons_self))
    exact ⟨s', .cons hfirst hs'⟩

end Moves

namespace Eval

/-! ## Updates -/

/-- **The slots that a body changed**, the lowest first. -/
theorem changedSlots_ok {vs : List VarId} {es : List Expr} {m m' : Machine} {changed : List (VarId × Expr)}
    (h : changedSlots vs es m = .ok changed m') :
    changed = ((vs.zip es).filter (fun q => q.2 ≠ .var q.1)).reverse ∧ m'.frame = m.frame ∧
      m.scope.vars.size ≤ m'.scope.vars.size := by
  induction vs generalizing es changed m' with
  | nil =>
    obtain ⟨rfl, rfl⟩ := pure_ok.1 h
    exact ⟨rfl, rfl, Nat.le_refl _⟩
  | cons v vs ih =>
    cases es with
    | nil =>
      obtain ⟨rfl, rfl⟩ := pure_ok.1 h
      exact ⟨rfl, rfl, Nat.le_refl _⟩
    | cons e es =>
      unfold changedSlots at h
      obtain ⟨below, m₁, hbelow, hrest⟩ := bind_ok.1 h
      obtain ⟨rfl, hframe, hsize⟩ := ih hbelow
      rw [List.zip_cons_cons]
      split at hrest
      · rename_i hsame
        obtain ⟨rfl, rfl⟩ := pure_ok.1 hrest
        exact ⟨by rw [List.filter_cons_of_neg (by simpa using hsame)], hframe, hsize⟩
      · rename_i hchanged
        obtain ⟨t, m₂, hty, htyped⟩ := bind_ok.1 hrest
        obtain ⟨-, rfl⟩ := tyOf_ok.1 hty
        obtain ⟨e', m₃, hcheck, hreturn⟩ := bind_ok.1 htyped
        obtain ⟨rfl, rfl⟩ := pure_ok.1 hreturn
        obtain ⟨⟨rfl, -⟩, hframe₃, hgrows⟩ := (check_at (f := m₂.frame) (s := m₂.scope) e t _).ok ⟨rfl, .refl _⟩ hcheck
        refine ⟨?_, hframe₃.trans hframe, Nat.le_trans hsize ?_⟩
        · rw [List.filter_cons_of_pos (by simpa using hchanged), List.reverse_cons]
        · exact hgrows.size_le

/-- The moves from temporaries. -/
def fills (changed : List (VarId × Expr)) (temps : List VarId) : List (VarId × VarId) :=
  (changed.zip temps).map (fun r => (r.1.1, r.2))

theorem map_fst_fills {changed : List (VarId × Expr)} {temps : List VarId} (h : temps.length = changed.length) :
    (fills changed temps).map (·.1) = changed.map (·.1) := by
  have hzip : (changed.zip temps).map (·.1) = changed := List.map_fst_zip (Nat.le_of_eq h.symm)
  rw [fills, List.map_map]
  exact (List.map_map (l := changed.zip temps) (f := (·.1)) (g := (·.1))).symm.trans (by rw [hzip])

/-- **Temporaries store the new values**, the lowest first, and the moves take them from there. -/
theorem temporaries_ok {changed : List (VarId × Expr)} {m m' : Machine} {r : Block × Block}
    (h : temporaries changed m = .ok r m') :
    ∃ temps : List VarId, temps.length = changed.length ∧ (∀ t ∈ temps, m.scope.vars.size ≤ t ∧ t < m'.scope.vars.size) ∧
      Stored m.scope.vars.size (changed.map (·.2)).reverse r.1 (temps.map .var).reverse m'.scope.vars.size ∧
      r.2 = moves (fills changed temps) := by
  induction changed generalizing m m' r with
  | nil =>
    obtain ⟨rfl, rfl⟩ := pure_ok.1 h
    exact ⟨[], rfl, List.forall_mem_nil _, .nil, rfl⟩
  | cons q rest ih =>
    unfold temporaries at h
    obtain ⟨t, m₁, hty, hnew⟩ := bind_ok.1 h
    obtain ⟨-, rfl⟩ := tyOf_ok.1 hty
    obtain ⟨u, m₂, hu, hlater⟩ := bind_ok.1 hnew
    obtain ⟨rfl, hsize, -⟩ := newLocal_ok hu
    obtain ⟨r', m₃, hrest, hreturn⟩ := bind_ok.1 hlater
    obtain ⟨rfl, rfl⟩ := pure_ok.1 hreturn
    obtain ⟨temps, hlength, hbounds, hstored, hmoves⟩ := ih hrest
    rw [hsize] at hbounds hstored
    have hle := hstored.le
    refine ⟨m₁.scope.vars.size :: temps, congrArg (· + 1) hlength, ?_, ?_, ?_⟩
    · refine List.forall_mem_cons.2 ⟨⟨Nat.le_refl _, Nat.lt_of_succ_le hle⟩, fun t ht => ?_⟩
      exact ⟨Nat.le_of_succ_le (hbounds t ht).1, (hbounds t ht).2⟩
    · rw [List.map_cons, List.map_cons, List.reverse_cons, List.reverse_cons]
      exact (Stored.store .nil .declare).append hstored
    · rw [hmoves]
      rfl

section Updates

variable {rt : Runtime} {ent : Option Entry} {s s' : Store} {changed : List (VarId × Expr)}

section Fills

variable {n k : Nat} {temps : List VarId} {stores : Block} (hlength : temps.length = changed.length)
  (hbounds : ∀ t ∈ temps, n ≤ t ∧ t < k) (hkeys : ∀ q ∈ changed, q.1 < n)

include hlength hbounds hkeys

/-- No temporary is moved to. -/
theorem fills_apart : ∀ r ∈ fills changed temps, r.2 ∉ (fills changed temps).map (·.1) := by
  intro r hr hmem
  obtain ⟨r', hr', rfl⟩ := List.mem_map.1 hr
  rw [map_fst_fills hlength] at hmem
  obtain ⟨q, hq, heq⟩ := List.mem_map.1 hmem
  have hnew : n ≤ q.1 := by
    rw [heq]
    exact (hbounds r'.2 (List.of_mem_zip hr').2).1
  exact absurd (hkeys q hq) (Nat.not_lt.2 hnew)

variable (hstored : Stored n (changed.map (·.2)).reverse stores (temps.map .var).reverse k) (hes : ∀ q ∈ changed, q.2.Waits n)

include hstored hes

omit hlength hbounds hkeys in
theorem temporaries_keep (hruns : Runs rt (.block stores) ent s s') :
    s'.world = s.world ∧ (∀ x, x < n ∨ k ≤ x → s'.locals x = s.locals x) ∧
      ∀ r ∈ changed.zip temps, SameWorth rt ent s s' r.1.2 (.var r.2) := by
  have hwaits : ∀ e ∈ (changed.map (·.2)).reverse, e.Waits n := by
    intro e he
    obtain ⟨q, hq, rfl⟩ := List.mem_map.1 (List.mem_reverse.1 he)
    exact hes q hq
  obtain ⟨hworld, hlocals, hsame⟩ := hstored.keeps hwaits hruns
  rw [List.forall₂_reverse_iff, List.forall₂_map_left_iff, List.forall₂_map_right_iff] at hsame
  exact ⟨hworld, hlocals, fun r hr => (List.forall₂_iff_zip.1 hsame).2 hr⟩

/-- **What is stored in temporaries and moved from there arrives**, all of it as it was before the first move. -/
theorem fills_keep (hnodup : (changed.map (·.1)).Nodup)
    (hruns : Runs rt (.block (stores ++ moves (fills changed temps))) ent s s') :
    s'.world = s.world ∧ (∀ q ∈ changed, SameWorth rt ent s s' q.2 (.var q.1)) ∧
      ∀ x, x ∉ changed.map (·.1) → x < n ∨ k ≤ x → s'.locals x = s.locals x := by
  obtain ⟨s₁, hstores, hmoves⟩ := hruns.of_append
  obtain ⟨hworld, hlocals, hsame⟩ := temporaries_keep hstored hes hstores
  have hfst := map_fst_fills hlength
  obtain ⟨hworld', hmoved, hkept⟩ := moves_keep (by rw [hfst]; exact hnodup) (fills_apart hlength hbounds hkeys) hmoves
  rw [hfst] at hkept
  refine ⟨hworld'.trans hworld, fun q hq => ?_, fun x hx hbound => (hkept x hx).trans (hlocals x hbound)⟩
  obtain ⟨r, hr, rfl⟩ : ∃ r ∈ changed.zip temps, r.1 = q := by
    rw [← List.map_fst_zip (Nat.le_of_eq hlength.symm)] at hq
    exact List.mem_map.1 hq
  exact (hsame r hr).trans (.moved (hmoved _ (List.mem_map_of_mem hr)))

theorem exists_fills (hworth : ∀ q ∈ changed, ∃ v, q.2.Gives rt ent s.locals s.world v s.world) :
    ∃ s', Runs rt (.block (stores ++ moves (fills changed temps))) ent s s' := by
  have hslots : ∀ e ∈ (changed.map (·.2)).reverse, e.Waits n ∧ ∃ v, e.Gives rt ent s.locals s.world v s.world := by
    intro e he
    obtain ⟨q, hq, rfl⟩ := List.mem_map.1 (List.mem_reverse.1 he)
    exact ⟨hes q hq, hworth q hq⟩
  obtain ⟨s₁, hstores⟩ := hstored.exists_run (fun e he => (hslots e he).1)
    (fun q hq _ => (hslots q.1 (List.of_mem_zip hq).1).2)
  obtain ⟨-, -, hsame⟩ := temporaries_keep hstored hes hstores
  have hfilled : ∀ p ∈ fills changed temps, ∃ v, s₁.locals p.2 = some v := by
    intro p hp
    obtain ⟨r, hr, rfl⟩ := List.mem_map.1 hp
    obtain ⟨v, hv⟩ := hworth r.1 (List.of_mem_zip hr).1
    exact ⟨v, (((hsame r hr).value v).2 hv).1⟩
  obtain ⟨s', hmoves⟩ := exists_moves (fills_apart hlength hbounds hkeys) hfilled
  exact ⟨s', hstores.append hmoves⟩

end Fills

/-- **Updates give every changed slot's variable what the slot is worth**, and set nothing else but temporaries. -/
theorem updates_keep {m m' : Machine} {code : Block} (h : updates changed m = .ok code m') (hnodup : (changed.map (·.1)).Nodup)
    (hkeys : ∀ q ∈ changed, q.1 < m.scope.vars.size) (hes : ∀ q ∈ changed, q.2.Waits m.scope.vars.size)
    (hruns : Runs rt (.block code) ent s s') :
    s'.world = s.world ∧ (∀ q ∈ changed, SameWorth rt ent s s' q.2 (.var q.1)) ∧
      ∀ x, x ∉ changed.map (·.1) → x < m.scope.vars.size ∨ m'.scope.vars.size ≤ x → s'.locals x = s.locals x := by
  unfold updates at h
  split at h
  · rename_i v e
    obtain ⟨rfl, rfl⟩ := pure_ok.1 h
    have he := hes _ List.mem_cons_self
    obtain ⟨u, w, hu, rfl⟩ := (Stmt.Puts.assign (x := v)).runs_iff.1 hruns.of_single
    obtain rfl := hu.world_eq he.pure
    refine ⟨rfl, List.forall_mem_singleton.2 (.stored he.pure hu (Locals.set_self _ _ _)), fun x hx _ => ?_⟩
    exact Locals.set_ne (fun heq => hx (by rw [heq]; exact List.mem_cons_self))
  · obtain ⟨⟨stores, last⟩, m₁, htemps, hreturn⟩ := bind_ok.1 h
    obtain ⟨rfl, rfl⟩ := pure_ok.1 hreturn
    obtain ⟨temps, hlength, hbounds, hstored, hlast⟩ := temporaries_ok htemps
    dsimp only at hlast
    rw [hlast] at hruns
    exact fills_keep hlength hbounds hkeys hstored hes hnodup hruns

/-- Updates run to their end if every changed slot is worth something. -/
theorem exists_updates {m m' : Machine} {code : Block} (h : updates changed m = .ok code m')
    (hkeys : ∀ q ∈ changed, q.1 < m.scope.vars.size) (hes : ∀ q ∈ changed, q.2.Waits m.scope.vars.size)
    (hworth : ∀ q ∈ changed, ∃ v, q.2.Gives rt ent s.locals s.world v s.world) : ∃ s', Runs rt (.block code) ent s s' := by
  unfold updates at h
  split at h
  · rename_i v e
    obtain ⟨rfl, rfl⟩ := pure_ok.1 h
    obtain ⟨u, hu⟩ := hworth _ List.mem_cons_self
    exact ⟨_, .single (Stmt.Puts.assign.runs_iff.2 ⟨u, s.world, hu, rfl⟩)⟩
  · obtain ⟨⟨stores, last⟩, m₁, htemps, hreturn⟩ := bind_ok.1 h
    obtain ⟨rfl, rfl⟩ := pure_ok.1 hreturn
    obtain ⟨temps, hlength, hbounds, hstored, hlast⟩ := temporaries_ok htemps
    dsimp only at hlast
    rw [hlast]
    exact exists_fills hlength hbounds hkeys hstored hes hworth

end Updates

/-! ## Loops -/

theorem popProcedure_ok {p : String} {q : Procedure} {m m' : Machine} (h : popProcedure p m = .ok q m') :
    ∃ rest, m.frame.stack = q.toExpr :: rest ∧ m' = { m with frame := { m.frame with stack := rest } } := by
  unfold popProcedure at h
  obtain ⟨e, m₁, hpop, hrest⟩ := bind_ok.1 h
  cases hstack : m.frame.stack with
  | nil =>
    -- what is drawn from the caller is a value
    rw [pop, popAs_nil hstack] at hpop
    obtain ⟨⟩ := hpop
    exact absurd hrest (by rintro ⟨⟩)
  | cons top rest =>
    rw [pop, popAs_cons hstack] at hpop
    obtain ⟨⟩ := hpop
    split at hrest
    · obtain ⟨rfl, rfl⟩ := pure_ok.1 hrest
      exact ⟨rest, rfl, rfl⟩
    · obtain ⟨rfl, rfl⟩ := pure_ok.1 hrest
      exact ⟨rest, rfl, rfl⟩
    · exact absurd hrest (by rintro ⟨⟩)

/-- **All slots are stored**, each in a variable of its own. -/
theorem spillAll_stored {p : String} {vars : List VarId} {m m' : Machine} (h : spillAll p m = .ok vars m') :
    ∃ b, Stored m.scope.vars.size m.frame.stack b (vars.map .var) m'.scope.vars.size ∧
      m'.frame = { m.frame with stack := vars.map .var, code := m.frame.code ++ b } ∧ vars.Nodup := by
  obtain ⟨hstack, hnodup, -⟩ := (spillAll_fresh (s := m.scope) p).ok (.refl _) h
  unfold spillAll at h
  obtain ⟨m₀, m₁, hget, hrest⟩ := bind_ok.1 h
  obtain ⟨⟩ := hget
  obtain ⟨slots, m₂, hslots, hset⟩ := bind_ok.1 hrest
  obtain ⟨_, m₃, hdone, hreturn⟩ := bind_ok.1 hset
  obtain ⟨⟩ := hdone
  obtain ⟨b, hstored, hframe, -⟩ := spillSlots_stored hslots
  split at hreturn
  · rename_i hempty
    obtain ⟨rfl, rfl⟩ := pure_ok.1 hreturn
    have hall := take_append_values m.frame.stack
    rw [List.isEmpty_iff] at hempty
    rw [hempty, List.nil_append] at hall hstack
    rw [hall] at hstored
    have hslots' : slots = _ := hstack
    rw [← hslots']
    exact ⟨b, hstored, by simp only [hframe, hempty, List.nil_append], hnodup⟩
  · exact absurd hreturn throw_ok

/-- What `while$` takes: two procedures, and every slot below them. -/
theorem loopStart_ok {body condition : Procedure} {vars : List VarId} {m m' : Machine}
    (h : loopStart m = .ok (body, condition, vars) m') :
    ∃ slots b, m.frame.stack = body.toExpr :: condition.toExpr :: slots ∧
      Stored m.scope.vars.size slots b (vars.map .var) m'.scope.vars.size ∧
      m'.frame = { m.frame with stack := vars.map .var, code := m.frame.code ++ b } ∧ vars.Nodup := by
  unfold loopStart at h
  obtain ⟨body', m₁, hbody, hrest⟩ := bind_ok.1 h
  obtain ⟨condition', m₂, hcondition, hspilling⟩ := bind_ok.1 hrest
  obtain ⟨vars', m₃, hspill, hreturn⟩ := bind_ok.1 hspilling
  obtain ⟨⟨⟩, rfl⟩ := pure_ok.1 hreturn
  obtain ⟨rest, hstack, rfl⟩ := popProcedure_ok hbody
  obtain ⟨slots, hslots, rfl⟩ := popProcedure_ok hcondition
  obtain ⟨b, hstored, hframe, hnodup⟩ := spillAll_stored hspill
  dsimp only at hslots
  exact ⟨slots, b, by rw [hstack, hslots], hstored, hframe, hnodup⟩

/-- The body of a loop is what its procedure adds, and the updates after it. -/
theorem loopBody_ok {x : Eval Unit} {vars : List VarId} {m m' : Machine} {code : Block} (h : loopBody x vars m = .ok code m') :
    ∃ f m₁ changed m₂ update, inNested x m = .ok f m₁ ∧ f.stack.length = vars.length ∧
      changedSlots vars f.stack m₁ = .ok changed m₂ ∧ updates changed m₂ = .ok update m' ∧ code = f.code ++ update := by
  unfold loopBody at h
  obtain ⟨f, m₁, hf, hrest⟩ := bind_ok.1 h
  split at hrest
  · exact absurd hrest throw_ok
  split at hrest
  · rename_i hlength
    obtain ⟨changed, m₂, hchanged, hupdating⟩ := bind_ok.1 hrest
    obtain ⟨update, m₃, hupdate, hreturn⟩ := bind_ok.1 hupdating
    obtain ⟨rfl, rfl⟩ := pure_ok.1 hreturn
    exact ⟨f, m₁, changed, m₂, update, hf, hlength, hchanged, hupdate, rfl⟩
  · exact absurd hrest throw_ok

section Simultaneous

variable {vars : List VarId} {f : Frame} {m m₁ m' : Machine} {changed : List (VarId × Expr)} {update : Block}
  (hnodup : vars.Nodup) (hvars : ∀ v ∈ vars, v < m.scope.vars.size) (hstack : ∀ e ∈ f.stack, e.Waits m.scope.vars.size)
  (hlength : f.stack.length = vars.length) (hchanged : changedSlots vars f.stack m = .ok changed m₁)
  (hupdate : updates changed m₁ = .ok update m')

include hvars hstack hchanged in
/-- What the body changed can be stored. -/
theorem changed_waits : ∀ q ∈ changed, q.1 < m₁.scope.vars.size ∧ q.2.Waits m₁.scope.vars.size := by
  obtain ⟨rfl, -, hsize⟩ := changedSlots_ok hchanged
  intro q hq
  have hmem := List.of_mem_zip (List.mem_filter.1 (List.mem_reverse.1 hq)).1
  exact ⟨Nat.lt_of_lt_of_le (hvars _ hmem.1) hsize, (hstack _ hmem.2).mono hsize⟩

include hnodup hvars hstack hlength hchanged hupdate in
/-- **All loop variables take their new values at once.** -/
theorem updates_simultaneous {rt : Runtime} {ent : Option Entry} {s s' : Store} (hruns : Runs rt (.block update) ent s s') :
    s'.world = s.world ∧
      (∀ x, x ∉ vars → x < m.scope.vars.size ∨ m'.scope.vars.size ≤ x → s'.locals x = s.locals x) ∧
      List.Forall₂ (SameWorth rt ent s s') f.stack (vars.map .var) := by
  have hwaits := changed_waits hvars hstack hchanged
  obtain ⟨rfl, -, hsize⟩ := changedSlots_ok hchanged
  have hzip : (vars.zip f.stack).map (·.1) = vars := List.map_fst_zip (Nat.le_of_eq hlength.symm)
  have hkeys : (((vars.zip f.stack).filter (fun q => q.2 ≠ .var q.1)).map (·.1)).Nodup := by
    refine List.Nodup.sublist (List.Sublist.map _ List.filter_sublist) ?_
    rw [hzip]
    exact hnodup
  obtain ⟨hworld, hset, hkept⟩ := updates_keep hupdate (by rw [List.map_reverse]; exact List.nodup_reverse.2 hkeys)
    (fun q hq => (hwaits q hq).1) (fun q hq => (hwaits q hq).2) hruns
  refine ⟨hworld, fun x hx hbound => hkept x (fun hmem => ?_) (hbound.imp_left (Nat.lt_of_lt_of_le · hsize)), ?_⟩
  · obtain ⟨q, hq, rfl⟩ := List.mem_map.1 hmem
    exact hx (List.of_mem_zip (List.mem_filter.1 (List.mem_reverse.1 hq)).1).1
  · have hrows : List.Forall₂ (fun v e => SameWorth rt ent s s' e (.var v)) vars f.stack := by
      refine List.forall₂_iff_zip.2 ⟨hlength.symm, fun {v e} hmem => ?_⟩
      by_cases hsame : e = .var v
      · -- the slot reads its own variable, which no update sets
        subst hsame
        refine .moved (hkept v (fun hrow => ?_) (.inl (Nat.lt_of_lt_of_le (hvars v (List.of_mem_zip hmem).1) hsize)))
        obtain ⟨q, hq, hkey⟩ := List.mem_map.1 hrow
        obtain ⟨hq, hne⟩ := List.mem_filter.1 (List.mem_reverse.1 hq)
        have heq := List.inj_on_of_nodup_map (by rw [hzip]; exact hnodup) hq hmem hkey
        rw [heq] at hne
        simp at hne
      · exact hset (v, e) (List.mem_reverse.2 (List.mem_filter.2 ⟨hmem, by simpa using hsame⟩))
    exact List.forall₂_map_right_iff.2 hrows.flip

end Simultaneous

/-- **How `while$` is compiled**, from a machine `m` to `m'`.  Its start leads to `m₁` and its test to `m₂`; the body leads to `m₃`
and leaves the frame `f`.  There is one variable for each slot that was on the stack below the two procedures, and the stack
is these variables afterwards.  The stores before the loop, the code of the condition and that of the body, and the updates
after the latter are said by what every run of them does. -/
structure Cycle (run : Procedure → Eval Unit) (m m₁ m₂ m₃ m' : Machine) (body condition : Procedure) (slots : List Expr)
    (vars : List VarId) (first setup : Block) (value : Expr) (f : Frame) (update : Block) : Prop where
  start : loopStart m = .ok (body, condition, vars) m₁
  test : loopTest (run condition) (vars.map .var) m₁ = .ok (setup, value) m₂
  round : inNested (run body) m₂ = .ok f m₃
  code : m'.frame.code = m.frame.code ++ first ++ [.loop setup value (f.code ++ update)]
  taken : m.frame.stack = body.toExpr :: condition.toExpr :: slots
  stack : m'.frame.stack = vars.map .var
  distinct : vars.Nodup
  fresh : ∀ v ∈ vars, m.scope.vars.size ≤ v
  height : slots.length = vars.length ∧ f.stack.length = vars.length
  /-- Before the loop each variable takes what its slot is worth. -/
  opened : ∀ rt ent s s', Runs rt (.block first) ent s s' → s'.world = s.world ∧
    (∀ x, x ∉ vars → s'.locals x = s.locals x) ∧ List.Forall₂ (SameWorth rt ent s s') slots (vars.map .var)
  /-- Neither the condition nor the body's own code sets a loop variable. -/
  kept : ∀ rt ent s s', Runs rt (.block setup) ent s s' ∨ Runs rt (.block f.code) ent s s' →
    ∀ v ∈ vars, s'.locals v = s.locals v
  /-- The updates give each variable what its slot is worth where the body's own code ends, and change nothing else but variables
  that are new there. -/
  updated : ∀ rt ent s s', Runs rt (.block update) ent s s' → s'.world = s.world ∧
    (∀ x, x ∉ vars → x < m₃.scope.vars.size ∨ m'.scope.vars.size ≤ x → s'.locals x = s.locals x) ∧
    List.Forall₂ (SameWorth rt ent s s') f.stack (vars.map .var)
  /-- They run to their end if each new value is worth something. -/
  updates : ∀ rt ent s, (∀ q ∈ vars.zip f.stack, q.2 ≠ .var q.1 → ∃ v, q.2.Gives rt ent s.locals s.world v s.world) →
    ∃ s', Runs rt (.block update) ent s s'

/-- **A loop gives its variables their new values at once.**  Wherever the run of a body passes that compiles `while$`, the loop has
one variable of its own for each slot, in the order of the slots, and these are the stack afterwards.  The updates at the end
of its body set each of them to what its slot is worth where the body's own code ends, whichever old values the slots read, and
the condition leaves them all alone. -/
theorem loop_simultaneous {d : Dictionary} {depth k : Nat} {p : Procedure} {linkage : Linkage} {log : Array Event}
    {fs : List Frame} {m m' : Machine} (hm : Passes d depth p (.start linkage log) fs m)
    (h : loop (procedure d k) m = .ok () m') :
    ∃ m₁ m₂ m₃ body condition slots vars first setup value f update,
      Cycle (procedure d k) m m₁ m₂ m₃ m' body condition slots vars first setup value f update := by
  have hproper : m.Proper .any := hm.frames_proper m.frame List.mem_cons_self
  have hrun : ∀ n q, Custom.any.procedure q → Proper .any n (procedure d k q) (fun _ _ => True) :=
    fun n q _ => proper_procedure Custom.lawful_any d k n (fun t _ => Custom.admits_any t)
  have hspares : ∀ n q, Spares n (procedure d k q) (fun _ => True) := fun n q => spares_procedure d k q
  rw [loop_eq] at h
  obtain ⟨⟨body, condition, vars⟩, m₁, hstart, hrest⟩ := bind_ok.1 h
  obtain ⟨⟨setup, value⟩, m₂, htest, hrest⟩ := bind_ok.1 hrest
  obtain ⟨code, m₄, hbody, hemit⟩ := bind_ok.1 hrest
  obtain ⟨⟩ := hemit
  obtain ⟨slots, first, htaken, hstored, hframe₁, hnodup⟩ := loopStart_ok hstart
  have hframe : m₄.frame = m₁.frame :=
    (loopBody_frame (steady_procedure d k body) hbody).trans (loopTest_frame (steady_procedure d k condition) htest)
  obtain ⟨f, m₃, changed, m₃', update, hround, hlength, hchanged, hupdate, rfl⟩ := loopBody_ok hbody
  -- every machine on the way is proper
  obtain ⟨-, hproper₁, -, -, hvars⟩ := (proper_loopStart Custom.lawful_any).ok hproper hstart
  obtain ⟨hle₂, hproper₂, -⟩ := (proper_loopTest Custom.lawful_any (hrun 0 condition trivial) _).ok hproper₁ htest
  obtain ⟨hle₃, -, hf⟩ := (proper_inNested (hrun 0 body trivial)).ok hproper₂ hround
  have hslots : ∀ e ∈ slots, e.Waits m.scope.vars.size := fun e he =>
    (hproper.stack e (by rw [htaken]; exact List.mem_cons_of_mem _ (List.mem_cons_of_mem _ he))).waits
  have hvars₃ : ∀ v ∈ vars, v < m₃.scope.vars.size := fun v hv => Nat.lt_of_lt_of_le (hvars v hv) (Nat.le_trans hle₂ hle₃)
  have hfstack : ∀ e ∈ f.stack, e.Waits m₃.scope.vars.size := fun e he => (hf.stack e he).waits
  have hsetup := ((spares_loopTest (hspares _ condition) _).ok (Nat.le_refl m₁.scope.vars.size) htest).1
  have hround' := ((spares_inNested (hspares m₁.scope.vars.size body)).ok hle₂ hround).1
  have hheight : slots.length = vars.length := by
    have hlengths := hstored.length_eq
    rwa [List.length_map] at hlengths
  refine ⟨m₁, m₂, m₃, body, condition, slots, vars, first, setup, value, f, update, hstart, htest, hround, ?_, htaken, ?_, hnodup,
    (spares_loopStart.ok (Nat.le_refl _) hstart).1, ⟨hheight, hlength⟩, ?_, ?_, ?_, ?_⟩
  · simp only [hframe, hframe₁]
  · simp only [hframe, hframe₁]
  · exact fun rt ent s s' hruns => hstored.keeps_others hslots hruns
  · intro rt ent s s' hruns v hv
    have hold : ∀ {b : Block}, Block.Spares m₁.scope.vars.size b → v ∉ Block.sets b := fun hb hmem =>
      absurd (hvars v hv) (Nat.not_lt.2 (hb v hmem))
    exact hruns.elim (fun hruns => hruns.block_keeps (hold hsetup)) (fun hruns => hruns.block_keeps (hold hround'))
  · intro rt ent s s' hruns
    exact updates_simultaneous hnodup hvars₃ hfstack hlength hchanged hupdate hruns
  · intro rt ent s hworth
    have hwaits := changed_waits hvars₃ hfstack hchanged
    refine exists_updates hupdate (fun q hq => (hwaits q hq).1) (fun q hq => (hwaits q hq).2) (fun q hq => ?_)
    rw [(changedSlots_ok hchanged).1] at hq
    obtain ⟨hq, hne⟩ := List.mem_filter.1 (List.mem_reverse.1 hq)
    exact hworth q hq (of_decide_eq_true hne)

/-- Two numbers, and a loop that exchanges them as long as the upper one is more than one. -/
def exchange : Group where
  terms :=
    let place : Span := ⟨"", 1, 1, 1, 1⟩
    [.integer 1 place, .integer 2 place,
     .block [.name "duplicate$" place, .integer 1 place, .name ">" place] place, .block [.name "swap$" place] place]
  span := ⟨"", 1, 1, 1, 1⟩

theorem loop_simultaneous_exchange :
    ∃ m m', Passes .initial 2 (.group exchange) (.start .empty #[]) [] m ∧ loop (procedure .initial 1) m = .ok () m' ∧
      m'.frame.stack = [.var 1, .var 0] ∧ ∃ m₁ m₂ m₃ body condition slots vars first setup value f update,
        Cycle (procedure .initial 1) m m₁ m₂ m₃ m' body condition slots vars first setup value f update := by
  have hchecked : (EStateM.run' (procedure .initial 2 (.group exchange) >>= fun _ => get) (.start .empty #[])).any
      (fun m => (EStateM.run' (loop (procedure .initial 1) >>= fun _ => get) m).any
        (fun m' => decide (m'.frame.stack = [.var 1, .var 0]))) = true := by decide +kernel
  obtain ⟨_, m, hbefore, hchecked⟩ := exists_ok_of_check hchecked
  obtain ⟨_, m', hloop, hstack⟩ := exists_ok_of_check hchecked
  exact ⟨m, m', .done hbefore, hloop, of_decide_eq_true hstack, loop_simultaneous (.done hbefore) hloop⟩

end Eval
end Bibstyle
