import Bibstyle.Proofs.Footprint
import Bibstyle.Proofs.Simulation
/-!
# Storing — slots of a stack moved into variables

Three times slots of a stack are stored in new variables and read from there afterwards: where a value on the stack must
outlive a change, at the end of a side of a branch, and where the new values of a loop wait for each other.  The stores
differ in their statements and not in what they do, so what they do is said once (`Stored`): every slot is worth what it
was worth before, and nothing changes but the new variables.
-/
namespace Bibstyle

/-! ## What is worth the same -/

namespace Expr

theorem allPure_iff (es : List Expr) : allPure es = true ↔ ∀ e ∈ es, e.isPure = true := by
  induction es with
  | nil => simp [allPure]
  | cons e es ih => simp [allPure, ih]

variable {rt : Runtime} {ent : Option Entry} {ρ : Locals}

mutual

/-- **A pure expression is worth one value at most.** -/
theorem Gives.unique : ∀ {e : Expr} {w w₁ w₂ : World} {v₁ v₂ : Value}, e.isPure = true → e.Gives rt ent ρ w v₁ w₁ →
    e.Gives rt ent ρ w v₂ w₂ → v₁ = v₂
  | call c args t false, w, w₁, w₂, v₁, v₂, hp, h₁, h₂ => by
    obtain ⟨vs₁, hvs₁, hv₁⟩ := h₁
    obtain ⟨vs₂, hvs₂, hv₂⟩ := h₂
    rw [hvs₁.unique (by simpa [isPure] using hp) hvs₂] at hv₁
    exact Option.some.inj (hv₁.symm.trans hv₂)
  | call c args t true, w, w₁, w₂, v₁, v₂, hp, _, _ => by simp [isPure] at hp
  | binary op l r, w, w₁, w₂, v₁, v₂, hp, h₁, h₂ | compare op l r, w, w₁, w₂, v₁, v₂, hp, h₁, h₂ => by
    simp only [isPure, Bool.and_eq_true] at hp
    obtain ⟨a₁, u₁, b₁, hl₁, hr₁, hv₁⟩ := h₁
    obtain ⟨a₂, u₂, b₂, hl₂, hr₂, hv₂⟩ := h₂
    rw [hl₁.world_eq hp.1] at hr₁
    rw [hl₂.world_eq hp.1] at hr₂
    rw [hl₁.unique hp.1 hl₂, hr₁.unique hp.2 hr₂] at hv₁
    exact Option.some.inj (hv₁.symm.trans hv₂)
  | int _, _, _, _, _, _, _, h₁, h₂ | str _, _, _, _, _, _, _, h₁, h₂ | quoted _, _, _, _, _, _, _, h₁, h₂
  | var _, _, _, _, _, _, _, h₁, h₂ | global _ _, _, _, _, _, _, _, h₁, h₂ | field _, _, _, _, _, _, _, h₁, h₂
  | entryVar _ _, _, _, _, _, _, _, h₁, h₂ | entry, _, _, _, _, _, _, h₁, h₂ | verbatim _ _, _, _, _, _, _, _, h₁, h₂
  | block _, _, _, _, _, _, _, h₁, h₂ => Option.some.inj (h₁.1.symm.trans h₂.1)

theorem GivesAll.unique : ∀ {es : List Expr} {w w₁ w₂ : World} {vs₁ vs₂ : List Value}, allPure es = true →
    GivesAll rt ent ρ es w vs₁ w₁ → GivesAll rt ent ρ es w vs₂ w₂ → vs₁ = vs₂
  | [], _, _, _, _, _, _, h₁, h₂ => h₁.1.trans h₂.1.symm
  | e :: es, w, w₁, w₂, vs₁, vs₂, hp, h₁, h₂ => by
    simp only [allPure, Bool.and_eq_true] at hp
    obtain ⟨v₁, u₁, vs₁, hv₁, hvs₁, rfl⟩ := h₁
    obtain ⟨v₂, u₂, vs₂, hv₂, hvs₂, rfl⟩ := h₂
    rw [hv₁.world_eq hp.1] at hvs₁
    rw [hv₂.world_eq hp.1] at hvs₂
    rw [hv₁.unique hp.1 hv₂, hvs₁.unique hp.2 hvs₂]

end

end Expr

/-- **An expression in one state is what another is in another state**: worth the same values, or the same procedure. -/
structure SameWorth (rt : Runtime) (ent : Option Entry) (s s' : Store) (e e' : Expr) : Prop where
  value : ∀ v, e'.Gives rt ent s'.locals s'.world v s'.world ↔ e.Gives rt ent s.locals s.world v s.world
  procedure : ∀ p : Procedure, e' = p.toExpr ↔ e = p.toExpr

namespace SameWorth

variable {rt : Runtime} {ent : Option Entry} {s s₁ s' : Store} {e e₁ e' : Expr}

theorem trans (h : SameWorth rt ent s s₁ e e₁) (h' : SameWorth rt ent s₁ s' e₁ e') : SameWorth rt ent s s' e e' :=
  ⟨fun v => (h'.value v).trans (h.value v), fun p => (h'.procedure p).trans (h.procedure p)⟩

/-- Nothing that the expression reads has changed. -/
theorem unmoved (hpure : e.isPure = true)
    (h : ∀ x ∈ e.nodes, x.worth rt ent s'.locals s'.world = x.worth rt ent s.locals s.world) : SameWorth rt ent s s' e e :=
  ⟨fun _ => ⟨.congr_nodes hpure (fun x hx => (h x hx).symm), .congr_nodes hpure h⟩, fun _ => .rfl⟩

theorem of_locals (hworld : s'.world = s.world) (h : ∀ x ∈ e.vars, s'.locals x = s.locals x) : SameWorth rt ent s s' e e := by
  refine ⟨fun v => ?_, fun _ => .rfl⟩
  rw [hworld]
  exact ⟨.congr_locals (fun x hx => (h x hx).symm), .congr_locals h⟩

/-- What the expression reads of the variables of the method is as it was, and so is what it reads of the world. -/
theorem of_state (hpure : e.isPure = true) (hlocals : ∀ x ∈ e.vars, s'.locals x = s.locals x)
    (hstate : ∀ x ∈ e.nodes, x.isStateRead = true → x.worth rt ent s'.locals s'.world = x.worth rt ent s.locals s.world) :
    SameWorth rt ent s s' e e := by
  refine unmoved hpure (fun x hx => ?_)
  cases x with
  | global | entryVar => exact hstate _ hx rfl
  | var y => exact hlocals y (List.mem_filterMap.2 ⟨_, hx, rfl⟩)
  | _ => rfl

/-- A variable that holds what the expression is worth. -/
theorem stored {x : VarId} {v : Value} (hpure : e.isPure = true) (h : e.Gives rt ent s.locals s.world v s.world)
    (hx : s'.locals x = some v) : SameWorth rt ent s s' e (.var x) := by
  have hvalue := Expr.isValue_of_gives h
  refine ⟨fun u => ⟨fun hu => ?_, fun hu => ⟨hx.trans (congrArg some (h.unique hpure hu)), rfl⟩⟩, fun p => ?_⟩
  · obtain rfl : v = u := Option.some.inj (hx.symm.trans hu.1)
    exact h
  · constructor
    · intro hp
      cases p <;> cases hp
    · rintro rfl
      cases p <;> cases hvalue

end SameWorth

/-! ## Stores -/

/-- **What can wait on a stack**, in a scope of `n` variables: evaluating it changes nothing, and all its variables are there. -/
structure Expr.Waits (n : Nat) (e : Expr) : Prop where
  pure : e.isPure = true
  known : ∀ x ∈ e.vars, x < n

theorem Expr.Waits.var {n : Nat} {x : VarId} (h : x < n) : (Expr.var x).Waits n :=
  ⟨rfl, List.forall_mem_singleton.2 h⟩

theorem Expr.Waits.mono {n k : Nat} {e : Expr} (h : e.Waits n) (hk : n ≤ k) : e.Waits k :=
  ⟨h.pure, fun x hx => Nat.lt_of_lt_of_le (h.known x hx) hk⟩

/-- **A statement that gives a variable the value of an expression.** -/
inductive Stmt.Puts (x : VarId) (e : Expr) : Stmt → Prop where
  | declare : Puts x e (.declare x (some e))
  | assign : Puts x e (.assign (.var x) e)

theorem Stmt.Puts.runs_iff {rt : Runtime} {ent : Option Entry} {x : VarId} {e : Expr} {t : Stmt} {s s' : Store} (h : t.Puts x e) :
    Runs rt (.stmt t) ent s s' ↔ ∃ v w, e.Gives rt ent s.locals s.world v w ∧ s' = ⟨s.locals.set x (some v), w⟩ := by
  constructor
  · intro hruns
    cases h with
    | declare =>
      cases hruns with
      | init he => exact ⟨_, _, he, rfl⟩
    | assign =>
      cases hruns with
      | assign he ht => exact ⟨_, _, he, (Option.some.inj ht).symm⟩
  · rintro ⟨v, w, he, rfl⟩
    cases h with
    | declare => exact .init he
    | assign => exact .assign he rfl

/-- **Slots that become others**, some of them the same and some of them variables in which they have been stored: the
variables from one number up to another, the lowest slot first. -/
inductive Stored (n : Nat) : List Expr → Block → List Expr → Nat → Prop where
  | nil : Stored n [] [] [] n
  | keep {e : Expr} {es slots : List Expr} {b : Block} {k : Nat} (h : Stored n es b slots k) :
    Stored n (e :: es) b (e :: slots) k
  | store {e : Expr} {es slots : List Expr} {b : Block} {k : Nat} {t : Stmt} (h : Stored n es b slots k) (ht : t.Puts k e) :
    Stored n (e :: es) (b ++ [t]) (.var k :: slots) (k + 1)

namespace Stored

variable {n k : Nat} {es slots : List Expr} {b : Block}

theorem le (h : Stored n es b slots k) : n ≤ k := by
  induction h with
  | nil => exact Nat.le_refl n
  | keep _ ih => exact ih
  | store _ _ ih => exact Nat.le_succ_of_le ih

/-- Slots above are stored after those below. -/
theorem append {k' : Nat} {es' slots' : List Expr} {b' : Block} (h : Stored n es b slots k) (h' : Stored k es' b' slots' k') :
    Stored n (es' ++ es) (b ++ b') (slots' ++ slots) k' := by
  induction h' with
  | nil => rw [List.append_nil]; exact h
  | keep _ ih => exact .keep ih
  | store _ ht ih => rw [← List.append_assoc]; exact .store ih ht

theorem length_eq (h : Stored n es b slots k) : es.length = slots.length := by
  induction h with
  | nil => rfl
  | keep _ ih | store _ _ ih => exact congrArg (· + 1) ih

/-- Every new variable has its slot. -/
theorem new_mem (h : Stored n es b slots k) {x : VarId} (hn : n ≤ x) (hk : x < k) : .var x ∈ slots := by
  induction h with
  | nil => exact absurd hk (Nat.not_lt.2 hn)
  | keep _ ih => exact List.mem_cons_of_mem _ (ih hk)
  | store _ _ ih =>
    rcases Nat.lt_succ_iff_lt_or_eq.1 hk with hk | rfl
    · exact List.mem_cons_of_mem _ (ih hk)
    · exact List.mem_cons_self

theorem waits (h : Stored n es b slots k) (hes : ∀ e ∈ es, e.Waits n) : ∀ e ∈ slots, e.Waits k := by
  induction h with
  | nil => exact hes
  | keep h ih =>
    rw [List.forall_mem_cons] at hes
    exact List.forall_mem_cons.2 ⟨hes.1.mono h.le, ih hes.2⟩
  | store h _ ih =>
    rw [List.forall_mem_cons] at hes
    exact List.forall_mem_cons.2 ⟨.var (Nat.lt_succ_self _), fun e he => (ih hes.2 e he).mono (Nat.le_succ _)⟩

variable {rt : Runtime} {ent : Option Entry} {s s' : Store}

/-- **Storing keeps what every slot is worth**, and changes nothing but the new variables. -/
theorem keeps (h : Stored n es b slots k) (hes : ∀ e ∈ es, e.Waits n) (hruns : Runs rt (.block b) ent s s') :
    s'.world = s.world ∧ (∀ x, x < n ∨ k ≤ x → s'.locals x = s.locals x) ∧ List.Forall₂ (SameWorth rt ent s s') es slots := by
  induction h generalizing s' with
  | nil =>
    cases hruns
    exact ⟨rfl, fun _ _ => rfl, .nil⟩
  | keep _ ih =>
    rw [List.forall_mem_cons] at hes
    obtain ⟨hworld, hlocals, hsame⟩ := ih hes.2 hruns
    exact ⟨hworld, hlocals, .cons (.of_locals hworld (fun x hx => hlocals x (.inl (hes.1.known x hx)))) hsame⟩
  | @store e es slots b k t h ht ih =>
    rw [List.forall_mem_cons] at hes
    obtain ⟨s₁, hbelow, hlast⟩ := hruns.of_append
    obtain ⟨hworld, hlocals, hsame⟩ := ih hes.2 hbelow
    obtain ⟨v, w, he, rfl⟩ := ht.runs_iff.1 hlast.of_single
    obtain rfl := he.world_eq hes.1.pure
    have hn := h.le
    have hold : ∀ x, x ≠ k → s₁.locals.set k (some v) x = s₁.locals x := fun x hx => Locals.set_ne hx
    refine ⟨hworld, fun x hx => (hold x (by omega)).trans (hlocals x (by omega)), .cons ?_ ?_⟩
    · have he' : e.Gives rt ent s.locals s.world v s.world := by
        rw [← hworld]
        exact he.congr_locals (fun x hx => (hlocals x (.inl (hes.1.known x hx))).symm)
      exact .stored hes.1.pure he' (Locals.set_self _ _ _)
    · -- the last store is to a variable that no slot below reads
      refine List.forall₂_iff_zip.2 ⟨hsame.length_eq, fun {e' slot} hq => ?_⟩
      refine ((List.forall₂_iff_zip.1 hsame).2 hq).trans (.of_locals rfl (fun x hx => hold x ?_))
      exact Nat.ne_of_lt ((h.waits hes.2 slot (List.of_mem_zip hq).2).known x hx)

/-- Where every slot is a variable afterwards, no other variable is set. -/
theorem keeps_others {vars : List VarId} (h : Stored n es b (vars.map .var) k) (hes : ∀ e ∈ es, e.Waits n)
    (hruns : Runs rt (.block b) ent s s') :
    s'.world = s.world ∧ (∀ x, x ∉ vars → s'.locals x = s.locals x) ∧
      List.Forall₂ (SameWorth rt ent s s') es (vars.map .var) := by
  obtain ⟨hworld, hlocals, hsame⟩ := h.keeps hes hruns
  refine ⟨hworld, fun x hx => hlocals x (Classical.byContradiction (fun hnew => hx ?_)), hsame⟩
  rw [not_or, Nat.not_lt, Nat.not_le] at hnew
  obtain ⟨v, hv, heq⟩ := List.mem_map.1 (h.new_mem hnew.1 hnew.2)
  cases heq
  exact hv

/-- **Storing runs to its end** if every slot that is stored is worth something. -/
theorem exists_run (h : Stored n es b slots k) (hes : ∀ e ∈ es, e.Waits n)
    (hworth : ∀ q ∈ es.zip slots, q.2 ≠ q.1 → ∃ v, q.1.Gives rt ent s.locals s.world v s.world) :
    ∃ s', Runs rt (.block b) ent s s' := by
  induction h with
  | nil => exact ⟨s, .nil⟩
  | keep _ ih =>
    rw [List.forall_mem_cons] at hes
    rw [List.zip_cons_cons, List.forall_mem_cons] at hworth
    exact ih hes.2 hworth.2
  | @store e es slots b k t h ht ih =>
    rw [List.forall_mem_cons] at hes
    rw [List.zip_cons_cons, List.forall_mem_cons] at hworth
    obtain ⟨s₁, hbelow⟩ := ih hes.2 hworth.2
    obtain ⟨hworld, hlocals, -⟩ := h.keeps hes.2 hbelow
    have hne : Expr.var k ≠ e := by
      rintro rfl
      exact absurd (hes.1.known k List.mem_cons_self) (Nat.not_lt.2 h.le)
    obtain ⟨v, hv⟩ := hworth.1 hne
    rw [← hworld] at hv
    have hv' : e.Gives rt ent s₁.locals s₁.world v s₁.world :=
      hv.congr_locals (fun x hx => hlocals x (.inl (hes.1.known x hx)))
    exact ⟨_, hbelow.append (.single (ht.runs_iff.2 ⟨v, _, hv', rfl⟩))⟩

end Stored

namespace Eval

/-! ## Spilling -/

theorem newLocal_ok {t : Ty} {m m' : Machine} {v : VarId} (h : newLocal t m = .ok v m') :
    v = m.scope.vars.size ∧ m'.scope.vars.size = m.scope.vars.size + 1 ∧ m'.frame = m.frame := by
  obtain ⟨⟩ := h
  exact ⟨rfl, Array.size_push _, rfl⟩

/-- **Spilling stores what is picked** and nothing else, so what lies in a slot afterwards is not picked or is a variable. -/
theorem spillSlots_stored {which : Expr → Bool} {es slots : List Expr} {m m' : Machine} (h : spillSlots which es m = .ok slots m') :
    ∃ b, Stored m.scope.vars.size es b slots m'.scope.vars.size ∧ m'.frame = { m.frame with code := m.frame.code ++ b } ∧
      (∀ e ∈ slots, which e = true → ∃ x, e = .var x) ∧ ∀ q ∈ es.zip slots, q.2 ≠ q.1 → which q.1 = true := by
  induction es generalizing slots m' with
  | nil =>
    obtain ⟨rfl, rfl⟩ := pure_ok.1 h
    exact ⟨[], .nil, by rw [List.append_nil], List.forall_mem_nil _, List.forall_mem_nil _⟩
  | cons e below ih =>
    unfold spillSlots at h
    obtain ⟨slots₁, m₁, hbelow, hrest⟩ := bind_ok.1 h
    obtain ⟨b, hstored, hframe, hleft, hpicked⟩ := ih hbelow
    split at hrest
    · rename_i hwhich
      obtain ⟨t, m₂, hty, hnew⟩ := bind_ok.1 hrest
      obtain ⟨-, rfl⟩ := tyOf_ok.1 hty
      obtain ⟨v, m₃, hv, hemit⟩ := bind_ok.1 hnew
      obtain ⟨rfl, hsize, hframe₃⟩ := newLocal_ok hv
      obtain ⟨_, m₄, hdone, hreturn⟩ := bind_ok.1 hemit
      obtain ⟨⟩ := hdone
      obtain ⟨rfl, rfl⟩ := pure_ok.1 hreturn
      refine ⟨b ++ [.declare m₂.scope.vars.size (some e)], ?_, ?_, ?_, ?_⟩
      · rw [show m₃.scope.vars.size = _ from hsize]
        exact .store hstored .declare
      · simp only [hframe₃, hframe, List.append_assoc]
      · exact List.forall_mem_cons.2 ⟨fun _ => ⟨_, rfl⟩, hleft⟩
      · exact List.forall_mem_cons.2 ⟨fun _ => hwhich, hpicked⟩
    · rename_i hwhich
      obtain ⟨rfl, rfl⟩ := pure_ok.1 hrest
      refine ⟨b, .keep hstored, hframe, ?_, ?_⟩
      · exact List.forall_mem_cons.2 ⟨fun h => absurd h hwhich, hleft⟩
      · exact List.forall_mem_cons.2 ⟨fun hne => absurd rfl hne, hpicked⟩

theorem spillWhere_stored {changes : Expr → Bool} {m m' : Machine} (h : spillWhere changes m = .ok () m') :
    ∃ b, Stored m.scope.vars.size m.frame.stack b m'.frame.stack m'.scope.vars.size ∧
      m'.frame = { m.frame with stack := m'.frame.stack, code := m.frame.code ++ b } ∧
      (∀ e ∈ m'.frame.stack, isComposite e = true → changes e = false) ∧
      ∀ q ∈ m.frame.stack.zip m'.frame.stack, q.2 ≠ q.1 → q.1.isValue = true ∧ changes q.1 = true := by
  obtain ⟨m₀, m₁, hget, h⟩ := bind_ok.1 h
  obtain ⟨⟩ := hget
  obtain ⟨slots, m₂, hslots, h⟩ := bind_ok.1 h
  obtain ⟨⟩ := h
  obtain ⟨b, hstored, hframe, hleft, hpicked⟩ := spillSlots_stored hslots
  refine ⟨b, hstored, by simp only [hframe], fun e he hcomposite => ?_, fun q hq hne => ?_⟩
  · cases hchanges : changes e with
    | false => rfl
    | true =>
      obtain ⟨x, rfl⟩ := hleft e he (by simp only [hcomposite, hchanges, Bool.and_self])
      cases hcomposite
  · obtain ⟨hcomposite, hchanges⟩ := (Bool.and_eq_true _ _).mp (hpicked q hq hne)
    refine ⟨?_, hchanges⟩
    cases he : q.1 with
    | quoted | block => rw [he] at hcomposite; cases hcomposite
    | _ => rfl

end Eval
end Bibstyle
