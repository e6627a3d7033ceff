import Bibstyle.Proofs.Building
import Bibstyle.Proofs.Passages
/-!
# Meeting — the primitives that a run comes to

A run comes to a primitive where it has a name run that means it, at any depth: in a body, in a side of a branch, in the test
of a loop.  `Meets` gives every such place with the machine that the primitive is run on.  A run that ends has ended all of
them, and what was known of types at each is known at the end.  The tests of equality in what it has written have been built
by the `=` it came to.
-/
namespace Bibstyle
namespace Eval

/-- **A procedure comes to a primitive**, and runs it on a machine. -/
inductive Meets (d : Dictionary) : Nat → Procedure → Machine → Primitive → Machine → Prop where
  | here {depth : Nat} {n : String} {p : Primitive} {m : Machine} (hn : d.get? n = some (.primitive p)) :
    Meets d (depth + 1) (.named n) m p m
  /-- A term is done, and the rest of the group is run. -/
  | next {depth : Nat} {t : Term} {ts : List Term} {span : Span} {m m₁ m' : Machine} {p : Primitive}
    (h : term d (procedure d depth) t m = .ok () m₁) (hrest : Meets d (depth + 1) (.group ⟨ts, span⟩) m₁ p m') :
    Meets d (depth + 1) (.group ⟨t :: ts, span⟩) m p m'
  /-- The first term of a group is a name. -/
  | name {depth : Nat} {n : String} {place span : Span} {ts : List Term} {m m' : Machine} {p : Primitive}
    (h : Meets d (depth + 1) (.named n) { m with log := m.log.push (.evaluating (.name n place)) } p m') :
    Meets d (depth + 1) (.group ⟨.name n place :: ts, span⟩) m p m'
  /-- The name is that of a primitive, which has a procedure run. -/
  | nested {depth : Nat} {n : String} {outer p : Primitive} {q : Procedure} {m m₁ m' : Machine} {waiting : List Frame}
    (hn : d.get? n = some (.primitive outer)) (h : Enters (procedure d depth) outer m q waiting m₁)
    (hq : Meets d depth q m₁ p m') : Meets d (depth + 1) (.named n) m p m'

variable {d : Dictionary}

/-- What a run comes to, it passes. -/
theorem Meets.passes {depth : Nat} {q : Procedure} {m m' : Machine} {p : Primitive} (h : Meets d depth q m p m') :
    ∃ fs, Passes d depth q m fs m' := by
  induction h with
  | here => exact ⟨[], .start _ _ _⟩
  | next h _ ih =>
    obtain ⟨fs, hfs⟩ := ih
    exact ⟨fs, .next h hfs⟩
  | name _ ih =>
    obtain ⟨fs, hfs⟩ := ih
    exact ⟨fs, .name hfs⟩
  | nested hn h _ ih =>
    obtain ⟨fs, hfs⟩ := ih
    exact ⟨_, .nested hn h hfs⟩

/-- A group whose first terms are done. -/
theorem Meets.after {depth : Nat} {ts rest : List Term} {span : Span} {m m₁ m' : Machine} {p : Primitive}
    (h : terms d (procedure d depth) ts m = .ok () m₁) (hrest : Meets d (depth + 1) (.group ⟨rest, span⟩) m₁ p m') :
    Meets d (depth + 1) (.group ⟨ts ++ rest, span⟩) m p m' := by
  induction ts generalizing m with
  | nil =>
    obtain ⟨-, rfl⟩ := pure_ok.1 h
    exact hrest
  | cons t ts ih =>
    obtain ⟨_, m₂, hterm, hterms⟩ := bind_ok.1 h
    exact .next hterm (ih hterms)

/-! ## Runs that end -/

theorem ok_unique {α : Type} {x : Eval α} {m m₁ m₂ : Machine} {a b : α} (h : x m = .ok a m₁) (h' : x m = .ok b m₂) :
    a = b ∧ m₁ = m₂ := by
  rw [h] at h'
  cases h'
  exact ⟨rfl, rfl⟩

/-- A procedure that is run in a frame of its own, before the rest. -/
theorem nested_ends {α : Type} {x : Eval Unit} {f : Frame → Eval α} {m m' : Machine} {a : α} (h : (inNested x >>= f) m = .ok a m')
    (hf : ∀ g, Builds (fun _ => True) (f g) (fun _ => True)) :
    ∃ m₂, x { m with frame := m.frame.nested } = .ok () m₂ ∧ m₂.scope.Sharpens m'.scope := by
  obtain ⟨g, m₁, hnested, hrest⟩ := bind_ok.1 h
  obtain ⟨m₂, hx, rfl, rfl⟩ := inNested_ok.1 hnested
  have hsharp := (hf _).sharpens hrest
  exact ⟨m₂, hx, hsharp⟩

/-- **Where a primitive ends, the procedures it has run have ended**, and have learned no more types than it has. -/
theorem Enters.ends {run : Procedure → Eval Unit} (hrun : ∀ q, Builds (fun _ => True) (run q) (fun _ => True)) {p : Primitive}
    {q : Procedure} {m m₁ m' : Machine} {waiting : List Frame} (h : Enters run p m q waiting m₁)
    (hok : primitive d run p m = .ok () m') : ∃ m₂, run q m₁ = .ok () m₂ ∧ m₂.scope.Sharpens m'.scope := by
  have hN := ordinary_any
  have hall : ∀ e : Expr, e.All (fun _ => True) := fun _ _ _ => trivial
  have hframe : ∀ f : Frame, f.All (fun _ => True) := fun f => ⟨fun _ _ => hall _, fun _ _ _ _ => hall _⟩
  cases h with
  | yes h =>
    change branch run m = _ at hok
    rw [branch_eq] at hok
    obtain ⟨r, m₁', hs, hrest⟩ := bind_ok.1 hok
    obtain ⟨rfl, rfl⟩ := ok_unique h hs
    refine nested_ends hrest (fun gy => ?_)
    exact .bind (builds_inNested (hrun _)) (fun gn _ => builds_merge hN (hall _) (hframe gy) (hframe gn))
  | no h hyes =>
    change branch run m = _ at hok
    rw [branch_eq] at hok
    obtain ⟨r, m₁', hs, hrest⟩ := bind_ok.1 hok
    obtain ⟨rfl, rfl⟩ := ok_unique h hs
    obtain ⟨gy, m₂', hy, hrest⟩ := bind_ok.1 hrest
    obtain ⟨rfl, rfl⟩ := ok_unique hyes hy
    exact nested_ends hrest (fun gn => builds_merge hN (hall _) (hframe _) (hframe gn))
  | condition h =>
    change loop run m = _ at hok
    rw [loop_eq] at hok
    obtain ⟨r, m₁', hs, hrest⟩ := bind_ok.1 hok
    obtain ⟨rfl, rfl⟩ := ok_unique h hs
    obtain ⟨test, m₂', htest, hrest⟩ := bind_ok.1 hrest
    obtain ⟨m₂, hm₂, hsharp⟩ := nested_ends htest (fun g => by
      refine .ite .throw (.ite ?_ .throw)
      split
      · exact .throw
      · exact .bind (builds_check (hall _) .int _) (fun _ _ => .ite (.pure trivial) .throw))
    refine ⟨m₂, hm₂, hsharp.trans (Builds.sharpens (Q := fun _ => True) ?_ hrest)⟩
    exact .bind (builds_loopBody hN (hrun _) _) (fun code hcode => builds_emit (.loop (fun _ _ _ _ => hall _) (hall _) hcode))
  | body h htest =>
    change loop run m = _ at hok
    rw [loop_eq] at hok
    obtain ⟨r, m₁', hs, hrest⟩ := bind_ok.1 hok
    obtain ⟨rfl, rfl⟩ := ok_unique h hs
    obtain ⟨test, m₂', ht, hrest⟩ := bind_ok.1 hrest
    obtain ⟨rfl, rfl⟩ := ok_unique htest ht
    obtain ⟨code, m₃, hbody, hemit⟩ := bind_ok.1 hrest
    have hlast : m₃.scope.Sharpens m'.scope :=
      Builds.sharpens (builds_emit (fun _ _ _ _ => hall _)) hemit
    obtain ⟨m₂, hm₂, hsharp⟩ := nested_ends hbody (fun g => by
      refine .ite .throw (.ite ?_ .throw)
      refine .bind (builds_changedSlots _ (fun e _ => hall e)) (fun changed _ => ?_)
      exact .bind (builds_updates hN (fun q _ => hall q.2)) (fun _ _ => .pure trivial))
    exact ⟨m₂, hm₂, hsharp.trans hlast⟩

/-- **A run that ends has ended every primitive it came to**, and knows all types that were known then. -/
theorem Meets.ends {depth : Nat} {q : Procedure} {m m₁ m' : Machine} {p : Primitive} (h : Meets d depth q m p m₁)
    (hok : procedure d depth q m = .ok () m') :
    ∃ k m₂, primitive d (procedure d k) p m₁ = .ok () m₂ ∧ m₂.scope.Sharpens m'.scope := by
  induction h generalizing m' with
  | @here depth n p m hn =>
    change Eval.name d (procedure d depth) n m = _ at hok
    rw [Eval.name, hn] at hok
    exact ⟨depth, m', hok, .refl _⟩
  | next h _ ih =>
    obtain ⟨_, m₂, hterm, hrest⟩ := bind_ok.1 hok
    obtain ⟨-, rfl⟩ := ok_unique h hterm
    exact ih hrest
  | @name depth n place span ts m _ _ _ ih =>
    obtain ⟨_, m₂, hterm, hrest⟩ := bind_ok.1 hok
    obtain ⟨k, m₃, hm₃, hsharp⟩ := ih hterm
    exact ⟨k, m₃, hm₃, hsharp.trans ((builds_any d (depth + 1) (.group ⟨ts, span⟩)).sharpens hrest)⟩
  | @nested depth n outer _ _ m _ _ _ hn h _ ih =>
    change Eval.name d (procedure d depth) n m = _ at hok
    rw [Eval.name, hn] at hok
    obtain ⟨m₂, hm₂, hsharp⟩ := h.ends (builds_any d depth) hok
    obtain ⟨k, m₃, hm₃, hsharp₃⟩ := ih hm₂
    exact ⟨k, m₃, hm₃, hsharp₃.trans hsharp⟩

/-! ## What a run has built where it comes to a primitive -/

section Nodes

variable {N : Expr → Prop} (hN : Ordinary N)

include hN

theorem Enters.all {run : Procedure → Eval Unit} (hrun : ∀ q, Builds N (run q) (fun _ => True)) {p : Primitive} {q : Procedure}
    {m m₁ : Machine} {waiting : List Frame} (h : Enters run p m q waiting m₁) (hm : m.frame.All N) : m₁.frame.All N := by
  cases h with
  | yes h =>
    obtain ⟨-, hm₁, -⟩ := builds_sides hN m _ _ hm h
    exact ⟨hm₁.stack, .nil⟩
  | no h hyes =>
    obtain ⟨-, hm₁, -⟩ := builds_sides hN m _ _ hm h
    obtain ⟨-, hm₂, -⟩ := builds_inNested (hrun _) _ _ _ hm₁ hyes
    exact ⟨hm₂.stack, .nil⟩
  | condition h =>
    obtain ⟨-, hm₁, -⟩ := builds_loopStart hN m _ _ hm h
    exact ⟨hm₁.stack, .nil⟩
  | body h htest =>
    obtain ⟨-, hm₁, -⟩ := builds_loopStart hN m _ _ hm h
    obtain ⟨-, hm₂, -⟩ := builds_loopTest (hrun _) _ _ _ _ hm₁ htest
    exact ⟨hm₂.stack, .nil⟩

/-- **What a run builds throughout, it has built where it comes to a primitive.** -/
theorem Meets.all (hreads : ∀ x, d.Reads x → N x) (hequation : ∀ l r, N (.compare .eq l r)) {depth : Nat} {q : Procedure}
    {m m' : Machine} {p : Primitive} (h : Meets d depth q m p m') (hm : m.frame.All N) : m'.frame.All N := by
  have hrun := builds_procedure hN hreads hequation
  induction h with
  | here => exact hm
  | @next depth _ _ _ m _ _ _ hterm _ ih =>
    refine ih (builds_term hN (hrun depth) hreads (fun _ _ _ _ => ?_) m _ _ hm hterm).2.1
    exact builds_equal hN hequation
  | name _ ih => exact ih hm
  | @nested depth _ _ _ _ _ _ _ _ _ henters _ ih => exact ih (henters.all hN (hrun depth) hm)

end Nodes

/-! ## Where tests of equality come from -/

/-- Every `=` that a procedure comes to leaves on top what is so. -/
def Equates (N : Expr → Prop) (d : Dictionary) (depth : Nat) (q : Procedure) (m : Machine) : Prop :=
  ∀ m₁ m₂, Meets d depth q m .eq m₁ → equal m₁ = .ok () m₂ → ∀ x ∈ m₂.frame.stack.head?, N x

section Equations

variable {N : Expr → Prop} (hN : Ordinary N)

include hN

/-- What `=` builds is on top of the stack. -/
theorem equal_builds {m m' : Machine} (hm : m.frame.All N) (h : equal m = .ok () m')
    (htop : ∀ x ∈ m'.frame.stack.head?, N x) : m'.frame.All N := by
  rw [equal_eq] at h
  obtain ⟨⟨l, r⟩, m₁, hlr, hpush⟩ := bind_ok.1 h
  obtain ⟨-, hm₁, hl, hr⟩ := builds_equands hN m (l, r) m₁ hm hlr
  cases hpush
  have hnode : N (.compare .eq l r) := htop _ rfl
  exact ⟨List.forall_mem_cons.2 ⟨List.forall_mem_cons.2 ⟨hnode, List.forall_mem_append.2 ⟨hl, hr⟩⟩, hm₁.stack⟩, hm₁.code⟩

/-- Of the procedures that a primitive could run, only those it enters matter for what it builds. -/
theorem primitive_builds {run : Procedure → Eval Unit} (hsharp : ∀ q, Builds (fun _ => True) (run q) (fun _ => True))
    {p : Primitive} (hp : p ≠ .eq) {m m' : Machine} (hm : m.frame.All N)
    (hrun : ∀ q waiting m₁ m₂, Enters run p m q waiting m₁ → m₁.frame.All N → run q m₁ = .ok () m₂ → m₂.frame.All N)
    (hok : primitive d run p m = .ok () m') : m'.frame.All N := by
  -- runs that are not entered make no difference, so let them fail
  classical
  let entered : Procedure → Eval Unit := fun q m₁ =>
    if ∃ waiting, Enters run p m q waiting m₁ then run q m₁ else .error .exhausted m₁
  have hsame : primitive d run p m = primitive d entered p m :=
    primitive_congr (fun q waiting m₁ h => (if_pos ⟨waiting, h⟩).symm)
  have hbuilds : ∀ q, Builds N (entered q) (fun _ => True) := by
    intro q m₁ _ m₂ hm₁ hx
    by_cases h : ∃ waiting, Enters run p m q waiting m₁
    · have hx : run q m₁ = .ok () m₂ := (if_pos h).symm.trans hx
      obtain ⟨waiting, h⟩ := h
      exact ⟨(hsharp q).sharpens hx, hrun q waiting m₁ m₂ h hm₁ hx, trivial⟩
    · have hx : EStateM.Result.error AnalysisFault.exhausted m₁ = .ok () m₂ := (if_neg h).symm.trans hx
      cases hx
  rw [hsame] at hok
  exact (builds_primitive hN hbuilds (fun h => absurd h hp) m () m' hm hok).2.1

variable (hreads : ∀ x, d.Reads x → N x)

include hreads

theorem named_builds {depth : Nat}
    (ih : ∀ q m m', m.frame.All N → Equates N d depth q m → procedure d depth q m = .ok () m' → m'.frame.All N)
    {n : String} {m m' : Machine} (hm : m.frame.All N) (hmeets : Equates N d (depth + 1) (.named n) m)
    (hok : name d (procedure d depth) n m = .ok () m') : m'.frame.All N := by
  by_cases hprimitive : ∃ p, d.get? n = some (.primitive p)
  · obtain ⟨p, hn⟩ := hprimitive
    rw [name, hn] at hok
    by_cases hp : p = .eq
    · subst hp
      exact equal_builds hN hm hok (hmeets m m' (.here hn) hok)
    · refine primitive_builds hN (builds_any d depth) hp hm (fun q waiting m₁ m₂ h hm₁ hq => ?_) hok
      exact ih q m₁ m₂ hm₁ (fun m₃ m₄ hmet => hmeets m₃ m₄ (.nested hn h hmet)) hq
  · -- what is no primitive runs no procedures, so any run will do
    have hsame : name d (procedure d depth) n = name d (fun _ => throw .exhausted) n := by
      unfold name
      split
      · rfl
      · rename_i hn
        exact absurd ⟨_, hn⟩ hprimitive
      all_goals rfl
    rw [hsame] at hok
    exact (builds_name hN (fun _ => .throw) hreads (fun hn => absurd ⟨_, hn⟩ hprimitive) m () m' hm hok).2.1

theorem terms_builds {depth : Nat}
    (ih : ∀ q m m', m.frame.All N → Equates N d depth q m → procedure d depth q m = .ok () m' → m'.frame.All N) {span : Span} :
    ∀ {ts : List Term} {m m' : Machine}, m.frame.All N → Equates N d (depth + 1) (.group ⟨ts, span⟩) m →
      terms d (procedure d depth) ts m = .ok () m' → m'.frame.All N
  | [], m, m', hm, _, hok => by
    obtain ⟨-, rfl⟩ := pure_ok.1 hok
    exact hm
  | t :: ts, m, m', hm, hmeets, hok => by
    obtain ⟨_, m₁, hterm, hrest⟩ := bind_ok.1 hok
    have hm₁ : m₁.frame.All N := by
      by_cases hname : ∃ n place, t = .name n place
      · obtain ⟨n, place, rfl⟩ := hname
        have hlogged : Frame.All N { m with log := m.log.push (.evaluating (.name n place)) }.frame := hm
        exact named_builds hN hreads ih hlogged (fun m₂ m₃ h => hmeets m₂ m₃ (.name h)) hterm
      · -- any other term is pushed, or is no term of a body
        have hsame : term d (procedure d depth) t = term d (fun _ => throw .exhausted) t := by
          cases t with
          | name n place => exact absurd ⟨n, place, rfl⟩ hname
          | _ => rfl
        rw [hsame] at hterm
        exact (builds_term hN (fun _ => .throw) hreads (fun n place h => absurd ⟨n, place, h⟩ hname) m () m₁ hm hterm).2.1
    exact terms_builds ih hm₁ (fun m₂ m₃ h => hmeets m₂ m₃ (.next hterm h)) hrest

/-- **The tests of equality that a run has written have been built by the `=` it came to.** -/
theorem procedure_builds : ∀ (depth : Nat) (q : Procedure) (m m' : Machine), m.frame.All N → Equates N d depth q m →
    procedure d depth q m = .ok () m' → m'.frame.All N
  | 0, _, _, _, _, _, hok => absurd hok throw_ok
  | depth + 1, .group _, _, _, hm, hmeets, hok => terms_builds hN hreads (procedure_builds depth) hm hmeets hok
  | depth + 1, .named _, _, _, hm, hmeets, hok => named_builds hN hreads (procedure_builds depth) hm hmeets hok

end Equations

end Eval
end Bibstyle
