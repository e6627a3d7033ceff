import Bibstyle.Proofs.LoopVariables
import Bibstyle.Proofs.Pending
/-!
# Merging — both sides of a branch leave one stack

A branch declares a local for each slot on which its sides disagree, and each side ends by storing its own slot there.  The
locals are new to both sides, so neither can tell that they have been declared: a run of the branch is a run of the side that is
taken, followed by the stores, after which every slot of the one stack is worth what the same slot of that side's view is worth
when the side is done.
-/
namespace Bibstyle

/-! ## Declarations without a value -/

/-- **Variables are declared**, from one number up to another, and hold nothing. -/
inductive Declared (n : Nat) : Block → Nat → Prop where
  | nil : Declared n [] n
  | next {b : Block} {k : Nat} (h : Declared n b k) : Declared n (b ++ [.declare k none]) (k + 1)

section Declarations

variable {rt : Runtime} {ent : Option Entry} {n k : Nat} {b : Block} {s s' : Store}

theorem Declared.le (h : Declared n b k) : n ≤ k := by
  induction h with
  | nil => exact Nat.le_refl n
  | next _ ih => exact Nat.le_succ_of_le ih

theorem Declared.keeps (h : Declared n b k) (hruns : Runs rt (.block b) ent s s') :
    s'.world = s.world ∧ ∀ x, x < n ∨ k ≤ x → s'.locals x = s.locals x := by
  induction h generalizing s' with
  | nil =>
    cases hruns
    exact ⟨rfl, fun _ _ => rfl⟩
  | next h ih =>
    obtain ⟨s₁, hbelow, hlast⟩ := hruns.of_append
    obtain ⟨hworld, hlocals⟩ := ih hbelow
    cases hlast.of_single with
    | declare =>
      refine ⟨hworld, fun x hx => (Locals.set_ne ?_).trans (hlocals x (hx.imp_right Nat.le_of_succ_le))⟩
      rcases hx with hx | hx
      · exact Nat.ne_of_lt (Nat.lt_of_lt_of_le hx h.le)
      · exact Nat.ne_of_gt hx

theorem Declared.exists_run (h : Declared n b k) (s : Store) : ∃ s', Runs rt (.block b) ent s s' := by
  induction h with
  | nil => exact ⟨s, .nil⟩
  | next _ ih =>
    obtain ⟨s₁, hbelow⟩ := ih
    exact ⟨_, hbelow.append (.single .declare)⟩

end Declarations

/-! ## One side -/

/-- **A state in which a stack stands for another**: only new variables, from one number up to another, are different in it, and
every slot is worth what the slot of the other stack is worth in the first state. -/
structure Carried (rt : Runtime) (ent : Option Entry) (n k : Nat) (view stack : List Expr) (s s' : Store) : Prop where
  world : s'.world = s.world
  locals : ∀ x, x < n ∨ k ≤ x → s'.locals x = s.locals x
  slots : List.Forall₂ (SameWorth rt ent s s') view stack

/-- Whether a variable is one of those from one number up to another. -/
def isBetween (n k x : Nat) : Bool :=
  decide (n ≤ x) && decide (x < k)

theorem isBetween_eq_false {n k x : Nat} : isBetween n k x = false ↔ x < n ∨ k ≤ x := by
  simp only [isBetween, Bool.and_eq_false_iff, decide_eq_false_iff_not]
  omega

section Side

variable {rt : Runtime} {ent : Option Entry} {n k : Nat} {own fill : Block} {view stack : List Expr} {s s₀ s₁ s' : Store}
  (hstored : Stored n view fill stack k) (hview : ∀ e ∈ view, e.Waits n) (hown : ∀ x ∈ Block.vars own, x < n)
  (hworld : s₀.world = s.world) (hlocals : ∀ x, x < n ∨ k ≤ x → s₀.locals x = s.locals x)

include hstored hview hown hworld hlocals

/-- **A side that ends with stores runs as the side alone does** from a state in which the new variables hold anything. -/
theorem side_carried (hruns : Runs rt (.block (own ++ fill)) ent s₀ s') :
    ∃ s₁, Runs rt (.block own) ent s s₁ ∧ Carried rt ent n k view stack s₁ s' := by
  obtain ⟨t, hside, hstores⟩ := hruns.of_append
  have hlive : ∀ x ∈ Block.vars own, isBetween n k x = false := fun x hx => isBetween_eq_false.2 (.inl (hown x hx))
  have hstart : s₀.Agree (isBetween n k) s :=
    ⟨hworld.symm, fun x hx => (hlocals x (isBetween_eq_false.1 hx)).symm⟩
  obtain ⟨s₁, hs₁, hagree⟩ := hside.block_agree hlive hstart
  obtain ⟨hworld', hlocals', hsame⟩ := hstored.keeps hview hstores
  refine ⟨s₁, hs₁, hworld'.trans hagree.world.symm, fun x hx => ?_, ?_⟩
  · exact (hlocals' x hx).trans (hagree.locals x (isBetween_eq_false.2 hx)).symm
  · refine List.forall₂_iff_zip.2 ⟨hsame.length_eq, fun {e slot} hq => ?_⟩
    have hwaits := hview e (List.of_mem_zip hq).1
    refine SameWorth.trans (.of_locals hagree.world.symm (fun x hx => ?_)) ((List.forall₂_iff_zip.1 hsame).2 hq)
    exact (hagree.locals x (isBetween_eq_false.2 (.inl (hwaits.known x hx)))).symm

/-- And where the side alone runs, the side with its stores runs, if what it stores is worth something. -/
theorem exists_carried (hruns : Runs rt (.block own) ent s s₁)
    (hworth : ∀ q ∈ view.zip stack, q.2 ≠ q.1 → ∃ v, q.1.Gives rt ent s₁.locals s₁.world v s₁.world) :
    ∃ s', Runs rt (.block (own ++ fill)) ent s₀ s' ∧ Carried rt ent n k view stack s₁ s' := by
  have hlive : ∀ x ∈ Block.vars own, isBetween n k x = false := fun x hx => isBetween_eq_false.2 (.inl (hown x hx))
  have hstart : s.Agree (isBetween n k) s₀ := ⟨hworld, fun x hx => hlocals x (isBetween_eq_false.1 hx)⟩
  obtain ⟨t, ht, hagree⟩ := hruns.block_agree hlive hstart
  have hsame₁ : ∀ e ∈ view, SameWorth rt ent s₁ t e e := fun e he =>
    .of_locals hagree.world (fun x hx => hagree.locals x (isBetween_eq_false.2 (.inl ((hview e he).known x hx))))
  obtain ⟨s', hs'⟩ := hstored.exists_run hview (fun q hq hne => by
    obtain ⟨v, hv⟩ := hworth q hq hne
    exact ⟨v, ((hsame₁ q.1 (List.of_mem_zip hq).1).value v).2 hv⟩)
  obtain ⟨hworld', hlocals', hsame⟩ := hstored.keeps hview hs'
  refine ⟨s', ht.append hs', hworld'.trans hagree.world, fun x hx => ?_, ?_⟩
  · exact (hlocals' x hx).trans (hagree.locals x (isBetween_eq_false.2 hx))
  · refine List.forall₂_iff_zip.2 ⟨hsame.length_eq, fun {e slot} hq => ?_⟩
    exact (hsame₁ e (List.of_mem_zip hq).1).trans ((List.forall₂_iff_zip.1 hsame).2 hq)

end Side

/-! ## Slots merged -/

namespace Eval

/-- A check makes no variable. -/
theorem check_ok {e a : Expr} {t : Ty} {p : String} {m m' : Machine} (h : check e t p m = .ok a m') :
    a = e ∧ e.isValue = true ∧ m'.frame = m.frame ∧ m'.scope.vars.size = m.scope.vars.size := by
  obtain ⟨⟨rfl, hvalue⟩, hframe, -⟩ := (check_at (f := m.frame) (s := m.scope) e t p).ok ⟨rfl, .refl _⟩ h
  refine ⟨rfl, hvalue, hframe, ?_⟩
  unfold check at h
  obtain ⟨found, m₁, hty, hrest⟩ := bind_ok.1 h
  obtain ⟨-, rfl⟩ := tyOf_ok.1 hty
  split at hrest
  · exact absurd hrest (by rintro ⟨⟩)
  split at hrest
  · obtain ⟨_, m₂, hrefine, hreturn⟩ := bind_ok.1 hrest
    obtain ⟨⟩ := hrefine
    obtain ⟨-, rfl⟩ := pure_ok.1 hreturn
    exact Scope.size_refine _ _ _
  · obtain ⟨-, rfl⟩ := pure_ok.1 hrest
    rfl

/-- **One slot of two views**: they agree on it, or both sides store theirs in a new local. -/
theorem mergeSlot_ok {yes no : Expr} {below g : Merged} {m m' : Machine} (h : mergeSlot yes no below m = .ok g m') :
    yes = no ∧ g = { below with stack := yes :: below.stack } ∧ m' = m ∨
      g = ⟨.var m.scope.vars.size :: below.stack, below.yes ++ [.assign (.var m.scope.vars.size) yes],
        below.no ++ [.assign (.var m.scope.vars.size) no]⟩ ∧
      m'.scope.vars.size = m.scope.vars.size + 1 ∧
      m'.frame = { m.frame with code := m.frame.code ++ [.declare m.scope.vars.size none] } := by
  unfold mergeSlot at h
  split at h
  · rename_i heq
    obtain ⟨rfl, rfl⟩ := pure_ok.1 h
    exact .inl ⟨heq, rfl, rfl⟩
  split at h
  · exact absurd h throw_ok
  obtain ⟨a, m₁, ha, hrest⟩ := bind_ok.1 h
  obtain ⟨-, rfl⟩ := tyOf_ok.1 ha
  obtain ⟨b, m₂, hb, hunify⟩ := bind_ok.1 hrest
  obtain ⟨-, rfl⟩ := tyOf_ok.1 hb
  cases ht : a.unify? b with
  | none =>
    rw [ht] at hunify
    exact absurd hunify throw_ok
  | some t =>
    rw [ht] at hunify
    obtain ⟨yes', m₃, hyes, hrest⟩ := bind_ok.1 hunify
    obtain ⟨no', m₄, hno, hrest⟩ := bind_ok.1 hrest
    obtain ⟨v, m₅, hv, hrest⟩ := bind_ok.1 hrest
    obtain ⟨_, m₆, hemit, hreturn⟩ := bind_ok.1 hrest
    obtain ⟨⟩ := hemit
    obtain ⟨rfl, rfl⟩ := pure_ok.1 hreturn
    obtain ⟨rfl, -, hframe₃, hsize₃⟩ := check_ok hyes
    obtain ⟨rfl, -, hframe₄, hsize₄⟩ := check_ok hno
    obtain ⟨rfl, hsize₅, hframe₅⟩ := newLocal_ok hv
    rw [hsize₄, hsize₃] at hsize₅ ⊢
    exact .inr ⟨rfl, hsize₅, by simp only [hframe₅, hframe₄, hframe₃]⟩

/-- **Two views of one height are merged**: each side stores its own slots, and both become one stack. -/
theorem mergeSlots_stored {yes no : List Expr} {g : Merged} {m m' : Machine} (hlength : yes.length = no.length)
    (h : mergeSlots yes no m = .ok g m') :
    ∃ b, Declared m.scope.vars.size b m'.scope.vars.size ∧ Stored m.scope.vars.size yes g.yes g.stack m'.scope.vars.size ∧
      Stored m.scope.vars.size no g.no g.stack m'.scope.vars.size ∧ m'.frame = { m.frame with code := m.frame.code ++ b } := by
  induction yes generalizing no g m' with
  | nil =>
    obtain rfl : no = [] := List.eq_nil_of_length_eq_zero hlength.symm
    obtain ⟨rfl, rfl⟩ := pure_ok.1 h
    exact ⟨[], .nil, .nil, .nil, by rw [List.append_nil]⟩
  | cons y yes ih =>
    cases no with
    | nil => cases hlength
    | cons o no =>
      obtain ⟨below, m₁, hbelow, hslot⟩ := bind_ok.1 h
      obtain ⟨b, hdeclared, hyes, hno, hframe⟩ := ih (Nat.succ.inj hlength) hbelow
      rcases mergeSlot_ok hslot with ⟨rfl, rfl, rfl⟩ | ⟨rfl, hsize, hframe'⟩
      · exact ⟨b, hdeclared, .keep hyes, .keep hno, hframe⟩
      · rw [hsize]
        exact ⟨_, .next hdeclared, .store hyes .assign, .store hno .assign, by simp only [hframe', hframe, List.append_assoc]⟩

end Eval

/-! ## Branches -/

section Branches

variable {rt : Runtime} {ent : Option Entry} {n k : Nat} {b yes no : Block} {c : Expr} {j : Int32} {s s' : Store}

/-- **A branch is one of its sides**, by what its condition is worth before the declarations. -/
theorem branch_runs_iff (hdeclared : Declared n b k) (hc : c.Waits n) (hj : c.Gives rt ent s.locals s.world (.int j) s.world) :
    Runs rt (.block (b ++ [.branch c yes no])) ent s s' ↔
      ∃ s₀, Runs rt (.block b) ent s s₀ ∧ Runs rt (.block (if 0 < j then yes else no)) ent s₀ s' := by
  have hafter : ∀ {s₀}, Runs rt (.block b) ent s s₀ → c.Gives rt ent s₀.locals s₀.world (.int j) s₀.world := by
    intro s₀ hs₀
    obtain ⟨hworld, hlocals⟩ := hdeclared.keeps hs₀
    rw [hworld]
    exact hj.congr_locals (fun x hx => hlocals x (.inl (hc.known x hx)))
  constructor
  · intro h
    obtain ⟨s₀, hs₀, hlast⟩ := h.of_append
    refine ⟨s₀, hs₀, ?_⟩
    cases hlast.of_single with
    | yes h hi hb =>
      obtain ⟨⟩ := h.unique hc.pure (hafter hs₀)
      obtain rfl := h.world_eq hc.pure
      rw [if_pos hi]
      exact hb
    | no h hi hb =>
      obtain ⟨⟩ := h.unique hc.pure (hafter hs₀)
      obtain rfl := h.world_eq hc.pure
      rw [if_neg hi]
      exact hb
  · rintro ⟨s₀, hs₀, hside⟩
    refine hs₀.append (.single ?_)
    split at hside
    · rename_i hi
      exact .yes (hafter hs₀) hi hside
    · rename_i hi
      exact .no (hafter hs₀) hi hside

/-- **Code runs as other code does**, and leaves its slots in the slots of another stack: every run of it is one of the other
code up to new variables, and every run of the other code after which the slots that differ are worth something is one of
it. -/
structure RunsAs (rt : Runtime) (ent : Option Entry) (n k : Nat) (new own : Block) (view stack : List Expr) (s : Store) :
    Prop where
  sound : ∀ s', Runs rt (.block new) ent s s' → ∃ s₁, Runs rt (.block own) ent s s₁ ∧ Carried rt ent n k view stack s₁ s'
  complete : ∀ s₁, Runs rt (.block own) ent s s₁ →
    (∀ q ∈ view.zip stack, q.2 ≠ q.1 → ∃ v, q.1.Gives rt ent s₁.locals s₁.world v s₁.world) →
    ∃ s', Runs rt (.block new) ent s s' ∧ Carried rt ent n k view stack s₁ s'

theorem branch_runsAs {own fill : Block} {view stack : List Expr} (hdeclared : Declared n b k) (hc : c.Waits n)
    (hj : c.Gives rt ent s.locals s.world (.int j) s.world) (hstored : Stored n view fill stack k)
    (hview : ∀ e ∈ view, e.Waits n) (hown : ∀ x ∈ Block.vars own, x < n) (hside : (if 0 < j then yes else no) = own ++ fill) :
    RunsAs rt ent n k (b ++ [.branch c yes no]) own view stack s where
  sound s' h := by
    obtain ⟨s₀, hs₀, hruns⟩ := (branch_runs_iff hdeclared hc hj).1 h
    obtain ⟨hworld, hlocals⟩ := hdeclared.keeps hs₀
    rw [hside] at hruns
    exact side_carried hstored hview hown hworld hlocals hruns
  complete s₁ h hworth := by
    obtain ⟨s₀, hs₀⟩ : ∃ s₀, Runs rt (.block b) ent s s₀ := hdeclared.exists_run s
    obtain ⟨hworld, hlocals⟩ := hdeclared.keeps hs₀
    obtain ⟨s', hruns, hcarried⟩ := exists_carried hstored hview hown hworld hlocals h hworth
    rw [← hside] at hruns
    exact ⟨s', (branch_runs_iff hdeclared hc hj).2 ⟨s₀, hs₀, hruns⟩, hcarried⟩

end Branches

namespace Eval

/-- The view of a frame can wait as long as its stack. -/
theorem fullView_waits {g : Frame} {drawn : Nat} {view : List Expr} {m m' : Machine} (hm : m.Proper .any)
    (hg : g.Proper .any m.scope.vars.size) (h : fullView g drawn m = .ok view m') :
    m.scope.vars.size ≤ m'.scope.vars.size ∧ m'.Proper .any ∧ ∀ e ∈ view, e.Waits m'.scope.vars.size := by
  have hview := proper_fullView hg.stack drawn m (Nat.le_refl _) hm
  rw [h] at hview
  exact ⟨hview.1, hview.2.1, fun e he => (hview.2.2 e he).waits⟩

theorem sides_code {r : Procedure × Procedure × Expr} {m m' : Machine} (h : sides m = .ok r m') :
    m'.frame.code = m.frame.code := by
  unfold sides at h
  obtain ⟨no, m₁, hno, hrest⟩ := bind_ok.1 h
  obtain ⟨yes, m₂, hyes, hrest⟩ := bind_ok.1 hrest
  obtain ⟨condition, m₃, hcondition, hreturn⟩ := bind_ok.1 hrest
  obtain ⟨-, rfl⟩ := pure_ok.1 hreturn
  obtain ⟨_, -, rfl⟩ := popProcedure_ok hno
  obtain ⟨_, -, rfl⟩ := popProcedure_ok hyes
  exact (popTyped_takes hcondition).code

/-- **How `if$` is compiled**, from a machine `m` to `m'`.  Its operands lead to `m₁`, and its sides to `m₂` and `m₃`; then each frame
is viewed as if it had drawn as much as the hungrier one. -/
structure Fork (run : Procedure → Eval Unit) (m m₁ m₂ m₃ m₄ m₅ m' : Machine) (no yes : Procedure) (condition : Expr)
    (fy fn : Frame) (yesView noView : List Expr) (new : Block) : Prop where
  operands : sides m = .ok (no, yes, condition) m₁
  yesRun : inNested (run yes) m₁ = .ok fy m₂
  noRun : inNested (run no) m₂ = .ok fn m₃
  yesFull : fullView fy (max fy.drawn fn.drawn) m₃ = .ok yesView m₄
  noFull : fullView fn (max fy.drawn fn.drawn) m₄ = .ok noView m₅
  code : m'.frame.code = m.frame.code ++ new
  height : m'.frame.stack.length = yesView.length ∧ m'.frame.stack.length = noView.length
  drawn : m'.frame.drawn = m₁.frame.drawn + max fy.drawn fn.drawn
  /-- With a condition of more than zero the branch runs as the first side does. -/
  positive : ∀ rt ent s j, condition.Gives rt ent s.locals s.world (.int j) s.world → 0 < j →
    RunsAs rt ent m₅.scope.vars.size m'.scope.vars.size new fy.code yesView m'.frame.stack s
  /-- With a condition of zero or less it runs as the other side does. -/
  negative : ∀ rt ent s j, condition.Gives rt ent s.locals s.world (.int j) s.world → j ≤ 0 →
    RunsAs rt ent m₅.scope.vars.size m'.scope.vars.size new fn.code noView m'.frame.stack s

/-- **A branch runs as the side that is taken.**  Wherever the run of a body passes that compiles `if$`, executing what it adds to
the code has the effect of the side's own code on the world and on all variables that were there, and every slot of the one
stack is worth afterwards what the same slot of that side's view is worth when the side is done.  The stack is as high as both
views, and the frame has drawn as much more as the hungrier side. -/
theorem branch_merges {d : Dictionary} {depth k : Nat} {p : Procedure} {linkage : Linkage} {log : Array Event}
    {fs : List Frame} {m m' : Machine} (hm : Passes d depth p (.start linkage log) fs m)
    (h : branch (procedure d k) m = .ok () m') :
    ∃ m₁ m₂ m₃ m₄ m₅ no yes condition fy fn yesView noView new,
      Fork (procedure d k) m m₁ m₂ m₃ m₄ m₅ m' no yes condition fy fn yesView noView new := by
  have hproper : m.Proper .any := hm.frames_proper m.frame List.mem_cons_self
  have hrun : ∀ q, Proper .any 0 (procedure d k q) (fun _ _ => True) :=
    fun q => proper_procedure Custom.lawful_any d k 0 (fun t _ => Custom.admits_any t)
  rw [branch_eq] at h
  obtain ⟨⟨no, yes, condition⟩, m₁, hsides, hrest⟩ := bind_ok.1 h
  obtain ⟨fy, m₂, hyes, hrest⟩ := bind_ok.1 hrest
  obtain ⟨fn, m₃, hno, hrest⟩ := bind_ok.1 hrest
  obtain ⟨yesView, m₄, hyesView, hrest⟩ := bind_ok.1 hrest
  obtain ⟨noView, m₅, hnoView, hrest⟩ := bind_ok.1 hrest
  split at hrest
  · rename_i hlength
    obtain ⟨g, m₆, hmerge, hrest⟩ := bind_ok.1 hrest
    obtain ⟨_, m₇, hemit, hreplace⟩ := bind_ok.1 hrest
    obtain ⟨⟩ := hemit
    obtain ⟨⟩ := hreplace
    obtain ⟨b, hdeclared, hyesStored, hnoStored, hframe₆⟩ := mergeSlots_stored hlength hmerge
    have hframe : m₅.frame = m₁.frame := by
      obtain ⟨_, -, -, rfl⟩ := inNested_ok.1 hyes
      obtain ⟨_, -, -, rfl⟩ := inNested_ok.1 hno
      rw [(fullView_grown hnoView (Nat.le_max_right _ _)).1, (fullView_grown hyesView (Nat.le_max_left _ _)).1]
    -- every machine on the way is proper
    obtain ⟨hle₁, hproper₁, -, -, hcondition⟩ := (proper_sides Custom.lawful_any).ok hproper hsides
    obtain ⟨hle₂, hproper₂, hfy⟩ := (proper_inNested (hrun yes)).ok hproper₁ hyes
    obtain ⟨hle₃, hproper₃, hfn⟩ := (proper_inNested (hrun no)).ok hproper₂ hno
    obtain ⟨hle₄, hproper₄, hyesWaits⟩ := fullView_waits hproper₃ (hfy.mono hle₃) hyesView
    obtain ⟨hle₅, -, hnoWaits⟩ := fullView_waits hproper₄ (hfn.mono hle₄) hnoView
    have hc : condition.Waits m₅.scope.vars.size := (hcondition.mono (by omega)).lies.waits
    have hyesVars : ∀ x ∈ Block.vars fy.code, x < m₅.scope.vars.size := (hfy.code.mono (by omega)).vars_lt
    have hnoVars : ∀ x ∈ Block.vars fn.code, x < m₅.scope.vars.size := (hfn.code.mono (by omega)).vars_lt
    refine ⟨m₁, m₂, m₃, m₄, m₅, no, yes, condition, fy, fn, yesView, noView,
      b ++ [.branch condition (fy.code ++ g.yes) (fn.code ++ g.no)], hsides, hyes, hno, hyesView, hnoView, ?_, ?_, ?_, ?_, ?_⟩
    · simp only [hframe₆, hframe, sides_code hsides, List.append_assoc]
    · exact ⟨hyesStored.length_eq.symm, hnoStored.length_eq.symm⟩
    · simp only [hframe₆, hframe]
    · intro rt ent s j hj hpositive
      exact branch_runsAs hdeclared hc hj hyesStored (fun e he => (hyesWaits e he).mono hle₅) hyesVars (if_pos hpositive)
    · intro rt ent s j hj hnegative
      exact branch_runsAs hdeclared hc hj hnoStored hnoWaits hnoVars (if_neg (Int32.not_lt.2 hnegative))
  · exact absurd hrest throw_ok

/-- A condition, a side that puts a word in place of what the caller left, and a side that does nothing. -/
def replacing : Group where
  terms :=
    let place : Span := ⟨"", 1, 1, 1, 1⟩
    [.integer 1 place, .block [.name "pop$" place, .string "none" place] place, .block [] place]
  span := ⟨"", 1, 1, 1, 1⟩

/-- Only one side draws, and the slot is merged all the same. -/
theorem branch_merges_replacing :
    ∃ m m', Passes .initial 2 (.group replacing) (.start .empty #[]) [] m ∧ branch (procedure .initial 1) m = .ok () m' ∧
      (m'.frame.stack = [.var 1] ∧ m'.frame.drawn = 1) ∧
      ∃ m₁ m₂ m₃ m₄ m₅ no yes condition fy fn yesView noView new,
        Fork (procedure .initial 1) m m₁ m₂ m₃ m₄ m₅ m' no yes condition fy fn yesView noView new := by
  have hchecked : (EStateM.run' (procedure .initial 2 (.group replacing) >>= fun _ => get) (.start .empty #[])).any
      (fun m => (EStateM.run' (branch (procedure .initial 1) >>= fun _ => get) m).any
        (fun m' => decide (m'.frame.stack = [.var 1] ∧ m'.frame.drawn = 1))) = true := by decide +kernel
  obtain ⟨_, m, hbefore, hchecked⟩ := exists_ok_of_check hchecked
  obtain ⟨_, m', hbranch, hshape⟩ := exists_ok_of_check hchecked
  exact ⟨m, m', .done hbefore, hbranch, of_decide_eq_true hshape, branch_merges (.done hbefore) hbranch⟩

end Eval
end Bibstyle
