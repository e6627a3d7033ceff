import Bibstyle.Proofs.Conduct
/-!
# Passages — the machines that a run comes by

A body is run term by term, and a branch or a loop runs its procedures in frames of their own while the frames around them
wait.  `Passes` gives every machine that is come by on the way, at any depth, with all frames that wait there.  What a run
keeps, it keeps at each of them: nothing on any stack changes anything, and the code of a method has its effects in
statements of their own.
-/
namespace Bibstyle
namespace Eval

/-- **A primitive has a procedure run**: on which machine, and which frames wait for it.  The second side of a branch is run
when the frame of the first is done; the condition of a loop has to be tested before the body is run. -/
inductive Enters (run : Procedure → Eval Unit) : Primitive → Machine → Procedure → List Frame → Machine → Prop where
  | yes {m m₁ : Machine} {no yes : Procedure} {condition : Expr} (h : sides m = .ok (no, yes, condition) m₁) :
    Enters run .branch m yes [m₁.frame] { m₁ with frame := m₁.frame.nested }
  | no {m m₁ m₂ : Machine} {no yes : Procedure} {condition : Expr} {f : Frame} (h : sides m = .ok (no, yes, condition) m₁)
    (hyes : inNested (run yes) m₁ = .ok f m₂) :
    Enters run .branch m no [f, m₂.frame] { m₂ with frame := m₂.frame.nested }
  | condition {m m₁ : Machine} {body condition : Procedure} {vars : List VarId}
    (h : loopStart m = .ok (body, condition, vars) m₁) :
    Enters run .loop m condition [m₁.frame] { m₁ with frame := m₁.frame.nested }
  | body {m m₁ m₂ : Machine} {body condition : Procedure} {vars : List VarId} {test : Block × Expr}
    (h : loopStart m = .ok (body, condition, vars) m₁) (htest : loopTest (run condition) (vars.map .var) m₁ = .ok test m₂) :
    Enters run .loop m body [m₂.frame] { m₂ with frame := m₂.frame.nested }

/-- **The machines that a procedure comes by**, with the frames that wait. -/
inductive Passes (d : Dictionary) : Nat → Procedure → Machine → List Frame → Machine → Prop where
  | start (depth : Nat) (p : Procedure) (m : Machine) : Passes d depth p m [] m
  | done {depth : Nat} {p : Procedure} {m m' : Machine} (h : procedure d depth p m = .ok () m') : Passes d depth p m [] m'
  | fault {depth : Nat} {p : Procedure} {m m' : Machine} {e : AnalysisFault} (h : procedure d depth p m = .error e m') :
    Passes d depth p m [] m'
  /-- A term is done, and the rest of the group is run. -/
  | next {depth : Nat} {t : Term} {ts : List Term} {span : Span} {m m₁ m' : Machine} {fs : List Frame}
    (h : term d (procedure d depth) t m = .ok () m₁) (hrest : Passes d (depth + 1) (.group ⟨ts, span⟩) m₁ fs m') :
    Passes d (depth + 1) (.group ⟨t :: ts, span⟩) m fs m'
  /-- The first term of a group is a name. -/
  | name {depth : Nat} {n : String} {place span : Span} {ts : List Term} {m m' : Machine} {fs : List Frame}
    (h : Passes d (depth + 1) (.named n) { m with log := m.log.push (.evaluating (.name n place)) } fs m') :
    Passes d (depth + 1) (.group ⟨.name n place :: ts, span⟩) m fs m'
  /-- The name is that of a primitive, which has a procedure run. -/
  | nested {depth : Nat} {n : String} {p : Primitive} {q : Procedure} {m m₁ m' : Machine} {waiting fs : List Frame}
    (hn : d.get? n = some (.primitive p)) (h : Enters (procedure d depth) p m q waiting m₁) (hq : Passes d depth q m₁ fs m') :
    Passes d (depth + 1) (.named n) m (fs ++ waiting) m'

/-- **Procedures are run where they are entered and nowhere else**: how they run elsewhere makes no difference. -/
theorem primitive_congr {d : Dictionary} {run run' : Procedure → Eval Unit} {p : Primitive} {m : Machine}
    (h : ∀ q waiting m₁, Enters run p m q waiting m₁ → run q m₁ = run' q m₁) : primitive d run p m = primitive d run' p m := by
  have hnested : ∀ {x y : Eval Unit} {m : Machine}, x { m with frame := m.frame.nested } = y { m with frame := m.frame.nested } →
      inNested x m = inNested y m := by
    intro x y m hxy
    simp only [inNested, hxy]
  cases p with
  | branch =>
    change branch run m = branch run' m
    rw [branch_eq, branch_eq, bind_apply, bind_apply]
    cases hs : sides m with
    | error e m₁ => rfl
    | ok r m₁ =>
      obtain ⟨no, yes, condition⟩ := r
      dsimp only [runSides]
      rw [bind_apply, bind_apply, ← hnested (h yes _ _ (.yes hs))]
      cases hyes : inNested (run yes) m₁ with
      | error e m₂ => rfl
      | ok f m₂ =>
        dsimp only
        rw [bind_apply, bind_apply, ← hnested (h no _ _ (.no hs hyes))]
  | loop =>
    change loop run m = loop run' m
    rw [loop_eq, loop_eq, bind_apply, bind_apply]
    cases hs : loopStart m with
    | error e m₁ => rfl
    | ok r m₁ =>
      obtain ⟨body, condition, vars⟩ := r
      dsimp only
      have htest : loopTest (run condition) (vars.map .var) m₁ = loopTest (run' condition) (vars.map .var) m₁ := by
        rw [loopTest_eq, loopTest_eq, bind_apply, bind_apply, ← hnested (h condition _ _ (.condition hs))]
      rw [bind_apply, bind_apply, ← htest]
      cases ht : loopTest (run condition) (vars.map .var) m₁ with
      | error e m₂ => rfl
      | ok test m₂ =>
        dsimp only
        have hbody : loopBody (run body) vars m₂ = loopBody (run' body) vars m₂ := by
          unfold loopBody
          rw [bind_apply, bind_apply, ← hnested (h body _ _ (.body hs ht))]
        rw [bind_apply, bind_apply, hbody]
  | _ => rfl

/-! ## Passing properly -/

variable {c : Custom} {d : Dictionary}

/-- A run that has ended stays proper. -/
theorem Proper.ok {α : Type} {x : Eval α} {Q : α → Nat → Prop} {m m' : Machine} {a : α} (h : Proper c 0 x Q) (hm : m.Proper c)
    (hx : x m = .ok a m') : m.scope.vars.size ≤ m'.scope.vars.size ∧ m'.Proper c ∧ Q a m'.scope.vars.size := by
  have hrun := h m (Nat.zero_le _) hm
  rw [hx] at hrun
  exact hrun

theorem Proper.error {α : Type} {x : Eval α} {Q : α → Nat → Prop} {m m' : Machine} {e : AnalysisFault} (h : Proper c 0 x Q)
    (hm : m.Proper c) (hx : x m = .error e m') : m.scope.vars.size ≤ m'.scope.vars.size ∧ m'.Proper c ∧ c.fault e := by
  have hrun := h m (Nat.zero_le _) hm
  rw [hx] at hrun
  exact hrun

theorem nested_proper {m : Machine} (h : m.Proper c) : Machine.Proper c { m with frame := m.frame.nested } :=
  ⟨h.stack, .nil⟩

theorem Enters.proper {run : Procedure → Eval Unit} {p : Primitive} {q : Procedure} {m m₁ : Machine} {waiting : List Frame}
    (hc : c.Lawful) (hrun : ∀ n p, c.procedure p → Proper c n (run p) (fun _ _ => True)) (h : Enters run p m q waiting m₁)
    (hm : m.Proper c) : c.procedure q ∧ m.scope.vars.size ≤ m₁.scope.vars.size ∧ m₁.Proper c ∧
      ∀ f ∈ waiting, f.Proper c m₁.scope.vars.size := by
  cases h with
  | yes h =>
    obtain ⟨hle, hm₁, -, hyes, -⟩ := (proper_sides hc).ok hm h
    exact ⟨hyes, hle, nested_proper hm₁, List.forall_mem_singleton.2 hm₁⟩
  | no h hyes =>
    obtain ⟨hle, hm₁, hno, hpyes, -⟩ := (proper_sides hc).ok hm h
    obtain ⟨hle', hm₂, hf⟩ := (proper_inNested (hrun 0 _ hpyes)).ok hm₁ hyes
    exact ⟨hno, Nat.le_trans hle hle', nested_proper hm₂, List.forall_mem_cons.2 ⟨hf, List.forall_mem_singleton.2 hm₂⟩⟩
  | condition h =>
    obtain ⟨hle, hm₁, -, hcondition, -⟩ := (proper_loopStart hc).ok hm h
    exact ⟨hcondition, hle, nested_proper hm₁, List.forall_mem_singleton.2 hm₁⟩
  | body h htest =>
    obtain ⟨hle, hm₁, hbody, hcondition, -⟩ := (proper_loopStart hc).ok hm h
    obtain ⟨hle', hm₂, -⟩ := (proper_loopTest hc (hrun 0 _ hcondition) _).ok hm₁ htest
    exact ⟨hbody, Nat.le_trans hle hle', nested_proper hm₂, List.forall_mem_singleton.2 hm₂⟩

/-- **A run is proper wherever it passes**, and so are all frames that wait. -/
theorem Passes.proper (hc : c.Lawful) {depth : Nat} {p : Procedure} {m m' : Machine} {fs : List Frame}
    (h : Passes d depth p m fs m') (hp : ∀ t ∈ p.terms, c.Admits t) (hm : m.Proper c) :
    m.scope.vars.size ≤ m'.scope.vars.size ∧ m'.Proper c ∧ ∀ f ∈ fs, f.Proper c m'.scope.vars.size := by
  have hrun : ∀ depth n p, c.procedure p → Proper c n (procedure d depth p) (fun _ _ => True) :=
    fun depth n p hp => proper_procedure hc d depth n (hc.terms p hp)
  induction h with
  | start => exact ⟨Nat.le_refl _, hm, nofun⟩
  | @done depth _ _ _ h =>
    obtain ⟨hle, hm', -⟩ := (proper_procedure hc d depth 0 hp).ok hm h
    exact ⟨hle, hm', nofun⟩
  | @fault depth _ _ _ _ h =>
    obtain ⟨hle, hm', -⟩ := (proper_procedure hc d depth 0 hp).error hm h
    exact ⟨hle, hm', nofun⟩
  | @next depth _ _ _ _ _ _ _ h _ ih =>
    have hterms := List.forall_mem_cons.1 hp
    obtain ⟨hle, hm₁, -⟩ := (proper_term hc (hrun depth) hterms.1).ok hm h
    obtain ⟨hle', hm', hfs⟩ := ih hterms.2 hm₁
    exact ⟨Nat.le_trans hle hle', hm', hfs⟩
  | name _ ih => exact ih nofun hm
  | @nested depth _ _ _ _ _ _ _ _ _ h _ ih =>
    -- the frames that wait where the procedure is entered wait all along
    obtain ⟨hq, hle, hm₁, hwaiting⟩ := h.proper hc (hrun depth) hm
    obtain ⟨hle', hm', hfs⟩ := ih (hc.terms _ hq) hm₁
    refine ⟨Nat.le_trans hle hle', hm', List.forall_mem_append.2 ⟨hfs, fun f hf => (hwaiting f hf).mono hle'⟩⟩

/-- All frames that there are where a run passes are proper. -/
theorem Passes.frames_proper {depth : Nat} {p : Procedure} {linkage : Linkage} {log : Array Event} {m : Machine}
    {fs : List Frame} (h : Passes d depth p (.start linkage log) fs m) :
    ∀ f ∈ m.frame :: fs, f.Proper .any m.scope.vars.size := by
  obtain ⟨-, hm, hfs⟩ := h.proper Custom.lawful_any (fun t _ => Custom.admits_any t) (start_proper linkage log)
  exact List.forall_mem_cons.2 ⟨hm, hfs⟩

theorem routine_proper {depth : Nat} {function method : String} {body : Group} {vars : Variables} {linkage : Linkage}
    {log : Array Event} {r : Routine} {m : Machine}
    (h : routine d depth function method body (.ready vars linkage log) = .ok r m) : r.Proper :=
  (proper_routine Custom.lawful_any d depth function method (fun t _ => Custom.admits_any t)).ok
    (m := .ready vars linkage log) (start_proper linkage log) h

theorem command_proper {depth : Nat} {mode : RunMode} {n : String} {vars : Variables} {linkage : Linkage} {log : Array Event}
    {code : Block} {m : Machine} (h : command d depth mode n (.ready vars linkage log) = .ok code m) : Block.Proper 0 code :=
  (proper_command Custom.lawful_any d depth mode n).ok (m := .ready vars linkage log) (start_proper linkage log) h

end Eval

/-! ## Effects -/

/-- **An act with its effects in place**: only what is evaluated for nothing else, or is the value of a new variable, changes
something, and no procedure is left. -/
structure Act.Confined (a : Act) : Prop where
  values : ∀ e, a.expr? = some e → ∀ x ∈ e.nodes, x.isValue = true
  below : ∀ e, a.expr? = some e → ∀ x ∈ e.nodes.tail, x.isEffect = false
  root : ∀ e, (∃ t, a = .assign t e) ∨ a = .test e → e.isEffect = false

/-- **A method with its effects in place.** -/
structure Routine.Confined (r : Routine) : Prop where
  body : ∀ q ∈ Stmt.actsAll false r.body, q.2.Confined
  result : ∀ e, r.result = some e → ∀ x ∈ e.nodes, x.isValue = true ∧ x.isEffect = false

theorem Act.Proper.confined {n : Nat} {a : Act} (h : a.Proper n) : a.Confined where
  values e he := by
    have hroot := h.root
    apply Expr.isValue_of_proper (h.nodes e he)
    cases a with
    | eval e' => cases he; exact hroot
    | declare v init => cases he; exact hroot.2 e rfl
    | assign t e' => cases he; exact hroot.2.1
    | test e' => cases he; exact hroot.1
  below e he x hx := (Expr.isOperand_of_mem_tail (h.nodes e he) x hx).2
  root e he := by
    have hroot := h.root
    obtain ⟨t, rfl⟩ | rfl := he
    · exact hroot.2.2
    · exact hroot.2

theorem Routine.Proper.confined {r : Routine} (h : r.Proper) : r.Confined where
  body q hq := (h.body q hq).confined
  result e he := by
    obtain ⟨hnodes, hoperand⟩ := h.result e he
    rw [Expr.nodes_eq_cons, List.forall_mem_cons]
    exact ⟨hoperand, Expr.isOperand_of_mem_tail hnodes⟩

namespace Eval

/-- **Effects stand alone, and only values are written.**  Procedures are run where they are entered and nowhere else, so a run
comes by no machines but those that it passes.  Wherever it passes, nothing on any of the stacks changes anything, and of the
values there only variables are of unknown type.  In the code of a method and in its result, reduced or not, no procedure is
left; what changes something is a statement of its own or the whole first value of a variable. -/
theorem effects_confined (d : Dictionary) (depth : Nat) (linkage : Linkage) (log : Array Event) :
    (∀ run run' p m, (∀ q waiting m₁, Enters run p m q waiting m₁ → run q m₁ = run' q m₁) →
      primitive d run p m = primitive d run' p m) ∧
    (∀ p fs m, Passes d depth p (.start linkage log) fs m → ∀ f ∈ m.frame :: fs, ∀ e ∈ f.stack,
      e.isPure = true ∧ (e.isValue = true → e.ty m.scope = .generic → ∃ v, e = .var v)) ∧
    ∀ vars function method body r m, routine d depth function method body (.ready vars linkage log) = .ok r m →
      r.Confined ∧ r.reduce.Confined := by
  refine ⟨fun run run' p m => primitive_congr, ?_, ?_⟩
  · intro p fs m h f hf e he
    have hlies := (h.frames_proper f hf).stack e he
    exact ⟨Expr.isPure_of_proper hlies.nodes hlies.calm, hlies.known m.scope⟩
  · intro vars function method body r m h
    have hproper := routine_proper h
    exact ⟨hproper.confined, hproper.reduce.confined⟩

/-! ## Sides that draw differently -/

def inLine : Span := ⟨"", 1, 1, 1, 1⟩

def subtracting : Group :=
  ⟨[.name "-" inLine], inLine⟩

def dropping : Group :=
  ⟨[.name "pop$" inLine, .name "newline$" inLine], inLine⟩

/-- Subtracts a value from the one below it, or drops it and ends the line. -/
def subtractOrDrop : Group :=
  ⟨[subtracting.toTerm, dropping.toTerm, .name "if$" inLine], inLine⟩

/-- The machine that comes to `if$`. -/
def choosing : Machine :=
  let m := Machine.start .empty #[.evaluating subtracting.toTerm, .evaluating dropping.toTerm, .evaluating (.name "if$" inLine)]
  { m with frame := { m.frame with stack := [.block dropping, .block subtracting] } }

/-- The run of the two sides, and the frames that wait when the second has ended. -/
def drawing : Eval (List Frame) := do
  let (no, yes, _) ← sides
  let first ← inNested (procedure .initial 1 yes)
  let waiting := (← get).frame
  modify (fun m => { m with frame := m.frame.nested })
  procedure .initial 1 no
  return [first, waiting]

theorem sides_choosing : ∃ m, sides choosing = .ok (.group dropping, .group subtracting, .var 0) m :=
  ⟨_, rfl⟩

theorem drawing_passes {m : Machine} {fs : List Frame} (h : drawing choosing = .ok fs m) :
    Passes .initial 2 (.group subtractOrDrop) (.start .empty #[]) fs m := by
  obtain ⟨⟨no, yes, c⟩, m₁, hsides, h⟩ := bind_ok.1 h
  obtain ⟨first, m₂, hyes, h⟩ := bind_ok.1 h
  obtain ⟨_, m₃, hget, h⟩ := bind_ok.1 h
  cases hget
  obtain ⟨_, m₄, hnested, h⟩ := bind_ok.1 h
  cases hnested
  obtain ⟨_, m₅, hno, h⟩ := bind_ok.1 h
  cases h
  exact .next rfl (.next rfl (.name (.nested rfl (.no hsides hyes) (.done hno))))

/-- A branch runs its two sides and could run nothing else; one of them has drawn further than the other, and nothing that waits
changes anything; the method ends the line and has its effects in place. -/
theorem effects_confined_draws :
    (∀ run : Procedure → Eval Unit, primitive .initial run .branch choosing = primitive .initial
      (fun q => if q = .group subtracting ∨ q = .group dropping then run q else throw .exhausted) .branch choosing) ∧
    (∃ fs m, Passes .initial 2 (.group subtractOrDrop) (.start .empty #[]) fs m ∧
      fs.map (fun f => (f.drawn, f.stack)) = [(2, [.binary .sub (.var 2) (.var 1)]), (1, [])] ∧
      ∀ f ∈ m.frame :: fs, ∀ e ∈ f.stack, e.isPure = true) ∧
    ∃ r m, routine .initial 2 "f" "f" subtractOrDrop (.ready .empty .empty #[]) = .ok r m ∧
      (∃ q ∈ Stmt.actsAll false r.reduce.body, q.2.expr? = some (.effectCall "bibWriter.println" [])) ∧
      r.Confined ∧ r.reduce.Confined := by
  obtain ⟨hcongr, hpasses, hroutine⟩ := effects_confined .initial 2 .empty #[]
  refine ⟨fun run => hcongr run _ .branch choosing (fun q waiting m₁ henters => ?_), ?_, ?_⟩
  · obtain ⟨m, hsides⟩ := sides_choosing
    cases henters with
    | yes h =>
      rw [hsides] at h
      cases h
      rw [if_pos (.inl rfl)]
    | no h hyes =>
      rw [hsides] at h
      cases h
      rw [if_pos (.inr rfl)]
  · have hchecked : (EStateM.run' drawing choosing).any (fun fs =>
        fs.map (fun f => (f.drawn, f.stack)) == [(2, [.binary .sub (.var 2) (.var 1)]), (1, [])]) = true := by decide +kernel
    obtain ⟨fs, m, h, hframes⟩ := exists_value_of_check hchecked
    have hpass := drawing_passes h
    exact ⟨fs, m, hpass, eq_of_beq hframes, fun f hf e he => (hpasses _ fs m hpass f hf e he).1⟩
  · have hchecked : (EStateM.run' (routine .initial 2 "f" "f" subtractOrDrop) (.ready .empty .empty #[])).any (fun r =>
        (Stmt.actsAll false r.reduce.body).any (·.2.expr? == some (.effectCall "bibWriter.println" []))) = true := by
      decide +kernel
    obtain ⟨r, m, h, hprints⟩ := exists_value_of_check hchecked
    obtain ⟨q, hq, hprint⟩ := List.any_eq_true.1 hprints
    exact ⟨r, m, h, ⟨q, hq, eq_of_beq hprint⟩, hroutine _ _ _ _ r m h⟩

end Eval
end Bibstyle
