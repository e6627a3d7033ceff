import Bibstyle.Proofs.Equality
import Bibstyle.Proofs.Pending
/-!
# Missing — what `missing$` answers

Only a field can be missing, and whatever a field has been put into: a variable of the method, or what a function of the
style has returned.  `missing$` asks the entry about a field, has a variable looked at when the script runs, and answers 0
for everything else, which cannot be missing.  But it takes it that an integer cannot be missing either, and a variable is
an integer as soon as any part of the body has used it as one.  So a variable that holds a missing field goes for present
where a side of a branch that is not run adds to it.
-/
namespace Bibstyle

/-- **A runtime in which only fields are missing**, and which can tell: what it computes never is. -/
structure Runtime.TellsMissing (rt : Runtime) : Prop where
  value : ∀ ent v, rt.methodOf ent (.runtime Helper.isMissing.name) [v] = some (.ofBool (v == .missing))
  field : ∀ e n, rt.methodOf (some e) (.runtime "entry.isMissing") [.str n] = some (.ofBool (rt.field e n == .missing))
  text : ∀ ent t, rt.textOf ent t ≠ some .missing
  method : ∀ ent f args, rt.methodOf ent (.runtime f) args ≠ some .missing

/-- **A world in which no string variable holds a missing value.** -/
structure World.Present (d : Dictionary) (w : World) : Prop where
  globals : ∀ id, d.Global id .string → w.globals id ≠ .missing
  entryVars : ∀ n, d.EntryVar n .string → ∀ e, w.entryVars e n ≠ .missing

/-! ## The test -/

theorem Dictionary.Global.eq_string {d : Dictionary} {id : String} {t : Ty} (h : d.Global id t) (ht : t ≠ .int) :
    t = .string := by
  obtain ⟨n, m, -, hm⟩ := h
  cases m <;> cases hm
  · exact absurd rfl ht
  · rfl

theorem Dictionary.EntryVar.eq_string {d : Dictionary} {n : String} {t : Ty} (h : d.EntryVar n t) (ht : t ≠ .int) :
    t = .string := by
  obtain ⟨m, -, hm⟩ := h
  cases m <;> cases hm
  · exact absurd rfl ht
  · rfl

theorem BinaryOp.apply_ne_missing {op : BinaryOp} {a b : Value} : op.apply a b ≠ some .missing := by
  cases op <;> cases a <;> cases b <;> exact nofun

theorem CompareOp.apply_ne_missing {op : CompareOp} {a b : Value} : op.apply a b ≠ some .missing := by
  cases op <;> cases a <;> cases b <;> exact nofun

namespace Eval

/-- What `missing$` leaves for an operand. -/
def missingTest (s : Scope) : Expr → Expr
  | .field n => .pureCall "entry.isMissing" [.str n] .int
  | e => if mayBeMissing s e then .pureCall Helper.isMissing.name [e] .int else .int 0

theorem missing_ok {m m' : Machine} (h : missing m = .ok () m') :
    ∃ e m₁, popTyped .generic "missing$" m = .ok e m₁ ∧ m'.scope = m₁.scope ∧
      m'.frame = { m₁.frame with stack := missingTest m₁.scope e :: m₁.frame.stack } := by
  obtain ⟨a, m₀, hpop, h⟩ := bind_ok.1 h
  obtain ⟨e, m₁, hcheck, h⟩ := bind_ok.1 h
  refine ⟨e, m₁, bind_ok.2 ⟨a, m₀, hpop, hcheck⟩, ?_⟩
  cases e with
  | field n =>
    cases h
    exact ⟨rfl, rfl⟩
  | _ =>
    obtain ⟨_, m₂, hget, h⟩ := bind_ok.1 h
    cases hget
    split at h
    · rename_i hmay
      obtain ⟨_, m₃, hlink, hpush⟩ := bind_ok.1 h
      obtain ⟨hframe, hscope⟩ := link_ok hlink
      cases hpush
      rw [missingTest, if_pos hmay, ← hframe]
      · exact ⟨hscope, rfl⟩
      · exact nofun
    · rename_i hmay
      cases h
      rw [missingTest, if_neg hmay]
      · exact ⟨rfl, rfl⟩
      · exact nofun

variable {d : Dictionary} {rt : Runtime} {ent : Option Entry} {ρ : Locals} {w w' : World} {s : Scope}

/-- A node that reads of the world only what is declared. -/
def ReadsDeclared (d : Dictionary) (x : Expr) : Prop :=
  x.isStateRead = true → d.Reads x

theorem ordinary_readsDeclared (d : Dictionary) : Ordinary (ReadsDeclared d) := by
  intro x _ hread h
  rw [hread] at h
  cases h

/-- **What is not tested when the script runs is not missing**, unless it goes for an integer. -/
theorem ne_missing {e : Expr} {v : Value} (hrt : rt.TellsMissing) (hw : w.Present d) (hvalue : e.isValue = true)
    (hcalm : e.isEffect = false) (hreads : ReadsDeclared d e) (hfield : ∀ n, e ≠ .field n)
    (htest : mayBeMissing s e = false) (hty : e.ty s ≠ .int) (h : e.Gives rt ent ρ w v w') : v ≠ .missing := by
  rintro rfl
  cases e with
  | int | str => cases h.1
  | quoted | block => cases hvalue
  | field n => exact hfield n rfl
  | var x => exact hty (by simpa [mayBeMissing] using htest : s.ty x = .int)
  | global id t =>
    cases hreads rfl with
    | global hid =>
      obtain rfl := hid.eq_string hty
      exact hw.globals id hid (Option.some.inj h.1)
  | entryVar n t =>
    cases hreads rfl with
    | entryVar hn =>
      obtain rfl := hn.eq_string hty
      obtain ⟨e, -, he⟩ := Option.map_eq_some_iff.1 h.1
      exact hw.entryVars n hn e he
  | entry =>
    obtain ⟨e, -, he⟩ := Option.map_eq_some_iff.1 h.1
    cases he
  | verbatim t => exact hrt.text _ _ h.1
  | call c args t effect =>
    obtain rfl : effect = false := hcalm
    cases c with
    | style => exact hty (by simpa [mayBeMissing] using htest : t = .int)
    | runtime f =>
      obtain ⟨vs, -, hv⟩ := h
      exact hrt.method _ f vs hv
  | binary op l r =>
    obtain ⟨a, w₁, b, -, -, hv⟩ := h
    exact BinaryOp.apply_ne_missing hv
  | compare op l r =>
    obtain ⟨a, w₁, b, -, -, hv⟩ := h
    exact CompareOp.apply_ne_missing hv

theorem ty_of_mayBeMissing {e : Expr} (h : mayBeMissing s e = true) : e.ty s ≠ .int := by
  cases e with
  | var x => exact (by simpa [mayBeMissing] using h : s.ty x ≠ .int)
  | call c => cases c <;> simp_all [mayBeMissing, Expr.ty]
  | _ => cases h

/-- A pure call of one argument is worth what the runtime says. -/
theorem gives_call_iff {e : Expr} {f : String} {t : Ty} {v u : Value} (hpure : e.isPure = true) (h : e.Gives rt ent ρ w v w) :
    (Expr.pureCall f [e] t).Gives rt ent ρ w u w' ↔ rt.methodOf ent (.runtime f) [v] = some u ∧ w' = w := by
  constructor
  · rintro ⟨vs, ⟨v', w₁, vs', hv', ⟨rfl, rfl⟩, rfl⟩, hu⟩
    obtain rfl := h.unique hpure hv'
    exact ⟨hu, hv'.world_eq hpure⟩
  · rintro ⟨hu, rfl⟩
    exact ⟨[v], ⟨v, w', [], h, ⟨rfl, rfl⟩, rfl⟩, hu⟩

/-- **What `missing$` leaves for an operand is worth 1 if the operand is missing and does not go for an integer**, and
otherwise 0. -/
theorem missingTest_gives_iff {e : Expr} {v u : Value} {n : Nat} (hrt : rt.TellsMissing) (hw : w.Present d) (he : e.Taken .any n)
    (hreads : ReadsDeclared d e) (h : e.Gives rt ent ρ w v w) :
    (missingTest s e).Gives rt ent ρ w u w' ↔ u = .ofBool (v == .missing && e.ty s != .int) ∧ w' = w := by
  have hpure := Expr.isPure_of_proper he.lies.nodes he.lies.calm
  -- what the runtime answers is what is to be answered for anything that does not go for an integer
  have hanswer : e.ty s ≠ .int → (some (Value.ofBool (v == .missing)) = some u ∧ w' = w ↔
      u = .ofBool (v == .missing && e.ty s != .int) ∧ w' = w) := by
    intro hty
    rw [bne_iff_ne.2 hty, Bool.and_true, Option.some_inj, eq_comm]
  by_cases hfield : ∃ name, e = .field name
  · obtain ⟨name, rfl⟩ := hfield
    obtain ⟨entry, rfl, rfl⟩ := Option.map_eq_some_iff.1 h.1
    have hname : (Expr.str name).Gives rt (some entry) ρ w (.str name) w := ⟨rfl, rfl⟩
    rw [missingTest, gives_call_iff rfl hname, hrt.field]
    exact hanswer nofun
  · have hleft : missingTest s e =
        if mayBeMissing s e then .pureCall Helper.isMissing.name [e] .int else .int 0 :=
      missingTest.eq_2 s e (fun name hname => hfield ⟨name, hname⟩)
    rw [hleft]
    split
    · rename_i hmay
      rw [gives_call_iff hpure h, hrt.value]
      exact hanswer (ty_of_mayBeMissing hmay)
    · rename_i hmay
      have hpresent : (v == .missing && e.ty s != .int) = false := by
        by_cases hty : e.ty s = .int
        · simp [hty]
        · have hv := ne_missing hrt hw he.value he.lies.calm hreads (fun name hname => hfield ⟨name, hname⟩)
            (Bool.eq_false_iff.2 hmay) hty h
          simp [hv]
      rw [hpresent]
      exact ⟨fun hu => ⟨(Option.some.inj hu.1).symm, hu.2⟩, fun hu => ⟨congrArg some hu.1.symm, hu.2⟩⟩

/-! ## Whole runs -/

/-- **`missing$` tells what is missing**, wherever in a finished method a body comes to it.  It takes its operand off the stack
and leaves a test there; wherever the operand is worth something, the test is worth 1 if that is missing and the operand
does not go for an integer, and otherwise 0. -/
theorem missing_tells {depth : Nat} {function method : String} {body : Group} {vars : Variables} {linkage : Linkage}
    {log : Array Event} {r : Routine} {m m₁ : Machine}
    (h : routine d depth function method body (.ready vars linkage log) = .ok r m)
    (hmeets : Meets d (depth + 1) (.group body) (.start linkage log) .missing m₁) :
    ∃ e test rest m₂, missing m₁ = .ok () m₂ ∧ Yields m₂.scope m₁.frame.stack [e] rest ∧
      m₂.frame.stack = test :: rest ∧ m₂.frame.code = m₁.frame.code ∧ (e.ty m₂.scope = .int → e.ty r.scope = .int) ∧
      ∀ rt ent ρ w v w₁, Runtime.TellsMissing rt → w.Present d → e.Gives rt ent ρ w v w₁ →
        w₁ = w ∧ ∀ u w', test.Gives rt ent ρ w u w' ↔ u = .ofBool (v == .missing && e.ty m₂.scope != .int) ∧ w' = w := by
  obtain ⟨m', value, hterms, -, rfl, -⟩ := routine_ok h
  obtain ⟨k, m₂, hmissing, hsharp⟩ := hmeets.ends hterms
  obtain ⟨fs, hpasses⟩ := hmeets.passes
  have hproper : m₁.Proper .any := hpasses.frames_proper _ List.mem_cons_self
  obtain ⟨e, m₃, hpop, hscope, hframe⟩ := missing_ok hmissing
  have hfinds := popTyped_finds hproper hpop
  have htakes := popTyped_takes hpop
  have hnodes := hmeets.all (ordinary_readsDeclared d) (fun x hx _ => hx) (fun l r hread => by cases hread)
    ⟨List.forall_mem_nil _, .nil⟩
  obtain ⟨-, -, hdeclared⟩ := builds_popTyped (ordinary_readsDeclared d) _ _ m₁ e m₃ hnodes hpop
  refine ⟨e, missingTest m₂.scope e, m₃.frame.stack, m₂, hmissing, ?_, ?_, ?_, ?_, ?_⟩
  · rw [hscope]
    exact htakes.yields
  · rw [hframe, hscope]
  · rw [hframe]
    exact htakes.code
  · exact fun hty => Expr.ty_of_sharpens (hsharp.trans m'.scope.sharpens_named) hty (by decide)
  · intro rt ent ρ w v w₁ hrt hw hgives
    obtain rfl := hgives.world_eq (Expr.isPure_of_proper hfinds.taken.lies.nodes hfinds.taken.lies.calm)
    refine ⟨rfl, fun u w' => missingTest_gives_iff hrt hw hfinds.taken (hdeclared e ?_) hgives⟩
    rw [Expr.nodes_eq_cons]
    exact List.mem_cons_self

/-! ## An author who is missing -/

/-- A style with a field, a flag, and a function that returns what it is given. -/
def authorship : Dictionary :=
  ⟨[("author", .field), ("flag", .globalInteger "flag"), ("id", .routine ⟨"id", [.generic], false, .generic⟩),
    ("+", .primitive .add), ("empty$", .primitive .empty), ("missing$", .primitive .missing), ("if$", .primitive .branch)]⟩

def nowhere : Span := ⟨"", 1, 1, 1, 1⟩

/-- The author has gone through a function, and is used if the flag is set. -/
def authorUsed (use : List Term) : List Term :=
  [.name "author" nowhere, .name "id" nowhere, .name "flag" nowhere, .block use nowhere,
   .block [.name "missing$" nowhere] nowhere]

/-- Asks whether the author is missing if the flag is not set. -/
def authorAsked (use : List Term) : Group :=
  ⟨authorUsed use ++ [.name "if$" nowhere], nowhere⟩

/-- The author is looked at as a string. -/
def emptyTested : List Term := [.name "empty$" nowhere]

/-- The author is added to. -/
def incremented : List Term := [.integer 1 nowhere, .name "+" nowhere]

/-- The run of the body up to `missing$`, and that: the side in which it stands, and the stacks before it and after it. -/
def authorAsking (use : List Term) : Eval (Procedure × List Expr × List Expr) := do
  terms authorship (procedure authorship 1) (authorUsed use)
  modify (fun m => { m with log := m.log.push (.evaluating (.name "if$" nowhere)) })
  let (no, yes, _) ← sides
  let _ ← inNested (procedure authorship 1 yes)
  modify (fun m => { m with frame := m.frame.nested, log := m.log.push (.evaluating (.name "missing$" nowhere)) })
  let before := (← get).frame.stack
  missing
  return (no, before, (← get).frame.stack)

theorem authorAsking_meets {use : List Term} {before after : List Expr}
    (h : (EStateM.run' (authorAsking use) (.start .empty #[])).any
      (· == (.group ⟨[.name "missing$" nowhere], nowhere⟩, before, after)) = true) :
    ∃ m₁ m₂, Meets authorship 2 (.group (authorAsked use)) (.start .empty #[]) .missing m₁ ∧ missing m₁ = .ok () m₂ ∧
      m₁.frame.stack = before ∧ m₂.frame.stack = after := by
  obtain ⟨a, m, h, ha⟩ := exists_value_of_check h
  obtain rfl := eq_of_beq ha
  obtain ⟨_, m₁, hterms, h⟩ := bind_ok.1 h
  obtain ⟨_, m₂, hlog, h⟩ := bind_ok.1 h
  cases hlog
  obtain ⟨⟨no, yes, c⟩, m₃, hsides, h⟩ := bind_ok.1 h
  obtain ⟨f, m₄, hyes, h⟩ := bind_ok.1 h
  obtain ⟨_, m₅, hnested, h⟩ := bind_ok.1 h
  cases hnested
  obtain ⟨_, m₆, hget, h⟩ := bind_ok.1 h
  cases hget
  obtain ⟨_, m₇, hmissing, h⟩ := bind_ok.1 h
  cases h
  exact ⟨_, _, .after hterms (.name (.nested rfl (.no hsides hyes) (.name (.here rfl)))), hmissing, rfl, rfl⟩

/-- A runtime in which all fields are missing, and functions return what they are given. -/
def anonymous : Runtime where
  field _ _ := .missing
  text _ := none
  entryText _ _ := none
  method
    | .runtime "isMissing", [v] => some (.ofBool (v == .missing))
    | _, _ => none
  entryMethod _
    | .runtime "entry.isMissing", [_] => some (.ofBool true)
    | _, _ => none
  effect _ args w v w' := args = [v] ∧ w' = w

theorem anonymous_tells : anonymous.TellsMissing where
  value _ _ := rfl
  field _ _ := rfl
  text ent _ := by cases ent <;> exact nofun
  method ent f args h := by
    obtain h | ⟨-, h⟩ := Option.or_eq_some_iff.1 h
    · dsimp only [anonymous] at h
      split at h <;> cases h
    · obtain ⟨e, -, h⟩ := Option.bind_eq_some_iff.1 h
      dsimp only [anonymous] at h
      split at h <;> cases h

/-- A world in which nothing is set. -/
def blank : World :=
  ⟨fun _ => .int 0, fun _ _ => .int 0, [], []⟩

theorem blank_present (d : Dictionary) : blank.Present d :=
  ⟨fun _ _ => nofun, fun _ _ _ => nofun⟩

/-- Where the other side takes the author for a string, the variable is looked at. -/
theorem missing_tells_string :
    ∃ r m m₁ m₂ test, routine authorship 1 "f" "f" (authorAsked emptyTested) (.start .empty #[]) = .ok r m ∧
      Meets authorship 2 (.group (authorAsked emptyTested)) (.start .empty #[]) .missing m₁ ∧
      missing m₁ = .ok () m₂ ∧ m₁.frame.stack = [.var 0] ∧ m₂.frame.stack.head? = some test ∧
      test.Gives anonymous (some 0) (fun _ => some .missing) blank (.int 1) blank ∧
      test.Gives anonymous (some 0) (fun _ => some (.str "")) blank (.int 0) blank := by
  have hmet : (EStateM.run' (authorAsking emptyTested) (.start .empty #[])).any
      (· == (.group ⟨[.name "missing$" nowhere], nowhere⟩, [.var 0], [.pureCall "isMissing" [.var 0] .int])) = true := by
    decide +kernel
  obtain ⟨m₁, m₂, hmeets, -, hbefore, -⟩ := authorAsking_meets hmet
  have hchecked : (EStateM.run' (routine authorship 1 "f" "f" (authorAsked emptyTested)) (.start .empty #[])).any
      (fun r => r.scope.ty 0 == .string) = true := by decide +kernel
  obtain ⟨r, m, h, hty⟩ := exists_value_of_check hchecked
  obtain ⟨e, test, rest, m₂, hmissing, ⟨drawn, hyields, -, -⟩, hafter, -, hint, htells⟩ := missing_tells h hmeets
  rw [hbefore] at hyields
  obtain ⟨rfl, -⟩ := List.cons.inj hyields
  have hlooked : ((Expr.var 0).ty m₂.scope != .int) = true := by
    refine bne_iff_ne.2 (fun hty' => ?_)
    exact absurd ((eq_of_beq hty).symm.trans (hint hty')) (by decide)
  have hgives (v : Value) : test.Gives anonymous (some 0) (fun _ => some v) blank (.ofBool (v == .missing)) blank := by
    refine ((htells anonymous (some 0) _ blank v blank anonymous_tells (blank_present _) ⟨rfl, rfl⟩).2 _ _).2 ⟨?_, rfl⟩
    rw [hlooked, Bool.and_true]
  exact ⟨r, m, m₁, m₂, test, h, hmeets, hmissing, hbefore, by rw [hafter]; rfl, hgives .missing, hgives (.str "")⟩

/-- Whether a method puts the author into a variable and stores 0 where it asks for it. -/
def answersZero (r : Routine) : Bool :=
  match r.body, r.result with
  | [.declare 0 (some first), .declare 1 none, .branch c _ [.assign (.var 1) answer]], some value =>
    first == .call (.style "id") [.field "author"] .generic true && c == .global "flag" .int && answer == .int 0 &&
      value == .var 1
  | _, _ => false

/-- **A missing value goes for present** where a side that is not run adds to it: `missing$` leaves 0 for the variable that
holds it, and the method returns 0. -/
theorem missing_goes_for_integer :
    anonymous.TellsMissing ∧ blank.Present authorship ∧
      ∃ r m m₁ m₂ s, routine authorship 1 "f" "f" (authorAsked incremented) (.start .empty #[]) = .ok r m ∧
        Meets authorship 2 (.group (authorAsked incremented)) (.start .empty #[]) .missing m₁ ∧
        missing m₁ = .ok () m₂ ∧ m₁.frame.stack = [.var 0] ∧ m₂.frame.stack = [.int 0] ∧
        Runs anonymous (.block (r.body.take 1)) (some 0) ⟨fun _ => none, blank⟩ s ∧ s.locals 0 = some .missing ∧
        r.Completes anonymous (some 0) ⟨fun _ => none, blank⟩ (some (.int 0)) blank := by
  have hmet : (EStateM.run' (authorAsking incremented) (.start .empty #[])).any
      (· == (.group ⟨[.name "missing$" nowhere], nowhere⟩, [.var 0], [.int 0])) = true := by decide +kernel
  obtain ⟨m₁, m₂, hmeets, hmissing, hbefore, hafter⟩ := authorAsking_meets hmet
  have hchecked : (EStateM.run' (routine authorship 1 "f" "f" (authorAsked incremented))
      (.start .empty #[])).any answersZero = true := by decide +kernel
  obtain ⟨r, m, h, hr⟩ := exists_value_of_check hchecked
  unfold answersZero at hr
  split at hr
  · rename_i first c yes answer value hbody hresult
    simp only [Bool.and_eq_true, beq_iff_eq] at hr
    obtain ⟨⟨⟨rfl, rfl⟩, rfl⟩, rfl⟩ := hr
    have hfirst : Runs anonymous (.stmt (.declare 0 (some (.call (.style "id") [.field "author"] .generic true)))) (some 0)
        ⟨fun _ => none, blank⟩ ⟨Locals.set (fun _ => none) 0 (some .missing), blank⟩ :=
      .init ⟨[.missing], blank, ⟨.missing, blank, [], ⟨rfl, rfl⟩, ⟨rfl, rfl⟩, rfl⟩, rfl, rfl⟩
    refine ⟨anonymous_tells, blank_present _, r, m, m₁, m₂, ⟨Locals.set (fun _ => none) 0 (some .missing), blank⟩, h, hmeets,
      hmissing, hbefore, hafter, ?_, rfl, ?_⟩
    · rw [hbody]
      exact .single hfirst
    · rw [Routine.Completes, hbody, hresult]
      refine ⟨_, .cons hfirst (.cons .declare (.single (.no ⟨rfl, rfl⟩ (by decide) (.single (.assign ⟨rfl, rfl⟩ rfl))))), ?_⟩
      exact ⟨_, ⟨rfl, rfl⟩, rfl⟩
  · cases hr

end Eval
end Bibstyle
