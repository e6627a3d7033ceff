import Bibstyle.Proofs.Execution
/-!
# Calls — methods that call methods

A method runs in a runtime that says what calls do, and a call of a style's function runs a method again.  So what calls
do is built up by how deeply they nest: calls that nest at most `n` deep run methods whose calls nest less deeply.  A run
of a whole program ends if it does so at some depth.
-/
namespace Bibstyle

/-- What calls for an effect do. -/
abbrev Effect := Callee → List Value → World → Value → World → Prop

namespace Runtime

variable {rt : Runtime} {E E' : Effect} {ent : Option Entry} {ρ : Locals}

mutual

/-- More effects give an expression more ways to end. -/
theorem gives_mono (hE : ∀ c vs w v w', E c vs w v w' → E' c vs w v w') : ∀ {e : Expr} {w w' : World} {v : Value},
    e.Gives { rt with effect := E } ent ρ w v w' → e.Gives { rt with effect := E' } ent ρ w v w'
  | .call c args t false, _, _, _, h => by
    obtain ⟨vs, hvs, hv⟩ := h
    exact ⟨vs, givesAll_mono hE hvs, hv⟩
  | .call c args t true, _, _, _, h => by
    obtain ⟨vs, w₁, hvs, hv⟩ := h
    exact ⟨vs, w₁, givesAll_mono hE hvs, hE _ _ _ _ _ hv⟩
  | .binary op l r, _, _, _, h | .compare op l r, _, _, _, h => by
    obtain ⟨a, w₁, b, hl, hr, hv⟩ := h
    exact ⟨a, w₁, b, gives_mono hE hl, gives_mono hE hr, hv⟩
  | .int _, _, _, _, h | .str _, _, _, _, h | .quoted _, _, _, _, h | .var _, _, _, _, h | .global _ _, _, _, _, h
  | .field _, _, _, _, h | .entryVar _ _, _, _, _, h | .entry, _, _, _, h | .verbatim _ _, _, _, _, h
  | .block _, _, _, _, h => h

theorem givesAll_mono (hE : ∀ c vs w v w', E c vs w v w' → E' c vs w v w') : ∀ {es : List Expr} {w w' : World}
    {vs : List Value}, Expr.GivesAll { rt with effect := E } ent ρ es w vs w' →
      Expr.GivesAll { rt with effect := E' } ent ρ es w vs w'
  | [], _, _, _, h => h
  | _ :: _, _, _, _, h => by
    obtain ⟨v, w₁, vs', hv, hvs, rfl⟩ := h
    exact ⟨v, w₁, vs', gives_mono hE hv, givesAll_mono hE hvs, rfl⟩

end

theorem runs_mono (hE : ∀ c vs w v w', E c vs w v w' → E' c vs w v w') {j : Job} {s s' : Store}
    (h : Runs { rt with effect := E } j ent s s') : Runs { rt with effect := E' } j ent s s' := by
  induction h with
  | eval h => exact .eval (gives_mono hE h)
  | declare => exact .declare
  | init h => exact .init (gives_mono hE h)
  | assign h ht => exact .assign (gives_mono hE h) ht
  | yes h hn _ ih => exact .yes (gives_mono hE h) hn ih
  | no h hn _ ih => exact .no (gives_mono hE h) hn ih
  | done _ h hn ih => exact .done ih (gives_mono hE h) hn
  | again _ h hn _ _ ih₁ ih₂ ih₃ => exact .again ih₁ (gives_mono hE h) hn ih₂ ih₃
  | each _ ih => exact .each ih
  | comment => exact .comment
  | nil => exact .nil
  | cons _ _ ih₁ ih₂ => exact .cons ih₁ ih₂
  | noEntry => exact .noEntry
  | nextEntry _ _ ih₁ ih₂ => exact .nextEntry ih₁ ih₂

/-! ## Effects built up -/

/-- What holds from some number on. -/
def Finally (P : Nat → Prop) : Prop :=
  ∃ n, ∀ k, n ≤ k → P k

theorem Finally.and {P Q : Nat → Prop} (hP : Finally P) (hQ : Finally Q) : Finally (fun k => P k ∧ Q k) := by
  obtain ⟨n, hn⟩ := hP
  obtain ⟨l, hl⟩ := hQ
  exact ⟨max n l, fun k hk => ⟨hn k (Nat.le_trans (Nat.le_max_left n l) hk), hl k (Nat.le_trans (Nat.le_max_right n l) hk)⟩⟩

theorem Finally.imp {P Q : Nat → Prop} (h : ∀ k, P k → Q k) (hP : Finally P) : Finally Q := by
  obtain ⟨n, hn⟩ := hP
  exact ⟨n, fun k hk => h k (hn k hk)⟩

theorem Finally.always {P : Nat → Prop} (h : ∀ k, P k) : Finally P :=
  ⟨0, fun k _ => h k⟩

/-- Each of a row of effects allows what those before it allow. -/
def Ascends (C : Nat → Effect) : Prop :=
  ∀ n c vs w v w', C n c vs w v w' → C (n + 1) c vs w v w'

/-- What some effect of a row allows. -/
def limit (C : Nat → Effect) : Effect :=
  fun c vs w v w' => ∃ n, C n c vs w v w'

section Chain

variable {C : Nat → Effect}

theorem Ascends.le (hC : Ascends C) {n k : Nat} (h : n ≤ k) : ∀ c vs w v w', C n c vs w v w' → C k c vs w v w' := by
  induction h with
  | refl => exact fun _ _ _ _ _ hn => hn
  | step _ ih => exact fun c vs w v w' hn => hC _ c vs w v w' (ih c vs w v w' hn)

mutual

/-- What an expression gives in the limit of a row, it gives from some place of the row on. -/
theorem Ascends.gives (hC : Ascends C) : ∀ {e : Expr} {w w' : World} {v : Value},
    e.Gives { rt with effect := limit C } ent ρ w v w' → Finally (fun n => e.Gives { rt with effect := C n } ent ρ w v w')
  | .call c args t false, _, _, _, h => by
    obtain ⟨vs, hvs, hv⟩ := h
    exact (hC.givesAll hvs).imp (fun _ hn => ⟨vs, hn, hv⟩)
  | .call c args t true, _, _, _, h => by
    obtain ⟨vs, w₁, hvs, l, hl⟩ := h
    have hcall : Finally (fun n => C n c vs w₁ _ _) := ⟨l, fun _ hk => hC.le hk _ _ _ _ _ hl⟩
    exact ((hC.givesAll hvs).and hcall).imp (fun _ hn => ⟨vs, w₁, hn.1, hn.2⟩)
  | .binary op l r, _, _, _, h | .compare op l r, _, _, _, h => by
    obtain ⟨a, w₁, b, hl, hr, hv⟩ := h
    exact ((hC.gives hl).and (hC.gives hr)).imp (fun _ hn => ⟨a, w₁, b, hn.1, hn.2, hv⟩)
  | .int _, _, _, _, h | .str _, _, _, _, h | .quoted _, _, _, _, h | .var _, _, _, _, h | .global _ _, _, _, _, h
  | .field _, _, _, _, h | .entryVar _ _, _, _, _, h | .entry, _, _, _, h | .verbatim _ _, _, _, _, h
  | .block _, _, _, _, h => .always (fun _ => h)

theorem Ascends.givesAll (hC : Ascends C) : ∀ {es : List Expr} {w w' : World} {vs : List Value},
    Expr.GivesAll { rt with effect := limit C } ent ρ es w vs w' →
      Finally (fun n => Expr.GivesAll { rt with effect := C n } ent ρ es w vs w')
  | [], _, _, _, h => .always (fun _ => h)
  | _ :: _, _, _, _, h => by
    obtain ⟨v, w₁, vs', hv, hvs, rfl⟩ := h
    exact ((hC.gives hv).and (hC.givesAll hvs)).imp (fun _ hn => ⟨v, w₁, vs', hn.1, hn.2, rfl⟩)

end

/-- **A run in the limit of a row is a run at some place of the row**, and from there on. -/
theorem Ascends.runs (hC : Ascends C) {j : Job} {s s' : Store} (h : Runs { rt with effect := limit C } j ent s s') :
    Finally (fun n => Runs { rt with effect := C n } j ent s s') := by
  induction h with
  | eval h => exact (hC.gives h).imp (fun _ hn => .eval hn)
  | declare => exact .always (fun _ => .declare)
  | init h => exact (hC.gives h).imp (fun _ hn => .init hn)
  | assign h ht => exact (hC.gives h).imp (fun _ hn => .assign hn ht)
  | yes h hk _ ih => exact ((hC.gives h).and ih).imp (fun _ hn => .yes hn.1 hk hn.2)
  | no h hk _ ih => exact ((hC.gives h).and ih).imp (fun _ hn => .no hn.1 hk hn.2)
  | done _ h hk ih => exact (ih.and (hC.gives h)).imp (fun _ hn => .done hn.1 hn.2 hk)
  | again _ h hk _ _ ih₁ ih₂ ih₃ =>
    exact ((ih₁.and (hC.gives h)).and (ih₂.and ih₃)).imp (fun _ hn => .again hn.1.1 hn.1.2 hk hn.2.1 hn.2.2)
  | each _ ih => exact ih.imp (fun _ hn => .each hn)
  | comment => exact .always (fun _ => .comment)
  | nil => exact .always (fun _ => .nil)
  | cons _ _ ih₁ ih₂ => exact (ih₁.and ih₂).imp (fun _ hn => .cons hn.1 hn.2)
  | noEntry => exact .always (fun _ => .noEntry)
  | nextEntry _ _ ih₁ ih₂ => exact (ih₁.and ih₂).imp (fun _ hn => .nextEntry hn.1 hn.2)

end Chain

end Runtime

/-! ## Whole programs -/

namespace Routine

/-- The entry and the arguments among what a method is handed; a method that uses the entry is handed it first. -/
def received? (r : Routine) (handed : List Value) : Option (Option Entry × List Value) :=
  if r.usesEntry then
    match handed with
    | .entry e :: args => some (some e, args)
    | _ => none
  else some (none, handed)

/-- The variables of a method that begins: each parameter holds its argument. -/
def bind (r : Routine) (args : List Value) : Locals :=
  fun x => (r.params.zip args).lookup x

/-- **A method is called and returns**; one without a result returns what stands for nothing. -/
def Returns (rt : Runtime) (r : Routine) (handed : List Value) (w : World) (v : Value) (w' : World) : Prop :=
  ∃ ent args result, r.received? handed = some (ent, args) ∧ args.length = r.params.length ∧
    r.Completes rt ent ⟨r.bind args, w⟩ result w' ∧ v = result.getD .missing

end Routine

namespace Runtime

/-- **What calls do that nest less than `n` deep.**  A method of the runtime writes; a function of the style runs its
method. -/
def calls (rt : Runtime) (rs : List Routine) : Nat → Effect
  | _, .runtime m, vs, w, v, w' => v = .missing ∧ w' = { w with output := w.output ++ [(m, vs)] }
  | 0, .style _, _, _, _, _ => False
  | n + 1, .style m, vs, w, v, w' =>
    ∃ r, rs.find? (·.method == m) = some r ∧ r.Returns { rt with effect := calls rt rs n } vs w v w'

/-- **A runtime in which the methods of a program call each other.** -/
def linked (rt : Runtime) (rs : List Routine) : Runtime :=
  { rt with effect := limit (rt.calls rs) }

variable {rt : Runtime} {rs : List Routine}

theorem calls_ascends (rt : Runtime) (rs : List Routine) : Ascends (rt.calls rs) := by
  intro n
  induction n with
  | zero =>
    intro c vs w v w' h
    cases c with
    | runtime m => exact h
    | style m => exact h.elim
  | succ n ih =>
    intro c vs w v w' h
    cases c with
    | runtime m => exact h
    | style m =>
      obtain ⟨r, hr, ent, args, result, hhanded, hlength, ⟨s', hruns, hresult⟩, hv⟩ := h
      refine ⟨r, hr, ent, args, result, hhanded, hlength, ⟨s', runs_mono ih hruns, ?_⟩, hv⟩
      cases hres : r.result with
      | none => rw [hres] at hresult; exact hresult
      | some e =>
        rw [hres] at hresult
        obtain ⟨x, hx, hresult⟩ := hresult
        exact ⟨x, gives_mono ih hx, hresult⟩

theorem linked_runtime {m : String} {vs : List Value} {w : World} :
    (rt.linked rs).effect (.runtime m) vs w .missing { w with output := w.output ++ [(m, vs)] } :=
  ⟨0, rfl, rfl⟩

/-- **A call of a function runs its method to the end**, in the same program. -/
theorem linked_style {m : String} {r : Routine} {vs : List Value} {w w' : World} {v : Value}
    (hr : rs.find? (·.method == m) = some r) (h : r.Returns (rt.linked rs) vs w v w') :
    (rt.linked rs).effect (.style m) vs w v w' := by
  obtain ⟨ent, args, result, hhanded, hlength, ⟨s', hruns, hresult⟩, hv⟩ := h
  have hC := calls_ascends rt rs
  cases hres : r.result with
  | none =>
    rw [hres] at hresult
    obtain ⟨n, hn⟩ := hC.runs hruns
    refine ⟨n + 1, r, hr, ent, args, result, hhanded, hlength, ⟨s', hn n (Nat.le_refl n), ?_⟩, hv⟩
    rw [hres]
    exact hresult
  | some e =>
    rw [hres] at hresult
    obtain ⟨x, hx, hresult⟩ := hresult
    obtain ⟨n, hn⟩ := (hC.runs hruns).and (hC.gives hx)
    obtain ⟨hnruns, hngives⟩ := hn n (Nat.le_refl n)
    refine ⟨n + 1, r, hr, ent, args, result, hhanded, hlength, ⟨s', hnruns, ?_⟩, hv⟩
    rw [hres]
    exact ⟨x, hngives, hresult⟩

end Runtime
end Bibstyle
