import Bibstyle.Proofs.Making
/-!
# Operands — finished code is well typed

Types are found while a body is run: a variable may get its type long after an expression was built around it, in another
branch or in a loop.  When the body is done, every operand has the type its operator takes, read from the scope of the
method, and the reduction does not change that.
-/
namespace Bibstyle

/-- **A node whose operands have the types it takes**, looked at without what is below it.  Any two values can be compared
for equality, and a function of the style takes anything where the type of its parameter is not known. -/
def Expr.Typed (d : Dictionary) (s : Scope) : Expr → Prop
  | .binary .add l r | .binary .sub l r | .compare .lt l r | .compare .gt l r => l.ty s = .int ∧ r.ty s = .int
  | .binary .concat l r => l.ty s = .string ∧ r.ty s = .string
  | .call (.runtime f) args _ _ => operandTypes? f = some (args.map (·.ty s)) ∨ f ∈ untypedMethods
  | .call (.style f) args _ _ =>
    ∃ n sig rest, d.get? n = some (.routine sig) ∧ sig.method = f ∧ args = sig.handed ++ rest ∧
      List.Forall₂ (fun t e => t ≠ .generic → e.ty s = t) sig.params rest
  | _ => True

/-- **A well-typed act**: what is tested is an integer, and a variable of the style gets a value of its type. -/
structure Act.Typed (d : Dictionary) (s : Scope) (a : Act) : Prop where
  nodes : ∀ e, a.expr? = some e → ∀ x ∈ e.nodes, x.Typed d s
  fits : match a with
    | .test c => c.ty s = .int
    | .assign (.global id) e => d.Global id (e.ty s)
    | .assign (.entryVar n) e => d.EntryVar n (e.ty s)
    | _ => True

/-- **A well-typed method.** -/
structure Routine.Typed (d : Dictionary) (r : Routine) : Prop where
  body : ∀ q ∈ Stmt.actsAll false r.body, q.2.Typed d r.scope
  result : ∀ e, r.result = some e → ∀ x ∈ e.nodes, x.Typed d r.scope

theorem Expr.Made.typed {d : Dictionary} {m : Machine} {x : Expr} (h : x.Made d m) : x.Typed d m.scope := by
  cases x with
  | binary op => cases op <;> exact h
  | compare op =>
    cases op with
    | lt | gt => exact h nofun
    | eq => trivial
  | call c =>
    cases c with
    | runtime => exact h.1
    | style =>
      obtain ⟨n, sig, rest, hn, hf, hargs, hrest⟩ := h
      exact ⟨n, sig, rest, hn, hf, hargs, hrest.imp (fun _ _ he => he.2)⟩
  | _ => trivial

theorem Act.Made.typed {d : Dictionary} {m : Machine} {a : Act} (h : a.Made d m) : a.Typed d m.scope := by
  refine ⟨fun e he x hx => (h.nodes e he x hx).typed, ?_⟩
  have hfits := h.fits
  cases a with
  | eval | declare => trivial
  | test => exact hfits
  | assign target =>
    cases target with
    | var => trivial
    | global => exact hfits
    | entryVar => exact hfits.1

theorem Routine.Made.typed {d : Dictionary} {l : Linkage} {r : Routine} (h : r.Made d l) : r.Typed d :=
  ⟨fun q hq => (h.body q hq).typed, fun e he x hx => (h.result e he x hx).typed⟩

namespace Eval

/-- **The operands of a method have the types they are used at**, before its reduction and after it. -/
theorem routine_typed {d : Dictionary} {depth : Nat} {function method : String} {body : Group} {l : Linkage} {log : Array Event}
    {vars : Variables} {r : Routine} {m : Machine} (h : routine d depth function method body (.ready vars l log) = .ok r m) :
    r.Typed d ∧ r.reduce.Typed d := by
  have hmakes := makes_routine (d := d) depth function method body l vars log
  rw [h] at hmakes
  have hmade : r.Made d m.linkage := hmakes.2.2
  exact ⟨hmade.typed, hmade.reduce.typed⟩

/-- Compares a value with itself, and measures what a function makes of it, which takes only strings. -/
def measure : Group where
  terms :=
    let place : Span := ⟨"", 1, 1, 1, 1⟩
    [.name "duplicate$" place, .name "duplicate$" place, .name "=" place, .quoted "count" place, .name ":=" place,
     .name "emphasize" place, .name "text.length$" place]
  span := ⟨"", 1, 1, 1, 1⟩

def measureNames : Dictionary :=
  ⟨Dictionary.initial.entries ++
    [("count", .globalInteger "count"), ("emphasize", .routine ⟨"emphasize", [.string], true, .string⟩)]⟩

/-- The value is compared before anything is known of its type. -/
theorem routine_typed_measure :
    ∃ r m, routine measureNames 1 "measure" "measure" measure (.start .empty #[]) = .ok r m ∧
      r.params.map r.scope.ty = [.string] ∧ r.Typed measureNames ∧ r.reduce.Typed measureNames := by
  have hruns : (match routine measureNames 1 "measure" "measure" measure (.start .empty #[]) with
      | .ok r _ => decide (r.params.map r.scope.ty = [.string])
      | .error _ _ => false) = true := by decide +kernel
  cases h : routine measureNames 1 "measure" "measure" measure (.start .empty #[]) with
  | error e m => rw [h] at hruns; cases hruns
  | ok r m =>
    rw [h] at hruns
    exact ⟨r, m, rfl, of_decide_eq_true hruns, routine_typed h⟩

end Eval
end Bibstyle
