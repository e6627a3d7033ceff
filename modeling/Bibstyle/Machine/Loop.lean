import Bibstyle.Machine.Basic
/-!
# Loop — running `while$` once

Every value on the stack moves into its own local first, so that the loop can change it.  The condition must leave one
integer on top of an unchanged stack, and the body must keep its height; neither may reach below it.  Slots that the
body changed are stored at its end.  Several of them go through temporaries, because a new value may read an old one.
-/
namespace Bibstyle
namespace Eval

/-- The loop variables whose slots the body changed, with their new values, the lowest first. -/
def changedSlots : List VarId → List Expr → Eval (List (VarId × Expr))
  | v :: vs, e :: es => do
    let below ← changedSlots vs es
    if e = .var v then return below
    else
      let t ← tyOf (.var v)
      return below ++ [(v, ← check e t "while$")]
  | _, _ => return []

/-- Temporaries for new values: their declarations, and the assignments from them. -/
def temporaries : List (VarId × Expr) → Eval (Block × Block)
  | [] => return ([], [])
  | (v, e) :: rest => do
    let t ← newLocal (← tyOf e)
    let (stores, moves) ← temporaries rest
    return (.declare t (some e) :: stores, .assign (.var v) (.var t) :: moves)

/-- **The statements that give all loop variables their new values at once.** -/
def updates : List (VarId × Expr) → Eval Block
  | [(v, e)] => return [.assign (.var v) e]
  | changed => do
    let (stores, moves) ← temporaries changed
    return stores ++ moves

/-- The test of a loop: the statements before it, and the value tested. -/
def loopTest (run : Eval Unit) (start : List Expr) : Eval (Block × Expr) := do
  let f ← inNested run
  if 0 < f.drawn then throw (.unsupported .conditionDraws)
  else if f.stack.length = start.length + 1 then
    match f.stack with
    | [] => throw (.impossible .conditionShrank)
    | value :: rest =>
      let value ← check value .int "while$"
      if rest = start then return (f.code, value)
      else throw (.unsupported .conditionChangesStack)
  else throw (.unsupported .conditionDepth)

/-- The body of a loop, its updates included. -/
def loopBody (run : Eval Unit) (vars : List VarId) : Eval Block := do
  let f ← inNested run
  if 0 < f.drawn then throw (.unsupported .bodyDraws)
  else if f.stack.length = vars.length then
    return f.code ++ (← updates (← changedSlots vars f.stack))
  else throw (.unsupported .bodyDepth)

/-- **`while$`**: two procedures, the condition and the body. -/
def loop (run : Procedure → Eval Unit) : Eval Unit := do
  let body ← popProcedure "while$"
  let condition ← popProcedure "while$"
  let vars ← spillAll "while$"
  let (setup, value) ← loopTest (run condition) (vars.map .var)
  let code ← loopBody (run body) vars
  emit (.loop setup value code)

end Eval
end Bibstyle
