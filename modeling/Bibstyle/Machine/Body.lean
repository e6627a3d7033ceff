import Bibstyle.Code.Rendering
import Bibstyle.Machine.Primitive
/-!
# Body — running terms, bodies and commands

A term runs what its name means.  A procedure is run by the primitives that take it, and procedures may run procedures:
how deeply is bounded, because a style can make them run each other without end.  A body that is done has left at most
one value, which is what its method returns.
-/
namespace Bibstyle
namespace Eval

/-- **Calls a function of the style**, which may assign any variable; a result goes into a local. -/
def callRoutine (name : String) (s : Signature) : Eval Unit := do
  let args ← popArgs name s.params
  if s.usesEntry then touchEntry
  let args := if s.usesEntry then .entry :: args else args
  spillWhere Expr.readsState
  let call := Expr.call (.style s.method) args s.result true
  if s.result = .void then emit (.eval call)
  else
    let v ← newLocal s.result
    emit (.declare v (some call))
    push (.var v)

/-- **Runs what a name means.** -/
def name (dict : Dictionary) (run : Procedure → Eval Unit) (n : String) : Eval Unit :=
  match dict.get? n with
  | none => throw (.unresolved n)
  | some (.primitive p) => primitive dict run p
  | some (.routine s) => callRoutine n s
  | some .field => do touchEntry; push (.field n)
  | some (.globalInteger id) => push (.global id .int)
  | some (.globalString id) => push (.global id .string)
  | some .entryInteger => do touchEntry; push (.entryVar n .int)
  | some .entryString => do touchEntry; push (.entryVar n .string)
  | some (.constant v) => push (.int v)

/-- **Runs one term.** -/
def term (dict : Dictionary) (run : Procedure → Eval Unit) (t : Term) : Eval Unit := do
  modify (fun m => { m with log := m.log.push (.evaluating t) })
  match t with
  | .integer n _ => push (.int n)
  | .string s _ => push (.str s)
  | .quoted n _ => push (.quoted n)
  | .block ts span => push (.block ⟨ts, span⟩)
  | .name n _ => name dict run n
  | .field _ _ | .entryInteger _ _ | .entryString _ _ => throw (.impossible (.inBody t))

/-- Runs terms in order. -/
def terms (dict : Dictionary) (run : Procedure → Eval Unit) : List Term → Eval Unit
  | [] => return ()
  | t :: ts => do
    term dict run t
    terms dict run ts

/-- **Runs a procedure**, in which procedures nest less than `depth` deep. -/
def procedure (dict : Dictionary) : Nat → Procedure → Eval Unit
  | 0, _ => throw .exhausted
  | depth + 1, .group g => terms dict (procedure dict depth) g.terms
  | depth + 1, .named n => name dict (procedure dict depth) n

/-- What a method returns that leaves a stack. -/
def result (function : String) (scope : Scope) : List Expr → Except AnalysisFault (Option Expr)
  | [] => .ok none
  | [e] => if e.isValue then .ok (some e) else .error (.unsupported (.returnsProcedure function))
  | stack => .error (.complex function ("[" ++ String.intercalate ", " (stack.reverse.map (·.render scope)) ++ "]"))

/-- **Compiles the body of a function** into a method.  What runs before have left of their variables is forgotten first; of
its own it leaves none, unless it fails. -/
def routine (dict : Dictionary) (depth : Nat) (function method : String) (body : Group) : Eval Routine := do
  reset
  terms dict (procedure dict depth) body.terms
  modify (fun m => { m with vars := m.vars.named })
  let m ← get
  match result function m.scope m.frame.stack with
  | .error e => throw e
  | .ok value =>
    return {
      name := function
      method := method
      params := m.vars.params
      usesEntry := m.usesEntry
      body := m.frame.code
      result := value
      scope := ← takeScope }

/-- How a run that is done breaks the contract of a command, if it does. -/
def violation? (mode : RunMode) (m : Machine) : Option Violation :=
  if !m.frame.stack.isEmpty then some .returnValue
  else if !m.vars.isEmpty then some .arguments
  else if mode = .execute && m.usesEntry then some .entryUsage
  else none

/-- **Compiles a command that runs a function**, which must not make any variables. -/
def command (dict : Dictionary) (depth : Nat) (mode : RunMode) (function : String) : Eval Block := do
  reset
  name dict (procedure dict depth) function
  let m ← get
  match violation? mode m with
  | some v => throw (.contract mode function v)
  | none =>
    match mode with
    | .execute => return m.frame.code
    | .iterate => return [.each false m.frame.code]
    | .reverse => return [.each true m.frame.code]

end Eval
end Bibstyle
