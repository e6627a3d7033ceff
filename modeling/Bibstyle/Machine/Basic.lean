import Bibstyle.Event
import Bibstyle.Fault
import Bibstyle.Machine.Frame
import Bibstyle.Machine.Variables
import Bibstyle.Script.Linkage
/-!
# Machine — the state of a symbolic run

A body is not run but evaluated against a stack of expressions.  What the run has changed when a fault stops it stays
changed: a helper once linked is linked.
-/
namespace Bibstyle

/-- **The state of a symbolic run.** -/
structure Machine extends vars : Variables where
  frame : Frame
  linkage : Linkage
  /-- Whether the body has touched the current entry. -/
  usesEntry : Bool
  log : Array Event

namespace Machine

/-- **A machine that has not run anything**, with the variables that were left by the run before. -/
def ready (vars : Variables) (linkage : Linkage) (log : Array Event) : Machine :=
  ⟨vars, .empty, linkage, false, log⟩

/-- The machine without its variables. -/
def cleared (m : Machine) : Machine :=
  { m with vars := .empty }

/-- A machine that has not run anything and has no variables. -/
def start (linkage : Linkage) (log : Array Event) : Machine :=
  .ready .empty linkage log

end Machine

/-- **A symbolic run.** -/
abbrev Eval := EStateM AnalysisFault Machine

/-- **A value that can be run.** -/
inductive Procedure where
  | group (g : Group)
  | named (name : String)
  deriving DecidableEq

/-- A procedure as it lies on the stack. -/
def Procedure.toExpr : Procedure → Expr
  | group g => .block g
  | named n => .quoted n

/-- How a fault calls what it found on the stack. -/
def Expr.describe (s : Scope) : Expr → String
  | .block _ => "procedure"
  | .quoted n => "quoted literal '" ++ n
  | e => (e.ty s).label

namespace Eval

/-! ## Variables, helpers and the entry -/

def param (depth : Nat) (t : Ty) : Eval VarId :=
  modifyGet (fun m => let (v, vs) := m.vars.param depth t; (v, { m with vars := vs }))

def newLocal (t : Ty) : Eval VarId :=
  modifyGet (fun m => let (v, vs) := m.vars.newLocal t; (v, { m with vars := vs }))

/-- Forgets every variable. -/
def reset : Eval Unit :=
  modify Machine.cleared

/-- **Takes the variables out**; none are left. -/
def takeScope : Eval Scope :=
  modifyGet (fun m => (m.scope, m.cleared))

def tyOf (e : Expr) : Eval Ty :=
  return e.ty (← get).scope

/-- Links a helper, and tells so the first time. -/
def link (h : Helper) : Eval Unit :=
  modify (fun m =>
    if m.linkage.has h then m else { m with linkage := m.linkage.add h, log := m.log.push (.linking h) })

def touchEntry : Eval Unit :=
  modify (fun m => { m with usesEntry := true })

/-! ## The stack -/

def push (e : Expr) : Eval Unit :=
  modify (fun m => { m with frame := { m.frame with stack := e :: m.frame.stack } })

def emit (t : Stmt) : Eval Unit :=
  modify (fun m => { m with frame := { m.frame with code := m.frame.code ++ [t] } })

/-- Drops all values this frame can see. -/
def clear : Eval Unit :=
  modify (fun m => { m with frame := { m.frame with stack := [] } })

/-- **Takes the top value**; an empty stack gives the next parameter, of a type. -/
def popAs (t : Ty) : Eval Expr := do
  let m ← get
  match m.frame.stack with
  | e :: rest =>
    set { m with frame := { m.frame with stack := rest } }
    return e
  | [] =>
    set { m with frame := { m.frame with drawn := m.frame.drawn + 1 } }
    return .var (← param (m.frame.base + m.frame.drawn) t)

/-- Takes the top value, whatever it is. -/
def pop : Eval Expr :=
  popAs .generic

def mismatch {α : Type} (primitive expected : String) (found : Expr) : Eval α := do
  throw (.mismatch primitive expected (found.describe (← get).scope))

/-- **Checks that an expression is a value of a type**, and gives a variable of unknown type that type. -/
def check (e : Expr) (expected : Ty) (primitive : String) : Eval Expr := do
  let found ← tyOf e
  if !e.isValue || !found.fits expected then mismatch primitive expected.label e
  else
    match e with
    | .var v =>
      modify (fun m => { m with vars := m.vars.refine v expected })
      return e
    | _ => return e

/-- **Takes the top value, which must be of a type.** -/
def popTyped (expected : Ty) (primitive : String) : Eval Expr := do
  check (← popAs expected) expected primitive

/-- **Takes the top value, which must be a procedure.** -/
def popProcedure (primitive : String) : Eval Procedure := do
  match ← pop with
  | .block g => return .group g
  | .quoted n => return .named n
  | e => mismatch primitive "procedure" e

/-- **Takes operands of the given types**, the last of which is on top. -/
def popArgs (primitive : String) : List Ty → Eval (List Expr)
  | [] => return []
  | t :: ts => do
    let rest ← popArgs primitive ts
    return (← popTyped t primitive) :: rest

/-! ## Spilling -/

/-- Stores the slots that `which` picks in new locals, the lowest first; the slots read the locals from then on. -/
def spillSlots (which : Expr → Bool) : List Expr → Eval (List Expr)
  | [] => return []
  | e :: below => do
    let below ← spillSlots which below
    if which e then
      let v ← newLocal (← tyOf e)
      emit (.declare v (some e))
      return .var v :: below
    else return e :: below

def setStack (stack : List Expr) : Eval Unit :=
  modify (fun m => { m with frame := { m.frame with stack := stack } })

/-- Whether a slot is a value that is not a variable already. -/
def isComposite : Expr → Bool
  | .var _ => false
  | e => e.isValue

/-- **Stores the values that `changes` picks**, so that they keep what they are worth now whatever runs next. -/
def spillWhere (changes : Expr → Bool) : Eval Unit := do
  setStack (← spillSlots (fun e => isComposite e && changes e) (← get).frame.stack)

/-- **Stores every value in a local of its own**, and gives the locals, that of the top first.  A procedure cannot be
stored; what lies below the lowest one is stored before the fault. -/
def spillAll (primitive : String) : Eval (List VarId) := do
  let stack := (← get).frame.stack
  let below := (stack.reverse.takeWhile Expr.isValue).reverse
  let above := stack.take (stack.length - below.length)
  let slots ← spillSlots (fun _ => true) below
  setStack (above ++ slots)
  if above.isEmpty then return slots.filterMap Expr.var?
  else throw (.unsupported (.procedureLeft primitive))

/-! ## Frames -/

/-- **Runs in a nested frame** and gives that frame; the enclosing frame is as it was. -/
def inNested (run : Eval Unit) : Eval Frame := fun m =>
  match run { m with frame := m.frame.nested } with
  | .ok _ after => .ok after.frame { after with frame := m.frame }
  | .error e after => .error e { after with frame := m.frame }

/-- The parameters from one depth up to another, the shallowest first; the deepest is made first. -/
def paramsTo (base : Nat) : Nat → Nat → Eval (List Expr)
  | _, 0 => return []
  | depth, n + 1 => do
    let deeper ← paramsTo base (depth + 1) n
    return .var (← param (base + depth) .generic) :: deeper

/-- **The stack of a frame as if it had drawn more values**: those it never reached lie at the bottom. -/
def fullView (f : Frame) (drawn : Nat) : Eval (List Expr) := do
  return f.stack ++ (← paramsTo f.base f.drawn (drawn - f.drawn))

/-- Puts what nested frames left, who drew more values, in place of the stack. -/
def replaceStack (stack : List Expr) (drawn : Nat) : Eval Unit :=
  modify (fun m => { m with frame := { m.frame with stack := stack, drawn := m.frame.drawn + drawn } })

end Eval
end Bibstyle
