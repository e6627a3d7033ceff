import Bibstyle.Machine.Branch
import Bibstyle.Machine.Loop
import Bibstyle.Style.Dictionary
/-!
# Primitive — running the built-in functions

Most primitives take operands of fixed types and leave the call of a fixed method.  A helper is linked before its
operands are taken.  Output changes no variable, so nothing is spilled for it.
-/
namespace Bibstyle
namespace Eval

/-- **A pure method of the runtime**: its operands, its name, and what it gives. -/
def callMethod (primitive : String) (params : List Ty) (method : String) (result : Ty) : Eval Unit := do
  push (.pureCall method (← popArgs primitive params) result)

/-- **A pure method the script brings along.** -/
def callHelper (primitive : String) (params : List Ty) (h : Helper) (result : Ty) : Eval Unit := do
  link h
  callMethod primitive params h.name result

/-- **A method that writes.** -/
def callWriter (primitive : String) (params : List Ty) (method : String) : Eval Unit := do
  emit (.eval (.effectCall method (← popArgs primitive params)))

/-- A value of the entry or the database, read as it is written. -/
def pushText (text : String) : Eval Unit :=
  push (.verbatim text .string)

def binary (op : BinaryOp) (t : Ty) (primitive : String) : Eval Unit := do
  let right ← popTyped t primitive
  let left ← popTyped t primitive
  push (.binary op left right)

def compare (op : CompareOp) (primitive : String) : Eval Unit := do
  let right ← popTyped .int primitive
  let left ← popTyped .int primitive
  push (.compare op left right)

/-- **`=`** compares two integers or two strings; an operand of unknown type takes that of the other. -/
def equal : Eval Unit := do
  let right ← popTyped .generic "="
  let left ← popTyped (← tyOf right) "="
  let right ← check right (← tyOf left) "="
  push (.compare .eq left right)

/-- What an assignment to a name changes, and the type it takes. -/
def assignable (dict : Dictionary) (name : String) : Except AnalysisFault (Target × Ty) :=
  match dict.get? name with
  | some (.globalInteger id) => .ok (.global id, .int)
  | some (.globalString id) => .ok (.global id, .string)
  | some .entryInteger => .ok (.entryVar name, .int)
  | some .entryString => .ok (.entryVar name, .string)
  | some _ => .error (.unsupported (.assignment name))
  | none => .error (.unresolved name)

/-- **`:=`** assigns to a quoted variable.  Values still on the stack keep reading the old value. -/
def assign (dict : Dictionary) : Eval Unit := do
  match ← pop with
  | .quoted name =>
    match assignable dict name with
    | .error e => throw e
    | .ok (target, t) =>
      match target with
      | .entryVar _ => touchEntry
      | _ => pure ()
      let value ← popTyped t ":="
      spillWhere (·.reads target)
      emit (.assign target value)
  | e => mismatch ":=" "quoted variable" e

def duplicate : Eval Unit := do
  let e ← pop
  push e
  push e

def swap : Eval Unit := do
  let top ← pop
  let below ← pop
  push top
  push below

/-- Whether a value may have come from a field that the entry lacks, by way of a variable. -/
def mayBeMissing (s : Scope) : Expr → Bool
  | .var v => s.ty v != .int
  | .call (.style _) _ t _ => t != .int
  | _ => false

/-- **`missing$`**: a field asks the entry, a value that may hold a field is looked at when the script runs, and
anything else is there. -/
def missing : Eval Unit := do
  let e ← check (← pop) .generic "missing$"
  match e with
  | .field name =>
    touchEntry
    push (.pureCall "entry.isMissing" [.str name] .int)
  | e =>
    if mayBeMissing (← get).scope e then
      link .isMissing
      push (.pureCall Helper.isMissing.name [e] .int)
    else push (.int 0)

/-- **`call.type$`** runs the handler of the entry's type, which may assign any variable. -/
def callType : Eval Unit := do
  link .callType
  spillWhere Expr.readsState
  touchEntry
  emit (.eval (.effectCall Helper.callType.name [.entry]))

/-- **Runs a primitive**; `run` runs the procedures it takes. -/
def primitive (dict : Dictionary) (run : Procedure → Eval Unit) : Primitive → Eval Unit
  | .add => binary .add .int "+"
  | .sub => binary .sub .int "-"
  | .lt => compare .lt "<"
  | .gt => compare .gt ">"
  | .eq => equal
  | .concat => binary .concat .string "*"
  | .assign => assign dict
  | .addPeriod => callHelper "add.period$" [.string] .addPeriod .string
  | .callType => callType
  | .changeCase => callMethod "change.case$" [.string, .string] "bibProcessor.changeCase" .string
  | .chrToInt => callHelper "chr.to.int$" [.string] .chrToInt .int
  | .cite => do touchEntry; pushText "entry.key"
  | .duplicate => duplicate
  | .empty => callHelper "empty$" [.string] .isEmpty .int
  | .formatName => callHelper "format.name$" [.string, .int, .string] .formatName .string
  | .branch => branch run
  | .intToChr => callHelper "int.to.chr$" [.int] .intToChr .string
  | .intToStr => callMethod "int.to.str$" [.int] "Integer.toString" .string
  | .missing => missing
  | .newline => callWriter "newline$" [] "bibWriter.println"
  | .numNames => callHelper "num.names$" [.string] .numNames .int
  | .pop | .top => discard pop
  | .preamble => pushText "bibDB.preamble"
  | .purify => callMethod "purify$" [.string] "bibProcessor.purify" .string
  | .quote => push (.str "\"")
  | .skip => return ()
  | .clear => clear
  | .substring => callHelper "substring$" [.string, .int, .int] .substring .string
  | .swap => swap
  | .textLength => callHelper "text.length$" [.string] .textLength .int
  | .textPrefix => callHelper "text.prefix$" [.string, .int] .textPrefix .string
  | .entryType => do touchEntry; pushText "entry.type"
  | .warning => callWriter "warning$" [.string] "bibProcessor.warning"
  | .loop => loop run
  | .width => callMethod "width$" [.string] "bibProcessor.width" .int
  | .write => callWriter "write$" [.string] "bibWriter.print"

end Eval
end Bibstyle
