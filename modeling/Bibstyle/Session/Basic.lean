import Bibstyle.Machine.Body
import Bibstyle.Reduction.Fixpoint
import Bibstyle.Script.Identifier
import Bibstyle.Source.Preface
/-!
# Session — a style as it is compiled

A session takes commands one after another, and each adds to what is known.  A command that fails keeps what it did
before the fault, and the session goes on.
-/
namespace Bibstyle

/-- **How a style is compiled.** -/
structure Options where
  /-- Whether methods are reduced. -/
  optimize : Bool := true
  /-- The name of the class in the script. -/
  className : String := "Style"
  /-- What the script sets before the style runs, in order. -/
  settings : List (String × String) := []
  /-- How deeply procedures may run procedures; no run that ends comes near. -/
  depth : Nat := 1000000000000
  deriving DecidableEq

/-- **Everything known about a style.** -/
structure Session where
  options : Options
  sourceName : String
  /-- The comments at the top of the last source. -/
  comments : List String
  dictionary : Dictionary
  linkage : Linkage
  /-- The variables that the last run left. -/
  vars : Variables
  identifiers : Identifiers
  /-- The methods, in the order their functions were defined. -/
  routines : List Routine
  /-- The functions that handle an entry type, with their methods, in order of their names. -/
  handlers : List (String × String)
  /-- The globals by identifier, in the order they were declared. -/
  globals : List (String × Ty)
  abbreviations : List (String × String)
  /-- What the script does when it runs. -/
  run : Block
  log : Array Event

namespace Session

/-- **A session that knows only what every style has.** -/
def new (sourceName : String) (options : Options) : Session where
  options := options
  sourceName := sourceName
  comments := []
  dictionary := .initial
  linkage := .empty
  vars := .empty
  identifiers := Helper.all.foldl (fun t h => t.reserve h.name) (Identifiers.empty.reserve options.className)
  routines := []
  handlers := []
  globals := []
  abbreviations := []
  run := []
  log := #[]

/-- A pair put into a list in order of the first parts; an equal first part gets the new second one. -/
def insertByName (name value : String) : List (String × String) → List (String × String)
  | [] => [(name, value)]
  | p :: ps =>
    if name < p.1 then (name, value) :: p :: ps
    else if name = p.1 then (name, value) :: ps
    else p :: insertByName name value ps

/-- A pair put at the end of a list, or in the place of the pair with the same first part. -/
def replaceOrAppend (name value : String) : List (String × String) → List (String × String)
  | [] => [(name, value)]
  | p :: ps => if p.1 = name then (name, value) :: ps else p :: replaceOrAppend name value ps

end Session

/-- **A step of a session.** -/
abbrev Step := EStateM AnalysisFault Session

namespace Step

def tell (e : Event) : Step Unit :=
  modify (fun s => { s with log := s.log.push e })

/-- The identifier of a name. -/
def identifier (name : String) : Step String :=
  modifyGet (fun s => let (id, t) := s.identifiers.assign name; (id, { s with identifiers := t }))

/-- **Declares a name** that has no meaning yet. -/
def declare (name : String) (m : Meaning) : Step Unit := do
  let s ← get
  match s.dictionary.declare name m with
  | .error e => throw e
  | .ok d => set { s with dictionary := d }

/-- Fails if a name has a meaning. -/
def requireNew (name : String) : Step Unit := do
  if (← get).dictionary.contains name then throw (.redefinition name)

/-- **Declares the names of a list**, each with the meaning that `make` gives it. -/
def declareAll (make : String → Step Meaning) : List Term → Step Unit
  | [] => return ()
  | t :: ts => do
    match t.name? with
    | none => throw (.impossible (.inNameList t))
    | some name =>
      requireNew name
      declare name (← make name)
      declareAll make ts

/-- A new global of a type. -/
def newGlobal (t : Ty) (name : String) : Step String := do
  let id ← identifier name
  modify (fun s => { s with globals := s.globals ++ [(id, t)] })
  return id

/-- **Runs a machine that has not run anything**, on the variables that are there; these, what it linked and what it told
stay as it left them, whether it fails or not. -/
def evaluate {α : Type} (run : Eval α) : Step α := fun s =>
  match run (.ready s.vars s.linkage s.log) with
  | .ok a m => .ok a { s with vars := m.vars, linkage := m.linkage, log := m.log }
  | .error e m => .error e { s with vars := m.vars, linkage := m.linkage, log := m.log }

/-! ## Commands -/

/-- **`ENTRY`** -/
def entry (fields integers strings : Group) : Step Unit := do
  tell (.entry fields.terms.length)
  declareAll (fun _ => return .field) fields.terms
  declareAll (fun _ => return .entryInteger) integers.terms
  declareAll (fun _ => return .entryString) strings.terms

/-- **`INTEGERS`** -/
def integers (names : Group) : Step Unit :=
  declareAll (fun n => return .globalInteger (← newGlobal .int n)) names.terms

/-- **`STRINGS`** -/
def strings (names : Group) : Step Unit :=
  declareAll (fun n => return .globalString (← newGlobal .string n)) names.terms

/-- **`FUNCTION`** -/
def function (name : String) (body : Group) : Step Unit := do
  requireNew name
  let method ← identifier name
  let s ← get
  let compiled ← evaluate (Eval.routine s.dictionary s.options.depth name method body)
  let routine := if s.options.optimize then compiled.reduce else compiled
  let signature := routine.signature
  tell (.function name signature)
  if signature.isHandler then
    modify (fun s => { s with handlers := Session.insertByName name signature.method s.handlers })
  declare name (.routine signature)
  modify (fun s => { s with routines := s.routines ++ [routine] })

/-- **`MACRO`**: the last value given to a name counts. -/
def abbreviation (name value : String) : Step Unit := do
  tell (.abbreviation name)
  modify (fun s => { s with abbreviations := Session.replaceOrAppend name value s.abbreviations })

/-- **`EXECUTE`**, **`ITERATE`** and **`REVERSE`** -/
def run (mode : RunMode) (function : String) (span : Span) : Step Unit := do
  tell (.command span mode function)
  let s ← get
  let code ← evaluate (Eval.command s.dictionary s.options.depth mode function)
  modify (fun s => { s with run := s.run ++ code })

/-- **`READ`**: the runtime has read the database before the style runs. -/
def read : Step Unit :=
  modify (fun s => { s with run := s.run ++ [.comment "READ"] })

/-- **`SORT`** -/
def sort : Step Unit :=
  modify (fun s => { s with run := s.run ++ [.eval (.effectCall "bibDB.sort" [])] })

/-- **Takes one command.** -/
def command : Command → Step Unit
  | .entry fields integers strings _ => entry fields integers strings
  | .function name body _ => function name body
  | .integers names _ => integers names
  | .strings names _ => strings names
  | .abbreviation name value _ => abbreviation name value
  | .run mode function span => run mode function span
  | .read _ => read
  | .sort _ => sort

/-- Takes commands in order, up to the first that fails. -/
def commands : List Command → Step Unit
  | [] => return ()
  | c :: cs => do
    command c
    commands cs

end Step

namespace Session

/-- **Reads a source and takes its commands.** -/
def readSource (source : String) : EStateM Fault Session Unit := do
  modify (fun s => { s with comments := Source.preface source, log := s.log.push (.scanning s.sourceName) })
  match Source.tokens (← get).sourceName source with
  | .error e => throw (.lexical e)
  | .ok words =>
    modify (fun s => { s with log := s.log.push (.grouping words.length) })
    match Reader.program words with
    | .error e => throw (.grammar e)
    | .ok cs =>
      modify (fun s => { s with log := s.log.push (.analyzing cs.length) })
      (Step.commands cs).adaptExcept .analysis

end Session
end Bibstyle
