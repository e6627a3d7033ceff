import Bibstyle.Session.Basic
/-!
# Arguments — what the command line asks for

Arguments are read from left to right.  An option that wants a value takes the rest of its own argument or the next one,
which must not look like an option.  `--` ends the options.  A question about the program itself is answered as soon as
it is reached, if nothing before it was wrong.
-/
namespace Bibstyle
namespace CommandLine

/-- **Why arguments cannot be read.** -/
inductive UsageFault where
  | unknownOption (text : String)
  | missingValue (option : String)
  | unneededValue (option : String)
  | repeated (option : String)
  | badSetting (text : String)
  | extraArgument (text : String)
  | missingInput
  deriving DecidableEq

def UsageFault.message : UsageFault → String
  | unknownOption t | extraArgument t => "unexpected argument '" ++ t ++ "' found"
  | missingValue o => "a value is required for '" ++ o ++ "' but none was supplied"
  | unneededValue o => "unexpected value for '" ++ o ++ "' found; no more were expected"
  | repeated o => "the argument '" ++ o ++ "' cannot be used multiple times"
  | badSetting t => "invalid value '" ++ t ++ "' for '--option': expected name=value, got '" ++ t ++ "'"
  | missingInput => "the following required arguments were not provided:\n  <INPUT>"

/-- **A compilation that is asked for.** -/
structure Invocation where
  input : String
  output : Option String
  options : Options
  verbosity : Nat
  deriving DecidableEq

/-- **What the arguments ask for.** -/
inductive Request where
  | compile (invocation : Invocation)
  | version
  | help
  deriving DecidableEq

/-- **An option of the command line.** -/
inductive Flag where
  | output
  | noOptimize
  | className
  | setting
  | verbose
  | help
  | version
  deriving DecidableEq

namespace Flag

def all : List Flag := [output, noOptimize, className, setting, verbose, help, version]

def long : Flag → String
  | output => "output"
  | noOptimize => "no-optimize"
  | className => "class-name"
  | setting => "option"
  | verbose => "verbose"
  | help => "help"
  | version => "version"

def short? : Flag → Option Char
  | output => some 'o'
  | verbose => some 'v'
  | help => some 'h'
  | version => some 'V'
  | noOptimize | className | setting => none

def takesValue : Flag → Bool
  | output | className | setting => true
  | noOptimize | verbose | help | version => false

def ofLong? (name : String) : Option Flag :=
  all.find? (fun f => f.long == name)

def ofShort? (c : Char) : Option Flag :=
  all.find? (fun f => f.short? == some c)

/-- How a fault names an option. -/
def label (f : Flag) : String :=
  "--" ++ f.long

end Flag

/-- **What the arguments have said so far.** -/
structure Draft where
  input : Option String := none
  output : Option String := none
  noOptimize : Bool := false
  className : Option String := none
  settings : List (String × String) := []
  verbosity : Nat := 0
  deriving DecidableEq

namespace Draft

/-- **A setting**: a name that is not empty, up to the first equals sign, and a value. -/
def setting? (text : String) : Option (String × String) :=
  let name := text.toList.takeWhile (· != '=')
  match text.toList.dropWhile (· != '=') with
  | [] => none
  | _ :: value => if name.isEmpty then none else some (String.ofList name, String.ofList value)

/-- A path that may be given once, and not empty. -/
def path (given : Option String) (label text : String) : Except UsageFault (Option String) :=
  if text.isEmpty then .error (.missingValue label)
  else if given.isSome then .error (.repeated label)
  else .ok (some text)

/-- **Takes an argument that is no option.** -/
def positional (d : Draft) (text : String) : Except UsageFault Draft :=
  if d.input.isSome then .error (.extraArgument text)
  else do return { d with input := ← path none "<INPUT>" text }

/-- **Takes an option with its value.** -/
def valued (d : Draft) (f : Flag) (text : String) : Except UsageFault Draft :=
  match f with
  | .output => do return { d with output := ← path d.output f.label text }
  | .className => if d.className.isSome then .error (.repeated f.label) else .ok { d with className := some text }
  | .setting =>
    match setting? text with
    | some p => .ok { d with settings := d.settings ++ [p] }
    | none => .error (.badSetting text)
  | _ => .error (.unneededValue f.label)

/-- **The compilation asked for**, when all arguments have been read. -/
def finish (d : Draft) : Except UsageFault Request :=
  match d.input with
  | none => .error .missingInput
  | some input =>
    .ok (.compile {
      input := input
      output := d.output
      options := { optimize := !d.noOptimize, className := d.className.getD "Style", settings := d.settings }
      verbosity := d.verbosity })

end Draft

/-- **What one argument leads to**: the next argument, a value that is still wanted, or an answer. -/
inductive Progress where
  | next (draft : Draft)
  | wants (flag : Flag) (draft : Draft)
  | answer (request : Request)
  deriving DecidableEq

/-- Takes an option that has no value. -/
def plainFlag (d : Draft) : Flag → Except UsageFault Progress
  | .noOptimize =>
    if d.noOptimize then .error (.repeated Flag.noOptimize.label) else .ok (.next { d with noOptimize := true })
  | .verbose => .ok (.next { d with verbosity := d.verbosity + 1 })
  | .help => .ok (.answer .help)
  | .version => .ok (.answer .version)
  | f => .ok (.wants f d)

/-- **Takes an argument such as `--name` or `--name=value`**, without its dashes. -/
def longArgument (d : Draft) (text : List Char) : Except UsageFault Progress :=
  let name := String.ofList (text.takeWhile (· != '='))
  match Flag.ofLong? name, text.dropWhile (· != '=') with
  | none, _ => .error (.unknownOption ("--" ++ name))
  | some f, [] => plainFlag d f
  | some f, _ :: value => do return .next (← d.valued f (String.ofList value))

/-- **Takes letters such as `vo` in `-vo`**; the first that takes a value takes the rest, with an equals sign or
without. -/
def shortArgument (d : Draft) : List Char → Except UsageFault Progress
  | [] => .ok (.next d)
  | c :: rest =>
    match Flag.ofShort? c with
    | none => .error (.unknownOption ("-" ++ String.ofList [c]))
    | some f =>
      if f.takesValue then
        match rest with
        | [] => .ok (.wants f d)
        | '=' :: value => do return .next (← d.valued f (String.ofList value))
        | value => do return .next (← d.valued f (String.ofList value))
      else do
        match ← plainFlag d f with
        | .next d => shortArgument d rest
        | p => return p

/-- **Takes one argument.** -/
def argument (d : Draft) (text : String) : Except UsageFault Progress :=
  match text.toList with
  | '-' :: '-' :: rest => longArgument d rest
  | '-' :: c :: rest => shortArgument d (c :: rest)
  | _ => do return .next (← d.positional text)

/-- Whether an argument looks like an option, so that it is no value. -/
def looksLikeOption (text : String) : Bool :=
  match text.toList with
  | '-' :: _ :: _ => true
  | _ => false

/-- Takes arguments none of which is an option. -/
def positionals (d : Draft) : List String → Except UsageFault Request
  | [] => d.finish
  | a :: as => do positionals (← d.positional a) as

/-- **Reads the arguments.** -/
def arguments (d : Draft) : List String → Except UsageFault Request
  | [] => d.finish
  | a :: as =>
    if a = "--" then positionals d as
    else
      match argument d a with
      | .error e => .error e
      | .ok (.next d) => arguments d as
      | .ok (.answer r) => .ok r
      | .ok (.wants f d) =>
        match as with
        | [] => .error (.missingValue f.label)
        | value :: as =>
          if looksLikeOption value then .error (.missingValue f.label)
          else
            match d.valued f value with
            | .error e => .error e
            | .ok d => arguments d as

/-- **What the command line asks for.** -/
def request (args : List String) : Except UsageFault Request :=
  arguments {} args

end CommandLine
end Bibstyle
