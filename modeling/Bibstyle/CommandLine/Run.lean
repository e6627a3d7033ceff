import Bibstyle.CommandLine.Arguments
import Bibstyle.CommandLine.FileTree
import Bibstyle.Session.Script
import Bibstyle.Text.Control
/-!
# Run — the program

The program reads one style, compiles it, and writes the script to a file or to the output.  It reaches files only
through the two operations it is given, so it runs on a tree of files as well as on those of the system.
-/
namespace Bibstyle
namespace CommandLine

/-- **How the program reaches files.** -/
structure FileAccess (m : Type → Type) where
  read : String → m (Except FileFault ByteArray)
  write : String → ByteArray → m (Except FileFault Unit)

/-- Access to the files of a tree. -/
def treeFiles : FileAccess (StateM FileTree) where
  read path := return (← get).read path
  write path content := do
    match (← get).write path content with
    | .error e => return .error e
    | .ok t =>
      set t
      return .ok ()

/-- **What the program leaves**: its exit code, and what it wrote to the output and beside it. -/
structure Reply where
  code : Nat
  output : String := ""
  messages : String := ""
  deriving DecidableEq

def versionText : String := "bstgroovy 0.1.0\n"

def usageLine : String := "Usage: bstgroovy [OPTIONS] <INPUT>\n"

def helpText : String :=
  usageLine ++ "\nArguments:\n" ++
  "  <INPUT>  The .bst style to compile\n\nOptions:\n" ++
  "  -o, --output <OUTPUT>          Where to write the script. Defaults to stdout\n" ++
  "      --no-optimize              Skip constant folding and dead store elimination\n" ++
  "      --class-name <CLASS_NAME>  Name of the generated class [default: Style]\n" ++
  "      --option <OPTIONS>         A processor option, as name=value. May be repeated\n" ++
  "  -v, --verbose...               More logging. Repeat for more\n" ++
  "  -h, --help                     Print help\n" ++
  "  -V, --version                  Print version\n"

/-- **The log that a reader of so much detail wants.**  An event cannot make a terminal do anything, but one that leaves
a string open loses the end of its line. -/
def logText (verbosity : Nat) (log : Array Event) : String :=
  String.join ((log.toList.filter (fun e => e.level.rank ≤ verbosity)).map
    (fun e => Text.withoutControls (e.line ++ "\n")))

/-- **Compiles the content of a file**: the script or the fault, and the log. -/
def compileFile (inv : Invocation) (content : Except FileFault ByteArray) : Except Fault String × Array Event :=
  match content with
  | .error e => (.error (.unreadable inv.input e.message), #[])
  | .ok bytes =>
    match String.fromUTF8? bytes with
    | none => (.error (.unreadable inv.input FileFault.notText.message), #[])
    | some source =>
      match Session.compile inv.input inv.options source with
      | .ok script s => (.ok script, s.log)
      | .error e s => (.error e, s.log)

/-- **Does a compilation.** -/
def perform {m : Type → Type} [Monad m] (files : FileAccess m) (inv : Invocation) : m Reply := do
  let (result, log) := compileFile inv (← files.read inv.input)
  let told := logText inv.verbosity log
  match result with
  | .error e =>
    return { code := 1, messages := told ++ "Failed to compile " ++ inv.input ++ ": " ++ e.message ++ "\n" }
  | .ok script =>
    match inv.output with
    | none => return { code := 0, output := script, messages := told }
    | some path =>
      match ← files.write path script.toUTF8 with
      | .ok _ => return { code := 0, messages := told }
      | .error e => return { code := 1, messages := told ++ "Failed to write " ++ path ++ ": " ++ e.message ++ "\n" }

/-- **The program.** -/
def run {m : Type → Type} [Monad m] (files : FileAccess m) (args : List String) : m Reply :=
  match request args with
  | .error e => return { code := 2, messages := "error: " ++ e.message ++ "\n\n" ++ usageLine }
  | .ok .version => return { code := 0, output := versionText }
  | .ok .help => return { code := 0, output := helpText }
  | .ok (.compile inv) => perform files inv

/-- **The program on a tree of files**, and the tree it leaves. -/
def runOn (tree : FileTree) (args : List String) : Reply × FileTree :=
  run treeFiles args tree

end CommandLine
end Bibstyle
