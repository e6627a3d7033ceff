import Bibstyle.Code.Listing
import Bibstyle.Session.Basic
/-!
# Script — the script of a session

The script is one class: its globals, the handlers of entry types, a constructor, a method for each function, the
helpers, and a method that does what the commands say.  The last line makes an object of the class and runs it.
-/
namespace Bibstyle
namespace Session

/-- A comment line; an empty one has no blank at its end. -/
def commentLine (text : String) : Line :=
  ⟨0, if text.isEmpty then "//" else "// " ++ text⟩

/-- **The comments at the top**: where the script comes from, and what the style says about itself. -/
def headerLines (s : Session) : List Line :=
  ⟨0, "// Generated by bstgroovy from " ++ s.sourceName⟩ ::
    (if s.comments.isEmpty then [] else ⟨0, "//"⟩ :: s.comments.map commentLine) ++ [.blank]

def importLines (s : Session) : List Line :=
  if s.linkage.imports.isEmpty then []
  else s.linkage.imports.map (fun t => ⟨0, "import " ++ t⟩) ++ [.blank]

def globalLine (id : String) (t : Ty) : Line :=
  ⟨1, t.keyword ++ " " ++ id ++ " = " ++ (if t = .int then "0" else "''")⟩

def globalLines (s : Session) : List Line :=
  if s.globals.isEmpty then [] else .blank :: s.globals.map (fun g => globalLine g.1 g.2)

def handlerLine (name method : String) : Line :=
  ⟨2, Text.quote name ++ " : \x7b entry -> " ++ method ++ "(entry) \x7d,"⟩

/-- **The handlers of entry types**; a script without any has an empty map if it asks for one. -/
def handlerLines (s : Session) : List Line :=
  if s.handlers.isEmpty then
    if s.linkage.has .callType then [.blank, ⟨1, "def types = [:]"⟩] else []
  else
    .blank :: ⟨1, "def types = ["⟩ :: s.handlers.map (fun h => handlerLine h.1 h.2) ++ [⟨1, "]"⟩]

/-- A call of a method with two strings. -/
def storeLine (method : String) (p : String × String) : Line :=
  ⟨2, method ++ "(" ++ Text.quote p.1 ++ ", " ++ Text.quote p.2 ++ ")"⟩

def constructorLines (s : Session) : List Line :=
  [.blank, ⟨1, s.options.className ++ "(bibDB, bibWriter, bibProcessor) \x7b"⟩, ⟨2, "this.bibDB = bibDB"⟩,
    ⟨2, "this.bibWriter = bibWriter"⟩, ⟨2, "this.bibProcessor = bibProcessor"⟩] ++
  s.abbreviations.map (storeLine "bibDB.storeString") ++
  s.options.settings.map (storeLine "bibProcessor.setOption") ++ [⟨1, "\x7d"⟩]

def routineLines (s : Session) : List Line :=
  s.routines.flatMap (fun r => .blank :: r.lines 1)

def helperLines (s : Session) : List Line :=
  s.linkage.helpers.flatMap (fun h => .blank :: h.lines.map (fun l => { l with depth := l.depth + 1 }))

/-- **The method that does what the commands say**; it has no variables. -/
def runLines (s : Session) : List Line :=
  [.blank, ⟨1, "void run() \x7b"⟩] ++ Block.lines s.run .empty 2 ++ [⟨1, "\x7d"⟩]

/-- **The lines of the script.** -/
def lines (s : Session) : List Line :=
  s.headerLines ++ s.importLines ++
    [⟨0, "class " ++ s.options.className ++ " \x7b"⟩,
      ⟨1, "def bibDB"⟩, ⟨1, "def bibWriter"⟩, ⟨1, "def bibProcessor"⟩] ++
    s.globalLines ++ s.handlerLines ++ s.constructorLines ++ s.routineLines ++ s.helperLines ++ s.runLines ++
    [⟨0, "\x7d"⟩, .blank, ⟨0, "new " ++ s.options.className ++ "(bibDB, bibWriter, bibProcessor).run()"⟩]

/-- **The script.** -/
def script (s : Session) : String :=
  Line.renderAll "" s.lines

/-- Writes the script, and tells so. -/
def write : EStateM Fault Session String := do
  modify (fun s => { s with log := s.log.push (.writing s.routines.length) })
  return (← get).script

/-- **Compiles a source** with nothing known before it: the script or the fault, and the session at the end. -/
def compile (sourceName : String) (options : Options) (source : String) : EStateM.Result Fault Session String :=
  (do readSource source; write : EStateM Fault Session String) (.new sourceName options)

end Session

/-- **Text that fits into so many bytes**, by its size, or the fault of writing past them. -/
def bounded (limit : Nat) (text : String) : Except Fault Nat :=
  if text.utf8ByteSize ≤ limit then .ok text.utf8ByteSize else .error (.output .full)

/-- **Compiles a style given as text.** -/
def compileString (source : String) (options : Options) : Except Fault String :=
  match Session.compile "<input>" options source with
  | .ok script _ => .ok script
  | .error e _ => .error e

end Bibstyle
