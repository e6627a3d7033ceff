import Bibstyle.Script.Helper
/-!
# Linkage — what the script needs so far

Helpers stand in the order they were first needed, each once.  Imports are a set, in order.
-/
namespace Bibstyle

/-- **The helpers and imports of a script.** -/
structure Linkage where
  helpers : List Helper
  imports : List String
  deriving DecidableEq

namespace Linkage

def empty : Linkage := ⟨[], []⟩

def has (l : Linkage) (h : Helper) : Bool :=
  l.helpers.contains h

/-- A text put into an ordered list, once. -/
def insertOrdered (t : String) : List String → List String
  | [] => [t]
  | u :: us => if t < u then t :: u :: us else if t = u then u :: us else u :: insertOrdered t us

def addImport (l : Linkage) (t : String) : Linkage :=
  { l with imports := insertOrdered t l.imports }

/-- **Adds a helper and its imports**; a helper that is there already changes nothing. -/
def add (l : Linkage) (h : Helper) : Linkage :=
  if l.has h then l else h.imports.foldl addImport { l with helpers := l.helpers ++ [h] }

end Linkage
end Bibstyle
