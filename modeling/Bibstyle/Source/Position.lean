import Bibstyle.Source.Span
import Bibstyle.Text.Decimal
/-!
# Position — characters with their places

A source is read as a list of characters, each with its span of one column.  Only a line feed ends a line.
-/
namespace Bibstyle

/-- Where a diagnostic says a span is: its source, and the line and column where it starts. -/
def Span.label (s : Span) : String :=
  s.path ++ ":" ++ Decimal.nat s.startLine ++ ":" ++ Decimal.nat s.startCol

namespace Source

/-- **A character and its place.** -/
structure Located where
  char : Char
  span : Span
  deriving DecidableEq

/-- The characters of a source from a line and a column on. -/
def locateFrom (path : String) : Nat → Nat → List Char → List Located
  | _, _, [] => []
  | line, col, c :: s =>
    ⟨c, ⟨path, line, col, line, col + 1⟩⟩ ::
      (if c = '\n' then locateFrom path (line + 1) 1 s else locateFrom path line (col + 1) s)

/-- **The characters of a source**, from its first line and column. -/
def locate (path : String) (s : List Char) : List Located :=
  locateFrom path 1 1 s

end Source
end Bibstyle
