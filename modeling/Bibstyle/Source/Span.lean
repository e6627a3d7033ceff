/-!
# Span — where a piece of a style stands

Lines and columns count from one, and a column counts characters.  The end is exclusive.  A span that covers two others
takes the least of each start and the greatest of each end, lines and columns apart from each other.
-/
namespace Bibstyle

/-- **A piece of a source**, by the lines and columns it covers. -/
structure Span where
  path : String
  startLine : Nat
  startCol : Nat
  endLine : Nat
  endCol : Nat
  deriving DecidableEq

namespace Span

/-- **The span that covers two spans** of one source. -/
def cover (a b : Span) : Span where
  path := a.path
  startLine := min a.startLine b.startLine
  startCol := min a.startCol b.startCol
  endLine := max a.endLine b.endLine
  endCol := max a.endCol b.endCol

/-- **The span that covers a list of spans**: none if there are no spans, or if they are of several sources. -/
def coverAll? : List Span → Option Span
  | [] => none
  | s :: ss => if ss.all (fun t => t.path == s.path) then some (ss.foldl cover s) else none

end Span
end Bibstyle
