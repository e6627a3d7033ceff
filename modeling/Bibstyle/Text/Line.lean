/-!
# Line — text laid out in lines

Everything that is written is written line by line.  A line knows how deep it stands and what it says; the margin and
the indentation are put before it when the lines become text, so a listing is the same at every margin.
-/
namespace Bibstyle

/-- **One line of a listing.** -/
structure Line where
  depth : Nat
  text : String
  deriving DecidableEq

namespace Line

/-- **One level of indentation.** -/
def indent : String := "    "

/-- A line without text and without indentation. -/
def blank : Line := ⟨0, ""⟩

def indentation : Nat → String
  | 0 => ""
  | n + 1 => indent ++ indentation n

/-- **A line as text**: the margin, the indentation, what it says, and a line feed. -/
def render (margin : String) (l : Line) : String :=
  margin ++ indentation l.depth ++ l.text ++ "\n"

/-- **Lines as text.** -/
def renderAll (margin : String) (ls : List Line) : String :=
  String.join (ls.map (render margin))

/-- The lines with a word put before the text of the first. -/
def lead (word : String) : List Line → List Line
  | [] => []
  | l :: ls => { l with text := word ++ l.text } :: ls

end Line
end Bibstyle
