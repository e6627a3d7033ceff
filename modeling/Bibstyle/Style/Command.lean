import Bibstyle.Style.Term
/-!
# Command — the top level of a style

A style is a list of commands.  Each keyword takes a fixed number of lists in braces.
-/
namespace Bibstyle

/-- **How a command runs a function**: once, or once for each entry in one of two orders. -/
inductive RunMode where
  | execute
  | iterate
  | reverse
  deriving DecidableEq

def RunMode.keyword : RunMode → String
  | .execute => "EXECUTE"
  | .iterate => "ITERATE"
  | .reverse => "REVERSE"

/-- **The words that begin a command.** -/
inductive Keyword where
  | entry
  | function
  | integers
  | strings
  | abbreviation
  | run (mode : RunMode)
  | read
  | sort
  deriving DecidableEq

namespace Keyword

/-- How a keyword is spelt; names are in lower case. -/
def word : Keyword → String
  | entry => "entry"
  | function => "function"
  | integers => "integers"
  | strings => "strings"
  | abbreviation => "macro"
  | run .execute => "execute"
  | run .iterate => "iterate"
  | run .reverse => "reverse"
  | read => "read"
  | sort => "sort"

def all : List Keyword :=
  [entry, function, integers, strings, abbreviation, run .execute, run .iterate, run .reverse, read, sort]

/-- **The keyword that a name is**, if it is one. -/
def of? (name : String) : Option Keyword :=
  all.find? (fun k => k.word == name)

end Keyword

/-- **A command of a style.** -/
inductive Command where
  | entry (fields integers strings : Group) (span : Span)
  | function (name : String) (body : Group) (span : Span)
  | integers (names : Group) (span : Span)
  | strings (names : Group) (span : Span)
  | abbreviation (name value : String) (span : Span)
  | run (mode : RunMode) (function : String) (span : Span)
  | read (span : Span)
  | sort (span : Span)
  deriving DecidableEq

def Command.span : Command → Span
  | entry _ _ _ s | function _ _ s | integers _ s | strings _ s | abbreviation _ _ s | run _ _ s | read s | sort s => s

end Bibstyle
