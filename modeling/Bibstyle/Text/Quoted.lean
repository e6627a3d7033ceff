/-!
# Quoted — single-quoted string literals

A string of a style becomes a single-quoted Groovy literal.  The backslash, the quote, and the three line and tab
controls are escaped; all else stands for itself.
-/
namespace Bibstyle
namespace Text

/-- **One character of a literal.** -/
def escape : Char → List Char
  | '\\' => ['\\', '\\']
  | '\'' => ['\\', '\'']
  | '\n' => ['\\', 'n']
  | '\r' => ['\\', 'r']
  | '\t' => ['\\', 't']
  | c => [c]

/-- **A literal**, its quotes included. -/
def quoteChars (s : List Char) : List Char :=
  '\'' :: s.flatMap escape ++ ['\'']

def quote (s : String) : String :=
  String.ofList (quoteChars s.toList)

end Text
end Bibstyle
