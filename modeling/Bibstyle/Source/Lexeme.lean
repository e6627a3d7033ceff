import Bibstyle.Source.Position
/-!
# Lexeme — the words of a style

A style has little lexical form: braces group, and everything else is a literal of some kind or a name.  Names are in
lower case.
-/
namespace Bibstyle

/-- **A word of a style.** -/
inductive Lexeme where
  | name (name : String)
  | quoted (name : String)
  | string (value : String)
  | integer (value : Int32)
  | opening
  | closing
  deriving DecidableEq

/-- **A word and where it stands.** -/
structure Token where
  lexeme : Lexeme
  span : Span
  deriving DecidableEq

/-- **How a word is written.** -/
def Lexeme.text : Lexeme → String
  | .name n => n
  | .quoted n => "'" ++ n
  | .string s => "\"" ++ s ++ "\""
  | .integer n => "#" ++ Decimal.text n
  | .opening => "\x7b"
  | .closing => "\x7d"

end Bibstyle
