import Bibstyle.Code.Listing
/-!
# Printing — methods as text

Text is written from left to right, and the margin is handed down: what stands between braces has one that is wider by a
level.  A branch that is chained to another begins in the middle of a line, so what a statement writes is told without the
margin of its first line.
-/
namespace Bibstyle

namespace Stmt

mutual

/-- **A statement as text**, from where its first line has its margin on. -/
def written (s : Scope) (margin : String) : Stmt → String
  | eval e => e.render s ++ "\n"
  | declare v init => declaration s v init ++ "\n"
  | assign t e => assignment s (e.render s) t ++ "\n"
  | comment text => "// " ++ text ++ "\n"
  | each reverse body =>
    "bibDB." ++ (if reverse then "reverseEach" else "each") ++ " \x7b entry ->\n" ++
      printAll s (margin ++ Line.indent) body ++ margin ++ "\x7d\n"
  | loop [] c body =>
    "while (" ++ c.condition s false ++ ") \x7b\n" ++ printAll s (margin ++ Line.indent) body ++ margin ++ "\x7d\n"
  | loop setup c body =>
    let inner := margin ++ Line.indent
    "while (true) \x7b\n" ++ printAll s inner setup ++ inner ++ "if (" ++ c.condition s true ++ ") \x7b\n" ++
      inner ++ Line.indent ++ "break\n" ++ inner ++ "\x7d\n" ++ printAll s inner body ++ margin ++ "\x7d\n"
  | branch c yes no =>
    if yes.isEmpty && !no.isEmpty then
      "if (" ++ c.condition s true ++ ") \x7b\n" ++ printAll s (margin ++ Line.indent) no ++ margin ++ "\x7d\n"
    else
      "if (" ++ c.condition s false ++ ") \x7b\n" ++ printAll s (margin ++ Line.indent) yes ++ printElse s margin no

/-- **The end of a branch**: what is done when the condition fails. -/
def printElse (s : Scope) (margin : String) : List Stmt → String
  | [] => margin ++ "\x7d\n"
  | [t] =>
    if t.chains then margin ++ "\x7d else " ++ written s margin t
    else
      let inner := margin ++ Line.indent
      margin ++ "\x7d else \x7b\n" ++ inner ++ written s inner t ++ margin ++ "\x7d\n"
  | t :: ts =>
    let inner := margin ++ Line.indent
    margin ++ "\x7d else \x7b\n" ++ inner ++ written s inner t ++ printAll s inner ts ++ margin ++ "\x7d\n"

/-- Statements as text. -/
def printAll (s : Scope) (margin : String) : List Stmt → String
  | [] => ""
  | t :: ts => margin ++ written s margin t ++ printAll s margin ts

end

end Stmt

/-- **Statements as text**, behind a margin. -/
def Block.print (b : Block) (s : Scope) (margin : String) : String :=
  Stmt.printAll s margin b

/-- **A method as text**, behind a margin. -/
def Routine.print (r : Routine) (margin : String) : String :=
  let inner := margin ++ Line.indent
  let returned := match r.result with
    | some e => inner ++ "return " ++ e.render r.scope ++ "\n"
    | none => ""
  margin ++ r.returnType.keyword ++ " " ++ r.method ++ "(" ++ String.intercalate ", " r.declaredParams ++ ") \x7b\n" ++
    Block.print r.body r.scope inner ++ returned ++ margin ++ "\x7d\n"

end Bibstyle
