import Bibstyle.Code.Rendering
import Bibstyle.Code.Stmt
import Bibstyle.Text.Line
/-!
# Listing — methods as lines

A branch with nothing to do when its condition holds is written with the opposite condition.  A branch whose other side
is one branch again is chained to it.  A loop whose test needs statements before it is an endless loop that the failing
test leaves.
-/
namespace Bibstyle

namespace Stmt

/-- Whether a statement can follow `else` without braces: a branch that is not written with the opposite condition. -/
def chains : Stmt → Bool
  | branch _ (_ :: _) _ => true
  | _ => false

/-- What an assignment writes before the value and after it. -/
def assignment (s : Scope) (value : String) : Target → String
  | .var v => s.name v ++ " = " ++ value
  | .global n => n ++ " = " ++ value
  | .entryVar n => "entry.setLocal(" ++ Text.quote n ++ ", " ++ value ++ ")"

/-- What a declaration writes. -/
def declaration (s : Scope) (v : VarId) : Option Expr → String
  | none => (s.ty v).keyword ++ " " ++ s.name v
  | some e => (s.ty v).keyword ++ " " ++ s.name v ++ " = " ++ e.render s

/-- Lines one level deeper, between a line that opens braces and the line that closes them. -/
def braced (d : Nat) (head : String) (inner : List Line) : List Line :=
  ⟨d, head ++ " \x7b"⟩ :: (inner ++ [⟨d, "\x7d"⟩])

mutual

/-- **A statement as lines**, at a depth. -/
def lines (s : Scope) (d : Nat) : Stmt → List Line
  | eval e => [⟨d, e.render s⟩]
  | declare v init => [⟨d, declaration s v init⟩]
  | assign t e => [⟨d, assignment s (e.render s) t⟩]
  | comment text => [⟨d, "// " ++ text⟩]
  | each reverse body =>
    ⟨d, "bibDB." ++ (if reverse then "reverseEach" else "each") ++ " \x7b entry ->"⟩ ::
      (linesAll s (d + 1) body ++ [⟨d, "\x7d"⟩])
  | loop [] c body => braced d ("while (" ++ c.condition s false ++ ")") (linesAll s (d + 1) body)
  | loop setup c body =>
    braced d "while (true)" (linesAll s (d + 1) setup ++
      braced (d + 1) ("if (" ++ c.condition s true ++ ")") [⟨d + 2, "break"⟩] ++ linesAll s (d + 1) body)
  | branch c yes no =>
    if yes.isEmpty && !no.isEmpty then braced d ("if (" ++ c.condition s true ++ ")") (linesAll s (d + 1) no)
    else
      ⟨d, "if (" ++ c.condition s false ++ ") \x7b"⟩ :: (linesAll s (d + 1) yes ++ linesElse s d no)

/-- **The end of a branch**: what is done when the condition fails. -/
def linesElse (s : Scope) (d : Nat) : List Stmt → List Line
  | [] => [⟨d, "\x7d"⟩]
  | [t] =>
    if t.chains then Line.lead "\x7d else " (lines s d t)
    else braced d "\x7d else" (lines s (d + 1) t)
  | t :: ts => braced d "\x7d else" (lines s (d + 1) t ++ linesAll s (d + 1) ts)

/-- Statements as lines. -/
def linesAll (s : Scope) (d : Nat) : List Stmt → List Line
  | [] => []
  | t :: ts => lines s d t ++ linesAll s d ts

end

end Stmt

/-- **Statements as lines**, at a depth. -/
def Block.lines (b : Block) (s : Scope) (d : Nat) : List Line :=
  Stmt.linesAll s d b

namespace Routine

/-- What a method declares between its parentheses. -/
def declaredParams (r : Routine) : List String :=
  (if r.usesEntry then ["def entry"] else []) ++
    r.params.map (fun v => (r.scope.ty v).keyword ++ " " ++ r.scope.name v)

/-- **A method as lines**, at a depth. -/
def lines (r : Routine) (d : Nat) : List Line :=
  let returned := match r.result with
    | some e => [⟨d + 1, "return " ++ e.render r.scope⟩]
    | none => []
  Stmt.braced d (r.returnType.keyword ++ " " ++ r.method ++ "(" ++ String.intercalate ", " r.declaredParams ++ ")")
    (Block.lines r.body r.scope (d + 1) ++ returned)

end Routine
end Bibstyle
