import Bibstyle.Code.Expr
/-!
# Stmt — statements, and the methods made of them

Everything that has an effect is a statement.  A loop runs its setup before each test.  A method's parameters stand with
the deepest value of the caller's stack first.
-/
namespace Bibstyle

/-- **A statement of the generated program.** -/
inductive Stmt where
  | eval (value : Expr)
  | declare (id : VarId) (init : Option Expr)
  | assign (target : Target) (value : Expr)
  | branch (condition : Expr) (yes no : List Stmt)
  | loop (setup : List Stmt) (condition : Expr) (body : List Stmt)
  | each (reverse : Bool) (body : List Stmt)
  | comment (text : String)

/-- **Statements, run in order.** -/
abbrev Block := List Stmt

/-- **What callers know about a method.** -/
structure Signature where
  method : String
  params : List Ty
  usesEntry : Bool
  result : Ty
  deriving DecidableEq

/-- **Whether a method can handle an entry type**: it needs the entry, and nothing else. -/
def Signature.isHandler (s : Signature) : Bool :=
  s.result == .void && s.usesEntry && s.params.isEmpty

/-- **A compiled function of the style.** -/
structure Routine where
  name : String
  method : String
  params : List VarId
  usesEntry : Bool
  body : Block
  result : Option Expr
  scope : Scope

namespace Routine

def returnType (r : Routine) : Ty :=
  match r.result with
  | some e => e.ty r.scope
  | none => .void

def signature (r : Routine) : Signature where
  method := r.method
  params := r.params.map r.scope.ty
  usesEntry := r.usesEntry
  result := r.returnType

end Routine
end Bibstyle
