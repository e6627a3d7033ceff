/-!
# Ty — the types of generated code

A value is an integer or a string.  A variable whose type is not known yet is generic, which fits everything; only a
method without a result is void.
-/
namespace Bibstyle

/-- **A type of generated code.** -/
inductive Ty where
  | void
  | int
  | string
  | generic
  deriving DecidableEq

namespace Ty

/-- How a declaration writes a type. -/
def keyword : Ty → String
  | void => "void"
  | int => "int"
  | string => "String"
  | generic => "def"

/-- How a diagnostic writes a type. -/
def label : Ty → String
  | void => "VOID"
  | int => "INT"
  | string => "STRING"
  | generic => "GENERIC"

/-- **Whether a value of one type may stand where another is wanted.** -/
def fits (a b : Ty) : Bool :=
  a == b || a == generic || b == generic

/-- **The more precise of two types**, if they agree. -/
def unify? (a b : Ty) : Option Ty :=
  if a = b then some a
  else if a = generic then some b
  else if b = generic then some a
  else none

end Ty
end Bibstyle
