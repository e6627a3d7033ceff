import Bibstyle.Code.Stmt
/-!
# Constant — expressions whose value is known

Sums and differences that fit in 32 bits, joined strings, and comparisons of constants are computed; a sum that does not
fit stays as it is.  Folding goes from the leaves up, and a constant string joined to the end of a join goes into it.
-/
namespace Bibstyle
namespace Expr

/-- 1 or 0. -/
def ofBool (b : Bool) : Expr :=
  int (if b then 1 else 0)

/-- **A join or a sum of folded parts.** -/
def foldBinary : BinaryOp → Expr → Expr → Expr
  | .add, int a, int b =>
    match Decimal.word? (a.toInt + b.toInt) with
    | some n => int n
    | none => binary .add (int a) (int b)
  | .sub, int a, int b =>
    match Decimal.word? (a.toInt - b.toInt) with
    | some n => int n
    | none => binary .sub (int a) (int b)
  | .concat, str a, str b => str (a ++ b)
  | .concat, binary .concat e (str a), str b => binary .concat e (str (a ++ b))
  | op, l, r => binary op l r

/-- **A comparison of folded parts.** -/
def foldCompare : CompareOp → Expr → Expr → Expr
  | .lt, int a, int b => ofBool (a < b)
  | .gt, int a, int b => ofBool (b < a)
  | .eq, int a, int b => ofBool (a == b)
  | .eq, str a, str b => ofBool (a == b)
  | op, l, r => compare op l r

mutual

/-- **An expression with its constants computed.** -/
def fold : Expr → Expr
  | call c args t effect => call c (foldAll args) t effect
  | binary op l r => foldBinary op (fold l) (fold r)
  | compare op l r => foldCompare op (fold l) (fold r)
  | e => e

def foldAll : List Expr → List Expr
  | [] => []
  | e :: es => fold e :: foldAll es

end

end Expr

namespace Stmt

mutual

/-- A statement with every expression in it changed. -/
def map (f : Expr → Expr) : Stmt → Stmt
  | eval e => eval (f e)
  | declare v init => declare v (init.map f)
  | assign t e => assign t (f e)
  | branch c yes no => branch (f c) (mapAll f yes) (mapAll f no)
  | loop setup c body => loop (mapAll f setup) (f c) (mapAll f body)
  | each reverse body => each reverse (mapAll f body)
  | comment text => comment text

def mapAll (f : Expr → Expr) : List Stmt → List Stmt
  | [] => []
  | t :: ts => map f t :: mapAll f ts

end

end Stmt
end Bibstyle
