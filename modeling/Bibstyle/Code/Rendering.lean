import Bibstyle.Code.Expr
import Bibstyle.Text.Quoted
/-!
# Rendering — expressions as text

Parentheses stand only where the reader of the text would otherwise bind the parts differently.  A comparison is 1 or 0
as a value; where a condition is wanted it is written as it is, and any other expression as a test against zero.
-/
namespace Bibstyle

/-- **How tightly a text binds**, the loosest first. -/
inductive Binding where
  | equality
  | relational
  | additive
  | unary
  | atom
  deriving DecidableEq

def Binding.rank : Binding → Nat
  | equality => 0
  | relational => 1
  | additive => 2
  | unary => 3
  | atom => 4

/-- **A rendered expression.** -/
structure Rendered where
  text : String
  binding : Binding
  deriving DecidableEq

/-- **A part of an expression**, in parentheses if it binds looser than `least`. -/
def Rendered.within (r : Rendered) (least : Nat) : String :=
  if r.binding.rank < least then "(" ++ r.text ++ ")" else r.text

/-- **The sign of a comparison**, or of its opposite. -/
def CompareOp.sign : CompareOp → Bool → String
  | lt, false => "<"
  | lt, true => ">="
  | gt, false => ">"
  | gt, true => "<="
  | eq, false => "=="
  | eq, true => "!="

def CompareOp.binding : CompareOp → Binding
  | eq => .equality
  | lt | gt => .relational

def BinaryOp.sign : BinaryOp → String
  | add | concat => "+"
  | sub => "-"

namespace Expr

/-- A comparison of two rendered parts; both bind tighter than it. -/
def comparison (op : CompareOp) (negate : Bool) (left right : Rendered) : String :=
  left.within (op.binding.rank + 1) ++ " " ++ op.sign negate ++ " " ++ right.within (op.binding.rank + 1)

/-- How a variable of the entry is read. -/
def getter : Ty → String
  | .int => "localInt"
  | .string => "localString"
  | .void | .generic => "local"

mutual

/-- **An expression as text**, and how tightly the text binds. -/
def rendered (s : Scope) : Expr → Rendered
  | int n => ⟨Decimal.text n, if n < 0 then .unary else .atom⟩
  | str v => ⟨Text.quote v, .atom⟩
  | quoted n => ⟨Text.quote n, .atom⟩
  | var v => ⟨s.name v, .atom⟩
  | global n _ => ⟨n, .atom⟩
  | field n => ⟨"entry.field(" ++ Text.quote n ++ ")", .atom⟩
  | entryVar n t => ⟨"entry." ++ getter t ++ "(" ++ Text.quote n ++ ")", .atom⟩
  | entry => ⟨"entry", .atom⟩
  | call c args _ _ => ⟨c.method ++ "(" ++ String.intercalate ", " (renderedAll s args) ++ ")", .atom⟩
  | binary op l r =>
    ⟨(rendered s l).within Binding.additive.rank ++ " " ++ op.sign ++ " " ++
      (rendered s r).within (if op = .sub then Binding.additive.rank + 1 else Binding.additive.rank), .additive⟩
  | compare op l r => ⟨"(" ++ comparison op false (rendered s l) (rendered s r) ++ " ? 1 : 0)", .atom⟩
  | verbatim t _ => ⟨t, .atom⟩
  | block g => ⟨"null /* " ++ g.text ++ " */", .atom⟩

def renderedAll (s : Scope) : List Expr → List String
  | [] => []
  | e :: es => (rendered s e).text :: renderedAll s es

end

/-- **An expression as text.** -/
def render (s : Scope) (e : Expr) : String :=
  (e.rendered s).text

/-- **An expression as a condition**, or as the opposite condition. -/
def condition (s : Scope) (negate : Bool) : Expr → String
  | compare op l r => comparison op negate (l.rendered s) (r.rendered s)
  | e => (e.rendered s).within (Binding.relational.rank + 1) ++ " " ++ CompareOp.gt.sign negate ++ " 0"

end Expr
end Bibstyle
