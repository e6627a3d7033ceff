import Bibstyle.Code.Ty
import Bibstyle.Style.Term
/-!
# Expr — expressions and the variables they read

Expressions are what the symbolic stack holds.  A block of the style and a quoted name may sit on the stack like any
value, but they are no values of the generated program.  Variables are numbers into the scope of their method.
-/
namespace Bibstyle

/-! ## Variables -/

/-- **A variable**, by its place in the scope. -/
abbrev VarId := Nat

/-- **Where a variable comes from**: a parameter was found at some depth of the caller's stack, the top being 0. -/
inductive Origin where
  | param (depth : Nat)
  | local
  deriving DecidableEq

structure Variable where
  origin : Origin
  ty : Ty
  /-- Unset until the variables of the method are named. -/
  name : Option String
  deriving DecidableEq

/-- **The variables of one method**, in the order they were made. -/
structure Scope where
  vars : Array Variable
  deriving DecidableEq

namespace Scope

def empty : Scope := ⟨#[]⟩

def get? (s : Scope) (v : VarId) : Option Variable :=
  s.vars[v]?

/-- The type of a variable; one that is not in the scope is generic. -/
def ty (s : Scope) (v : VarId) : Ty :=
  match s.get? v with
  | some x => x.ty
  | none => .generic

/-- The name of a variable, or `_` while it has none. -/
def name (s : Scope) (v : VarId) : String :=
  ((s.get? v).bind (·.name)).getD "_"

def isLocal (s : Scope) (v : VarId) : Bool :=
  match s.get? v with
  | some x => x.origin == .local
  | none => false

end Scope

/-! ## Expressions -/

inductive BinaryOp where
  | add
  | sub
  | concat
  deriving DecidableEq

inductive CompareOp where
  | lt
  | gt
  | eq
  deriving DecidableEq

/-- **What a call runs**: a function of the style, by the name of its method, or a fixed method of the runtime. -/
inductive Callee where
  | style (method : String)
  | runtime (method : String)
  deriving DecidableEq

def Callee.method : Callee → String
  | style m | runtime m => m

/-- **An expression of the generated program**, or a procedure on the symbolic stack. -/
inductive Expr where
  | int (value : Int32)
  | str (value : String)
  | quoted (name : String)
  | var (id : VarId)
  | global (name : String) (ty : Ty)
  | field (name : String)
  | entryVar (name : String) (ty : Ty)
  | entry
  | call (callee : Callee) (args : List Expr) (ty : Ty) (effect : Bool)
  | binary (op : BinaryOp) (left right : Expr)
  | compare (op : CompareOp) (left right : Expr)
  | verbatim (text : String) (ty : Ty)
  | block (group : Group)

/-- **What an assignment changes.** -/
inductive Target where
  | var (id : VarId)
  | global (name : String)
  | entryVar (name : String)
  deriving DecidableEq

namespace Expr

/-- A call of a runtime method that changes nothing. -/
def pureCall (method : String) (args : List Expr) (ty : Ty) : Expr :=
  .call (.runtime method) args ty false

/-- A call of a runtime method for what it does. -/
def effectCall (method : String) (args : List Expr) : Expr :=
  .call (.runtime method) args .void true

/-- **The type of an expression** in a scope. -/
def ty (s : Scope) : Expr → Ty
  | int _ | compare _ _ _ => .int
  | str _ | field _ => .string
  | var v => s.ty v
  | global _ t | entryVar _ t | call _ _ t _ | verbatim _ t => t
  | binary .concat _ _ => .string
  | binary _ _ _ => .int
  | quoted _ | entry | block _ => .generic

/-- **Whether an expression is a value**: procedures are not. -/
def isValue : Expr → Bool
  | block _ | quoted _ => false
  | _ => true

mutual

/-- **Whether evaluating an expression changes nothing.** -/
def isPure : Expr → Bool
  | call _ args _ effect => !effect && allPure args
  | binary _ l r | compare _ l r => isPure l && isPure r
  | _ => true

def allPure : List Expr → Bool
  | [] => true
  | e :: es => isPure e && allPure es

end

mutual

/-- **An expression and all below it**, each before its parts. -/
def nodes : Expr → List Expr
  | call c args t effect => call c args t effect :: nodesAll args
  | binary op l r => binary op l r :: (nodes l ++ nodes r)
  | compare op l r => compare op l r :: (nodes l ++ nodes r)
  | e => [e]

def nodesAll : List Expr → List Expr
  | [] => []
  | e :: es => nodes e ++ nodesAll es

end

/-- Whether an expression is a read of what is assigned. -/
def isRead : Target → Expr → Bool
  | .var v, var w => v == w
  | .global n, global m _ => n == m
  | .entryVar n, entryVar m _ => n == m
  | _, _ => false

/-- **Whether an assignment could change the value of an expression.** -/
def reads (t : Target) (e : Expr) : Bool :=
  e.nodes.any (isRead t)

/-- Whether an expression is a read of a global or of a variable of the entry. -/
def isStateRead : Expr → Bool
  | global _ _ | entryVar _ _ => true
  | _ => false

/-- **Whether running a function of the style could change the value of an expression.** -/
def readsState (e : Expr) : Bool :=
  e.nodes.any isStateRead

/-- The variable an expression is, if it is one. -/
def var? : Expr → Option VarId
  | var v => some v
  | _ => none

/-- **The variables an expression reads.** -/
def vars (e : Expr) : List VarId :=
  e.nodes.filterMap var?

/-! ## Equality -/

mutual

/-- Whether two expressions are the same, the places of blocks included. -/
def same : Expr → Expr → Bool
  | int n, int m => n == m
  | str s, str t => s == t
  | quoted s, quoted t => s == t
  | var v, var w => v == w
  | global n t, global m u => n == m && t == u
  | field n, field m => n == m
  | entryVar n t, entryVar m u => n == m && t == u
  | entry, entry => true
  | call c as t e, call d bs u f => c == d && sameAll as bs && t == u && e == f
  | binary o a b, binary p c d => o == p && same a c && same b d
  | compare o a b, compare p c d => o == p && same a c && same b d
  | verbatim s t, verbatim r u => s == r && t == u
  | block g, block h => g == h
  | _, _ => false

def sameAll : List Expr → List Expr → Bool
  | [], [] => true
  | a :: as, b :: bs => same a b && sameAll as bs
  | _, _ => false

end

mutual

theorem same_iff : ∀ a b : Expr, same a b = true ↔ a = b
  | int _, b => by cases b <;> simp [same]
  | str _, b => by cases b <;> simp [same]
  | quoted _, b => by cases b <;> simp [same]
  | var _, b => by cases b <;> simp [same]
  | global _ _, b => by cases b <;> simp [same]
  | field _, b => by cases b <;> simp [same]
  | entryVar _ _, b => by cases b <;> simp [same]
  | entry, b => by cases b <;> simp [same]
  | call _ as _ _, b => by cases b <;> simp [same, sameAll_iff as, and_assoc]
  | binary _ l r, b => by cases b <;> simp [same, same_iff l, same_iff r, and_assoc]
  | compare _ l r, b => by cases b <;> simp [same, same_iff l, same_iff r, and_assoc]
  | verbatim _ _, b => by cases b <;> simp [same]
  | block _, b => by cases b <;> simp [same]

theorem sameAll_iff : ∀ as bs : List Expr, sameAll as bs = true ↔ as = bs
  | [], bs => by cases bs <;> simp [sameAll]
  | a :: as, bs => by cases bs <;> simp [sameAll, same_iff a, sameAll_iff as]

end

instance : DecidableEq Expr := fun a b => decidable_of_iff _ (same_iff a b)

end Expr
end Bibstyle
