import Bibstyle.Text.Decimal
/-!
# Identifier — Groovy names for the names of a style

A name such as `format.names` becomes `formatNames`: every character that no identifier can hold divides words, and each
word after the first begins with a capital.  A name that is a keyword, a member of the script's class, or shaped like a
variable gets an underscore.  A name that is taken gets the first number from 2 on that makes it free.
-/
namespace Bibstyle
namespace Identifier

/-- **Keywords, literals, and the names the script's class uses itself.** -/
def reserved : List String :=
  ["abstract", "as", "assert", "boolean", "break", "byte", "case", "catch", "char", "class", "const", "continue",
   "def", "default", "do", "double", "else", "enum", "extends", "false", "final", "finally", "float", "for", "goto",
   "if", "implements", "import", "in", "instanceof", "int", "interface", "long", "native", "new", "null", "package",
   "private", "protected", "public", "return", "short", "static", "strictfp", "super", "switch", "synchronized",
   "this", "threadsafe", "throw", "throws", "trait", "transient", "true", "try", "var", "void", "volatile", "while",
   "bibDB", "bibWriter", "bibProcessor", "entry", "types", "run", "Style", "String", "Integer", "Math"]

/-- **The characters of an identifier**: ASCII letters, digits and the underscore. -/
def isWordChar (c : Char) : Bool :=
  c.isAlphanum || c == '_'

/-- The words of a name run together; `up` says that a new word begins. -/
def joinWords (up : Bool) : List Char → List Char
  | [] => []
  | c :: s =>
    if isWordChar c then (if up then c.toUpper else c) :: joinWords false s
    else joinWords true s

/-- **A name as one word**, with an underscore before it if it is empty or begins with a digit. -/
def camelCase (name : List Char) : List Char :=
  match joinWords false (name.dropWhile (fun c => !isWordChar c)) with
  | [] => ['_']
  | c :: s => if c.isDigit then '_' :: c :: s else c :: s

/-- **The shape of a parameter or a local**: `p` or `v` and a number. -/
def isVariableShaped : List Char → Bool
  | c :: s => (c == 'p' || c == 'v') && !s.isEmpty && s.all Char.isDigit
  | [] => false

/-- **The identifier a name would like to have.** -/
def wish (name : String) : String :=
  let word := camelCase name.toList
  if reserved.contains (String.ofList word) || isVariableShaped word then String.ofList (word ++ ['_'])
  else String.ofList word

theorem length_erase_lt {name : String} {names : List String} (h : name ∈ names) :
    (names.erase name).length < names.length := by
  rw [List.length_erase_of_mem h]
  exact Nat.pred_lt (Nat.ne_of_gt (List.length_pos_of_mem h))

/-- **The first numbered form that is free**, from `k` on.  A form that is taken is struck from the list, so the search
ends. -/
def freeFrom (base : String) (k : Nat) (taken : List String) : String :=
  let candidate := base ++ Decimal.nat k
  if h : candidate ∈ taken then freeFrom base (k + 1) (taken.erase candidate) else candidate
termination_by taken.length
decreasing_by exact length_erase_lt h

end Identifier

/-- **The identifiers given so far**, and the names that must not be given. -/
structure Identifiers where
  assigned : List (String × String)
  taken : List String
  deriving DecidableEq

namespace Identifiers

def empty : Identifiers := ⟨[], []⟩

/-- Keeps a name from being given. -/
def reserve (t : Identifiers) (name : String) : Identifiers :=
  { t with taken := name :: t.taken }

/-- A free identifier for a name. -/
def choose (t : Identifiers) (name : String) : String :=
  let base := Identifier.wish name
  if base ∈ t.taken then Identifier.freeFrom base 2 t.taken else base

/-- **The identifier of a name**, chosen when it is first asked for. -/
def assign (t : Identifiers) (name : String) : String × Identifiers :=
  match t.assigned.lookup name with
  | some id => (id, t)
  | none =>
    let id := t.choose name
    (id, ⟨(name, id) :: t.assigned, id :: t.taken⟩)

end Identifiers
end Bibstyle
