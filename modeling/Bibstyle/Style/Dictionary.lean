import Bibstyle.Code.Stmt
import Bibstyle.Fault
import Bibstyle.Style.Primitive
/-!
# Dictionary — what each name means

A name is declared once and keeps its meaning.  The names every style has are declared before the style begins.
-/
namespace Bibstyle

/-- **What a name means in a body.**  A global is known by its identifier. -/
inductive Meaning where
  | primitive (p : Primitive)
  | routine (signature : Signature)
  | field
  | globalInteger (id : String)
  | globalString (id : String)
  | entryInteger
  | entryString
  | constant (value : Int32)
  deriving DecidableEq

/-- **All names known so far**, in the order they were declared. -/
structure Dictionary where
  entries : List (String × Meaning)
  deriving DecidableEq

namespace Dictionary

/-- The longest string a global may hold. -/
def globalMax : Int32 := 20000

/-- The longest string a variable of an entry may hold. -/
def entryMax : Int32 := 250

/-- **The names every style has.** -/
def initial : Dictionary :=
  ⟨Primitive.all.map (fun p => (p.name, .primitive p)) ++
    [("global.max$", .constant globalMax), ("entry.max$", .constant entryMax), ("sort.key$", .entryString),
     ("crossref", .field)]⟩

def get? (d : Dictionary) (name : String) : Option Meaning :=
  d.entries.lookup name

def contains (d : Dictionary) (name : String) : Bool :=
  (d.get? name).isSome

/-- **Declares a name** that has no meaning yet. -/
def declare (d : Dictionary) (name : String) (m : Meaning) : Except AnalysisFault Dictionary :=
  if d.contains name then .error (.redefinition name) else .ok ⟨d.entries ++ [(name, m)]⟩

end Dictionary
end Bibstyle
