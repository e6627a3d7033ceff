import Bibstyle.Code.Stmt
/-!
# Frame — a symbolic stack and the statements that feed it

Taking a value from an empty stack does not fail: the value must come from the caller, so it is a parameter.  `base`
counts the values that enclosing frames have drawn from the caller, `drawn` those that this frame has.
-/
namespace Bibstyle

/-- **The stack of a body or of a branch**, its top first, and the statements made so far. -/
structure Frame where
  stack : List Expr
  code : Block
  base : Nat
  drawn : Nat

namespace Frame

def empty : Frame := ⟨[], [], 0, 0⟩

/-- **A frame for a branch or a loop**: the same stack, no statements, and parameters from below all drawn so far. -/
def nested (f : Frame) : Frame := ⟨f.stack, [], f.base + f.drawn, 0⟩

end Frame
end Bibstyle
