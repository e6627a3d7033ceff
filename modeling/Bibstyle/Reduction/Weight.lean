import Bibstyle.Code.Stmt
/-!
# Weight — a measure of statements

Every statement weighs one, and a store one more, so that a store which becomes a bare evaluation is lighter.  A pass
over statements gives back the new statements and whether it changed anything; all passes here make what they change
lighter, which is why repeating them ends.
-/
namespace Bibstyle

/-- **What a pass gives back.** -/
structure Pass where
  changed : Bool
  block : Block

namespace Pass

/-- A statement that a pass leaves as it is. -/
def keep (t : Stmt) : Pass := ⟨false, [t]⟩

/-- The passes over a first and a second part. -/
def append (p q : Pass) : Pass := ⟨p.changed || q.changed, p.block ++ q.block⟩

end Pass

namespace Stmt

mutual

/-- **The weight of a statement.** -/
def weight : Stmt → Nat
  | eval _ | comment _ => 1
  | declare _ _ | assign _ _ => 2
  | branch _ yes no => 1 + weightAll yes + weightAll no
  | loop setup _ body => 1 + weightAll setup + weightAll body
  | each _ body => 1 + weightAll body

def weightAll : List Stmt → Nat
  | [] => 0
  | t :: ts => weight t + weightAll ts

end

theorem weightAll_append : ∀ a b : List Stmt, weightAll (a ++ b) = weightAll a + weightAll b
  | [], b => by simp [weightAll]
  | t :: a, b => by simp [weightAll, weightAll_append a b, Nat.add_assoc]

/-- A pass over two parts changed no more than both did. -/
theorem toNat_or_le (a b : Bool) : (a || b).toNat ≤ a.toNat + b.toNat := by
  cases a <;> cases b <;> decide

end Stmt
end Bibstyle
