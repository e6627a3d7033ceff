import Bibstyle.Reduction.Weight
/-!
# Branch — branches whose outcome is known

A branch on a constant is replaced by the side it takes.  A branch on a pure condition with nothing on either side is
dropped, and so is a loop whose constant test fails at once.
-/
namespace Bibstyle

/-- The integer an expression is, if it is a constant. -/
def Expr.constant? : Expr → Option Int32
  | .int n => some n
  | _ => none

/-- Whether an expression is a constant that fails a test. -/
def Expr.fails (e : Expr) : Bool :=
  match e.constant? with
  | some n => n ≤ 0
  | none => false

namespace Stmt

mutual

/-- **A statement without the branches whose outcome is known.** -/
def prune : Stmt → Pass
  | branch c yes no =>
    let y := pruneAll yes
    let n := pruneAll no
    match c.constant? with
    | some v => ⟨true, if 0 < v then y.block else n.block⟩
    | none =>
      if yes.isEmpty && no.isEmpty && c.isPure then ⟨true, []⟩
      else ⟨y.changed || n.changed, [branch c y.block n.block]⟩
  | loop setup c body =>
    let s := pruneAll setup
    let b := pruneAll body
    if setup.isEmpty && c.fails then ⟨true, []⟩
    else ⟨s.changed || b.changed, [loop s.block c b.block]⟩
  | each reverse body =>
    let b := pruneAll body
    ⟨b.changed, [each reverse b.block]⟩
  | t => .keep t

def pruneAll : List Stmt → Pass
  | [] => ⟨false, []⟩
  | t :: ts => (prune t).append (pruneAll ts)

end

mutual

/-- Pruning never adds weight, and takes some away if it changes anything. -/
theorem weight_prune : ∀ t : Stmt, weightAll (prune t).block + (prune t).changed.toNat ≤ weight t
  | branch c yes no => by
    have h1 := weight_pruneAll yes
    have h2 := weight_pruneAll no
    have h3 := toNat_or_le (pruneAll yes).changed (pruneAll no).changed
    simp only [prune, weight]
    split
    · simp only [Bool.toNat_true]
      split <;> omega
    · split
      · simp only [weightAll, Bool.toNat_true]; omega
      · simp only [weightAll, weight]; omega
  | loop setup c body => by
    have h1 := weight_pruneAll setup
    have h2 := weight_pruneAll body
    have h3 := toNat_or_le (pruneAll setup).changed (pruneAll body).changed
    simp only [prune, weight]
    split
    · simp only [weightAll, Bool.toNat_true]; omega
    · simp only [weightAll, weight]; omega
  | each reverse body => by
    have h1 := weight_pruneAll body
    simp only [prune, weightAll, weight]; omega
  | eval _ | declare _ _ | assign _ _ | comment _ => by simp [prune, Pass.keep, weightAll, weight]

theorem weight_pruneAll : ∀ b : List Stmt, weightAll (pruneAll b).block + (pruneAll b).changed.toNat ≤ weightAll b
  | [] => by simp [pruneAll, weightAll]
  | t :: ts => by
    have h1 := weight_prune t
    have h2 := weight_pruneAll ts
    have h3 := toNat_or_le (prune t).changed (pruneAll ts).changed
    simp only [pruneAll, Pass.append, weightAll_append, weightAll]; omega

end

end Stmt
end Bibstyle
