import Bibstyle.Reduction.Weight
/-!
# Store — values that nobody reads

A store to a local that is never read is dropped.  Its value stays behind as a bare evaluation if evaluating it does
something.  A pure value stored into a local does not count as a read of that same local, so a counter that only counts
itself is never read.
-/
namespace Bibstyle
namespace Stmt

/-- The variables that a value stored in `v` keeps alive. -/
def storeReads (v : VarId) (e : Expr) : List VarId :=
  if e.isPure then e.vars.filter (· != v) else e.vars

theorem mem_storeReads {v w : VarId} {e : Expr} :
    w ∈ storeReads v e ↔ w ∈ e.vars ∧ (e.isPure = true → w ≠ v) := by
  unfold storeReads
  split <;> simp [*]

mutual

/-- **The variables a statement reads.** -/
def reads : Stmt → List VarId
  | eval e => e.vars
  | declare v (some e) => storeReads v e
  | assign (.var v) e => storeReads v e
  | assign _ e => e.vars
  | branch c yes no => c.vars ++ readsAll yes ++ readsAll no
  | loop setup c body => readsAll setup ++ c.vars ++ readsAll body
  | each _ body => readsAll body
  | declare _ none | comment _ => []

def readsAll : List Stmt → List VarId
  | [] => []
  | t :: ts => reads t ++ readsAll ts

end

/-- What remains of a store that nobody reads. -/
def residue (e : Expr) : List Stmt :=
  if e.isPure then [] else [eval e]

mutual

/-- **A statement without stores to dead variables.** -/
def sweep (dead : VarId → Bool) : Stmt → Pass
  | declare v none => if dead v then ⟨true, []⟩ else .keep (declare v none)
  | declare v (some e) => if dead v then ⟨true, residue e⟩ else .keep (declare v (some e))
  | assign (.var v) e => if dead v then ⟨true, residue e⟩ else .keep (assign (.var v) e)
  | branch c yes no =>
    let y := sweepAll dead yes
    let n := sweepAll dead no
    ⟨y.changed || n.changed, [branch c y.block n.block]⟩
  | loop setup c body =>
    let s := sweepAll dead setup
    let b := sweepAll dead body
    ⟨s.changed || b.changed, [loop s.block c b.block]⟩
  | each reverse body =>
    let b := sweepAll dead body
    ⟨b.changed, [each reverse b.block]⟩
  | t => .keep t

def sweepAll (dead : VarId → Bool) : List Stmt → Pass
  | [] => ⟨false, []⟩
  | t :: ts => (sweep dead t).append (sweepAll dead ts)

end

theorem weightAll_residue (e : Expr) : weightAll (residue e) ≤ 1 := by
  unfold residue
  split <;> simp [weightAll, weight]

mutual

/-- Sweeping never adds weight, and takes some away if it changes anything. -/
theorem weight_sweep (dead : VarId → Bool) :
    ∀ t : Stmt, weightAll (sweep dead t).block + (sweep dead t).changed.toNat ≤ weight t
  | declare v none => by
    simp only [sweep]
    split <;> simp [Pass.keep, weightAll, weight]
  | declare v (some e) => by
    have hresidue := weightAll_residue e
    simp only [sweep]
    split <;> simp only [Pass.keep, weightAll, weight, Bool.toNat_true, Bool.toNat_false] <;> omega
  | assign (.var v) e => by
    have hresidue := weightAll_residue e
    simp only [sweep]
    split <;> simp only [Pass.keep, weightAll, weight, Bool.toNat_true, Bool.toNat_false] <;> omega
  | assign (.global _) _ | assign (.entryVar _) _ | eval _ | comment _ => by simp [sweep, Pass.keep, weightAll, weight]
  | branch c yes no => by
    have h1 := weight_sweepAll dead yes
    have h2 := weight_sweepAll dead no
    have h3 := toNat_or_le (sweepAll dead yes).changed (sweepAll dead no).changed
    simp only [sweep, weightAll, weight]; omega
  | loop setup c body => by
    have h1 := weight_sweepAll dead setup
    have h2 := weight_sweepAll dead body
    have h3 := toNat_or_le (sweepAll dead setup).changed (sweepAll dead body).changed
    simp only [sweep, weightAll, weight]; omega
  | each reverse body => by
    have h1 := weight_sweepAll dead body
    simp only [sweep, weightAll, weight]; omega

theorem weight_sweepAll (dead : VarId → Bool) :
    ∀ b : List Stmt, weightAll (sweepAll dead b).block + (sweepAll dead b).changed.toNat ≤ weightAll b
  | [] => by simp [sweepAll, weightAll]
  | t :: ts => by
    have h1 := weight_sweep dead t
    have h2 := weight_sweepAll dead ts
    have h3 := toNat_or_le (sweep dead t).changed (sweepAll dead ts).changed
    simp only [sweepAll, Pass.append, weightAll_append, weightAll]; omega

end

end Stmt
end Bibstyle
