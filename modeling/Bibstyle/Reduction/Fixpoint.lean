import Bibstyle.Reduction.Branch
import Bibstyle.Reduction.Constant
import Bibstyle.Reduction.Store
/-!
# Fixpoint — reducing a method

Constants are computed once.  Then known branches and dead stores are removed until a round finds neither: dropping a
branch may leave a store that nobody reads any more, and dropping a store may leave a branch with nothing in it.
-/
namespace Bibstyle

/-- The variables alive in a method: those its statements read, and those its result reads. -/
def Block.alive (b : Block) (result : Option Expr) : List VarId :=
  Stmt.readsAll b ++ (match result with
    | some e => e.vars
    | none => [])

/-- **A local that is never read.** -/
def Scope.dead (s : Scope) (alive : List VarId) (v : VarId) : Bool :=
  s.isLocal v && !alive.contains v

namespace Block

/-- **One round**: known branches, then dead stores. -/
def round (s : Scope) (result : Option Expr) (b : Block) : Pass :=
  let pruned := Stmt.pruneAll b
  let swept := Stmt.sweepAll (s.dead (Block.alive pruned.block result)) pruned.block
  ⟨pruned.changed || swept.changed, swept.block⟩

/-- A round that changes anything takes weight away. -/
theorem weight_round {s : Scope} {result : Option Expr} {b : Block} (h : (round s result b).changed = true) :
    Stmt.weightAll (round s result b).block < Stmt.weightAll b := by
  have h1 := Stmt.weight_pruneAll b
  have h2 := Stmt.weight_sweepAll (s.dead (Block.alive (Stmt.pruneAll b).block result)) (Stmt.pruneAll b).block
  simp only [round, Bool.or_eq_true] at h ⊢
  rcases h with h | h <;> simp only [h, Bool.toNat_true] at h1 h2 <;> omega

/-- **Rounds until one changes nothing.** -/
def settle (s : Scope) (result : Option Expr) (b : Block) : Block :=
  let p := round s result b
  if h : p.changed = true then
    have _hlighter : Stmt.weightAll p.block < Stmt.weightAll b := weight_round h
    settle s result p.block
  else p.block
termination_by Stmt.weightAll b
decreasing_by exact _hlighter

/-- **What every round keeps, the rounds keep.** -/
theorem settle_keeps {P : Block → Prop} {s : Scope} {result : Option Expr} (hround : ∀ b, P b → P (round s result b).block)
    {b : Block} (h : P b) : P (settle s result b) := by
  induction b using settle.induct s result with
  | case1 b p hp _ ih =>
    rw [settle, dif_pos hp]
    exact ih (hround b h)
  | case2 b p hp =>
    rw [settle, dif_neg hp]
    exact hround b h

end Block

/-- **A method reduced.** -/
def Routine.reduce (r : Routine) : Routine :=
  let result := r.result.map Expr.fold
  { r with result := result, body := Block.settle r.scope result (Stmt.mapAll Expr.fold r.body) }

end Bibstyle
