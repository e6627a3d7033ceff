import Bibstyle.Machine.Scope
/-!
# Variables — the variables of the function that is compiled

A parameter is known by the depth of the caller's stack it was found at, so two branches that reach equally far below
their stacks share it.  The variables outlive the run that made them: one that fails leaves them as they are, and the next
run begins by forgetting them.
-/
namespace Bibstyle

/-- **The variables of a function**, and which of them stand for the values of its caller. -/
structure Variables where
  scope : Scope
  /-- The parameters by depth, in the order they were made. -/
  depths : List (Nat × VarId)
  agrees : depths = Scope.paramsFrom 0 scope.vars.toList

namespace Variables

def empty : Variables := ⟨.empty, [], rfl⟩

/-- **The parameter for a depth**, made with a type on first use. -/
def param (vs : Variables) (depth : Nat) (t : Ty) : VarId × Variables :=
  match vs.depths.lookup depth with
  | some v => (v, vs)
  | none =>
    let v := vs.scope.vars.size
    (v, ⟨vs.scope.push (.param depth) t, vs.depths ++ [(depth, v)], by
      rw [Scope.push, Array.toList_push, Scope.paramsFrom_append, ← vs.agrees, Nat.zero_add, Array.length_toList]
      rfl⟩)

/-- **A new local.** -/
def newLocal (vs : Variables) (t : Ty) : VarId × Variables :=
  (vs.scope.vars.size, ⟨vs.scope.push .local t, vs.depths, by
    rw [Scope.push, Array.toList_push, Scope.paramsFrom_append, ← vs.agrees]
    exact (List.append_nil _).symm⟩)

/-- **Gives a variable the type it turned out to have**; a known type stays. -/
def refine (vs : Variables) (v : VarId) (t : Ty) : Variables :=
  ⟨vs.scope.refine v t, vs.depths, vs.agrees.trans (Scope.paramsFrom_congr 0 (vs.scope.map_origin_refine v t).symm)⟩

/-- Whether no variable has been made. -/
def isEmpty (vs : Variables) : Bool :=
  vs.scope.isEmpty

/-- **The parameters**, the deepest first. -/
def params (vs : Variables) : List VarId :=
  (vs.depths.mergeSort (fun a b => b.1 ≤ a.1)).map (·.2)

/-- **The variables with their names**: those of the parameters number them from the deepest on. -/
def named (vs : Variables) : Variables :=
  ⟨⟨(Scope.nameFrom vs.params 0 1 vs.scope.vars.toList).toArray⟩, vs.depths,
    vs.agrees.trans (Scope.paramsFrom_congr 0 (Scope.map_origin_nameFrom vs.params 0 1 vs.scope.vars.toList).symm)⟩

end Variables
end Bibstyle
