import Bibstyle.Code.Expr
/-!
# Scope — making and naming the variables of a method

A variable has its number from the order they were made in.  When the body is done, the parameters are named `p1`, `p2`
and so on, in an order that is given, and the locals `v1`, `v2` and so on, in the order they were made.
-/
namespace Bibstyle
namespace Scope

def push (s : Scope) (origin : Origin) (t : Ty) : Scope :=
  ⟨s.vars.push ⟨origin, t, none⟩⟩

/-- **A new local.** -/
def newLocal (s : Scope) (t : Ty) : VarId × Scope :=
  (s.vars.size, s.push .local t)

/-- **Gives a variable the type it turned out to have**; a known type stays. -/
def refine (s : Scope) (v : VarId) (t : Ty) : Scope :=
  ⟨s.vars.modify v (fun x => if x.ty = .generic then { x with ty := t } else x)⟩

def isEmpty (s : Scope) : Bool :=
  s.vars.isEmpty

/-- The parameters with their depths, from a number on. -/
def paramsFrom : Nat → List Variable → List (Nat × VarId)
  | _, [] => []
  | v, x :: xs =>
    match x.origin with
    | .param depth => (depth, v) :: paramsFrom (v + 1) xs
    | .local => paramsFrom (v + 1) xs

/-- The variables named, from a number on; `k` is the number of the next local. -/
def nameFrom (params : List VarId) : Nat → Nat → List Variable → List Variable
  | _, _, [] => []
  | v, k, x :: xs =>
    match x.origin with
    | .param _ => { x with name := some ("p" ++ Decimal.nat (params.idxOf v + 1)) } :: nameFrom params (v + 1) k xs
    | .local => { x with name := some ("v" ++ Decimal.nat k) } :: nameFrom params (v + 1) (k + 1) xs

/-! ## What parameters depend on -/

/-- Types and names do not count. -/
theorem paramsFrom_congr : ∀ (v : Nat) {xs ys : List Variable}, xs.map (·.origin) = ys.map (·.origin) →
    paramsFrom v xs = paramsFrom v ys
  | _, [], [], _ => rfl
  | v, x :: xs, y :: ys, h => by
    rw [List.map_cons, List.map_cons, List.cons.injEq] at h
    rw [paramsFrom, paramsFrom, h.1, paramsFrom_congr (v + 1) h.2]

theorem paramsFrom_append : ∀ (v : Nat) (xs ys : List Variable),
    paramsFrom v (xs ++ ys) = paramsFrom v xs ++ paramsFrom (v + xs.length) ys
  | _, [], _ => rfl
  | v, x :: xs, ys => by
    rw [List.cons_append, paramsFrom, paramsFrom, paramsFrom_append (v + 1) xs ys, List.length_cons, Nat.add_right_comm,
      Nat.add_assoc]
    cases x.origin <;> rfl

theorem map_origin_nameFrom (params : List VarId) : ∀ (v k : Nat) (xs : List Variable),
    (nameFrom params v k xs).map (·.origin) = xs.map (·.origin)
  | _, _, [] => rfl
  | v, k, x :: xs => by
    cases ho : x.origin with
    | param depth => simp only [nameFrom, ho, List.map_cons, map_origin_nameFrom params (v + 1) k xs]
    | «local» => simp only [nameFrom, ho, List.map_cons, map_origin_nameFrom params (v + 1) (k + 1) xs]

theorem map_origin_refine (s : Scope) (v : VarId) (t : Ty) :
    (s.refine v t).vars.toList.map (·.origin) = s.vars.toList.map (·.origin) := by
  refine List.ext_getElem? fun i => ?_
  simp only [refine, Array.toList_modify, List.getElem?_map, List.getElem?_modify]
  cases s.vars.toList[i]? with
  | none => rfl
  | some x =>
    by_cases hi : v = i
    · simp only [if_pos hi, Option.map_eq_map, Option.map_some]
      split <;> rfl
    · simp only [if_neg hi, Option.map_eq_map, Option.map_some]

end Scope
end Bibstyle
