import Bibstyle.Machine.Variables
/-!
# Variables — how the scope of a method grows

A scope only grows: a variable keeps its place and its origin, whatever type it turns out to have and whatever name it
gets at the end.  The parameters of a method are the variables of its scope that were drawn from the caller's stack.
-/
namespace Bibstyle

/-! ## What a scope alone tells

The depths of the parameters are in the scope too, so the variables of a function are what their scope says. -/

namespace Scope

/-- The parameter for a depth, if it has been made. -/
def findParam? (s : Scope) (depth : Nat) : Option VarId :=
  s.vars.findIdx? (fun v => v.origin == .param depth)

/-- The parameter for a depth, made with a type on first use. -/
def param (s : Scope) (depth : Nat) (t : Ty) : VarId × Scope :=
  match s.findParam? depth with
  | some v => (v, s)
  | none => (s.vars.size, s.push (.param depth) t)

/-- The parameters, the deepest first. -/
def params (s : Scope) : List VarId :=
  ((paramsFrom 0 s.vars.toList).mergeSort (fun a b => b.1 ≤ a.1)).map (·.2)

/-- The scope with every variable named. -/
def named (s : Scope) : Scope :=
  ⟨(nameFrom s.params 0 1 s.vars.toList).toArray⟩

theorem lookup_paramsFrom (depth : Nat) : ∀ (v : Nat) (xs : List Variable),
    (paramsFrom v xs).lookup depth = (xs.findIdx? (fun x => x.origin == .param depth)).map (v + ·)
  | _, [] => rfl
  | v, x :: xs => by
    have hshift : (paramsFrom (v + 1) xs).lookup depth =
        Option.map (v + ·) ((xs.findIdx? (fun x => x.origin == .param depth)).map (· + 1)) := by
      rw [lookup_paramsFrom depth (v + 1) xs, Option.map_map]
      congr 1
      funext i
      simp only [Function.comp_apply]
      omega
    rw [List.findIdx?_cons, paramsFrom]
    cases ho : x.origin with
    | param d =>
      by_cases hd : depth = d
      · subst hd
        simp
      · have hne : (Origin.param d == Origin.param depth) = false := by
          simpa using fun h => hd h.symm
        simp only [hne, List.lookup_cons, beq_eq_false_iff_ne.2 hd]
        exact hshift
    | «local» => exact hshift

end Scope

namespace Variables

/-- **The variables of a scope.** -/
def of (s : Scope) : Variables :=
  ⟨s, Scope.paramsFrom 0 s.vars.toList, rfl⟩

theorem of_scope (vs : Variables) : of vs.scope = vs := by
  obtain ⟨s, depths, rfl⟩ := vs
  rfl

theorem ext_scope {vs vs' : Variables} (h : vs.scope = vs'.scope) : vs = vs' := by
  rw [← of_scope vs, ← of_scope vs', h]

theorem param_eq (vs : Variables) (depth : Nat) (t : Ty) :
    vs.param depth t = ((vs.scope.param depth t).1, .of (vs.scope.param depth t).2) := by
  have hlookup : vs.depths.lookup depth = vs.scope.findParam? depth := by
    rw [vs.agrees, Scope.lookup_paramsFrom, Scope.findParam?, ← List.findIdx?_toArray]
    simp
  unfold param Scope.param
  rw [hlookup]
  cases vs.scope.findParam? depth with
  | none => exact Prod.ext rfl (ext_scope rfl)
  | some v => exact Prod.ext rfl (of_scope vs).symm

theorem newLocal_eq (vs : Variables) (t : Ty) : vs.newLocal t = ((vs.scope.newLocal t).1, .of (vs.scope.newLocal t).2) :=
  Prod.ext rfl (ext_scope rfl)

theorem params_eq (vs : Variables) : vs.params = vs.scope.params := by
  rw [params, vs.agrees, Scope.params]

theorem named_eq (vs : Variables) : vs.named = .of vs.scope.named := by
  refine ext_scope ?_
  change (⟨(Scope.nameFrom vs.params 0 1 vs.scope.vars.toList).toArray⟩ : Scope) = vs.scope.named
  rw [params_eq, Scope.named]

end Variables

namespace Scope

/-- Where a variable of a scope comes from. -/
def origin? (s : Scope) (v : VarId) : Option Origin :=
  (s.get? v).map (·.origin)

theorem origin?_eq (s : Scope) (v : VarId) : s.origin? v = (s.vars.toList.map (·.origin))[v]? := by
  simp [origin?, get?]

/-- **Every variable of the first scope is in the second**, and comes from where it came from. -/
def Grows (s s' : Scope) : Prop :=
  ∀ v o, s.origin? v = some o → s'.origin? v = some o

/-- Whether a variable was drawn from the caller's stack. -/
def IsParam (s : Scope) (v : VarId) : Prop :=
  ∃ depth, s.origin? v = some (.param depth)

theorem Grows.refl (s : Scope) : s.Grows s :=
  fun _ _ h => h

theorem Grows.trans {a b c : Scope} (h : a.Grows b) (h' : b.Grows c) : a.Grows c :=
  fun v o hv => h' v o (h v o hv)

theorem Grows.of_eq {s s' : Scope} (h : ∀ v, s'.origin? v = s.origin? v) : s.Grows s' :=
  fun v _ hv => (h v).trans hv

theorem Grows.isParam {s s' : Scope} (h : s.Grows s') {v : VarId} (hv : s.IsParam v) : s'.IsParam v := by
  obtain ⟨depth, hv⟩ := hv
  exact ⟨depth, h v _ hv⟩

/-- What is not in a scope was not in a smaller one. -/
theorem Grows.eq_none {s s' : Scope} (h : s.Grows s') {v : VarId} (hv : s'.origin? v = none) : s.origin? v = none := by
  cases hs : s.origin? v with
  | none => rfl
  | some o => rw [h v o hs] at hv; cases hv

theorem isLocal_iff {s : Scope} {v : VarId} : s.isLocal v = true ↔ s.origin? v = some .local := by
  unfold isLocal origin?
  cases s.get? v <;> simp

theorem not_isLocal_of_isParam {s : Scope} {v : VarId} (h : s.IsParam v) : s.isLocal v = false := by
  obtain ⟨depth, h⟩ := h
  rw [Bool.eq_false_iff]
  intro hl
  rw [isLocal_iff.1 hl] at h
  cases h

/-! ## Making variables -/

theorem origin?_push (s : Scope) (o : Origin) (t : Ty) (v : VarId) :
    (s.push o t).origin? v = if v = s.vars.size then some o else s.origin? v := by
  simp only [origin?, get?, push, Array.getElem?_push]
  split <;> rfl

theorem origin?_size (s : Scope) : s.origin? s.vars.size = none := by
  simp [origin?, get?]

theorem grows_push (s : Scope) (o : Origin) (t : Ty) : s.Grows (s.push o t) := by
  intro v o' hv
  rw [origin?_push, if_neg]
  · exact hv
  · rintro rfl
    rw [origin?_size] at hv
    cases hv

theorem origin?_findParam? {s : Scope} {depth : Nat} {v : VarId} (h : s.findParam? depth = some v) :
    s.origin? v = some (.param depth) := by
  obtain ⟨hlt, hv, -⟩ := Array.findIdx?_eq_some_iff_getElem.1 h
  have hget : s.vars[v]? = some s.vars[v] := Array.getElem?_eq_getElem hlt
  simp only [origin?, get?, hget, Option.map_some]
  exact congrArg some (by simpa using hv)

theorem grows_param (s : Scope) (depth : Nat) (t : Ty) : s.Grows (s.param depth t).2 := by
  unfold param
  split
  · exact .refl s
  · exact grows_push s _ t

theorem origin?_param (s : Scope) (depth : Nat) (t : Ty) :
    (s.param depth t).2.origin? (s.param depth t).1 = some (.param depth) := by
  unfold param
  split
  · rename_i hfind
    exact origin?_findParam? hfind
  · exact (origin?_push s _ t _).trans (if_pos rfl)

theorem grows_newLocal (s : Scope) (t : Ty) : s.Grows (s.newLocal t).2 :=
  grows_push s .local t

theorem origin?_newLocal (s : Scope) (t : Ty) : (s.newLocal t).2.origin? (s.newLocal t).1 = some .local :=
  (origin?_push s .local t _).trans (if_pos rfl)

theorem origin?_newLocal_old (s : Scope) (t : Ty) : s.origin? (s.newLocal t).1 = none :=
  origin?_size s

theorem origin?_refine (s : Scope) (v : VarId) (t : Ty) (x : VarId) : (s.refine v t).origin? x = s.origin? x := by
  rw [origin?_eq, origin?_eq, map_origin_refine]

/-! ## Naming and counting -/

theorem origin?_named (s : Scope) (v : VarId) : s.named.origin? v = s.origin? v := by
  rw [origin?_eq, origin?_eq, named, List.toList_toArray, map_origin_nameFrom]

theorem mem_paramsFrom {depth : Nat} {v : VarId} : ∀ {n : Nat} {xs : List Variable},
    (depth, v) ∈ paramsFrom n xs ↔ ∃ i, v = n + i ∧ xs[i]?.map (·.origin) = some (.param depth)
  | n, [] => by simp [paramsFrom]
  | n, x :: xs => by
    have htail : (∃ i, v = n + 1 + i ∧ xs[i]?.map (·.origin) = some (.param depth)) ↔
        ∃ i, v = n + (i + 1) ∧ (x :: xs)[i + 1]?.map (·.origin) = some (.param depth) := by
      constructor
      · rintro ⟨i, hv, hi⟩; exact ⟨i, hv.trans (Nat.add_right_comm n 1 i), by simpa using hi⟩
      · rintro ⟨i, hv, hi⟩; exact ⟨i, hv.trans (Nat.add_right_comm n i 1), by simpa using hi⟩
    have hsplit : (∃ i, v = n + i ∧ (x :: xs)[i]?.map (·.origin) = some (.param depth)) ↔
        (v = n ∧ x.origin = .param depth) ∨
          ∃ i, v = n + (i + 1) ∧ (x :: xs)[i + 1]?.map (·.origin) = some (.param depth) := by
      constructor
      · rintro ⟨i, hv, hi⟩
        cases i with
        | zero => exact .inl ⟨hv, by simpa using hi⟩
        | succ i => exact .inr ⟨i, hv, hi⟩
      · rintro (⟨hv, hx⟩ | ⟨i, hv, hi⟩)
        · exact ⟨0, hv, by simp [hx]⟩
        · exact ⟨i + 1, hv, hi⟩
    rw [hsplit, ← htail, ← mem_paramsFrom]
    cases ho : x.origin with
    | param d =>
      simp only [paramsFrom, ho, List.mem_cons, Prod.mk.injEq, Origin.param.injEq]
      exact or_congr_left ⟨fun h => ⟨h.2, h.1.symm⟩, fun h => ⟨h.2.symm, h.1⟩⟩
    | «local» => simp [paramsFrom, ho]

/-- **The parameters of a scope are what was drawn from the caller.** -/
theorem mem_params {s : Scope} {v : VarId} : v ∈ s.params ↔ s.IsParam v := by
  unfold params IsParam
  simp only [List.mem_map, List.mem_mergeSort, Prod.exists, exists_eq_right]
  refine exists_congr (fun depth => ?_)
  rw [mem_paramsFrom]
  simp [origin?, get?]

end Scope
end Bibstyle
