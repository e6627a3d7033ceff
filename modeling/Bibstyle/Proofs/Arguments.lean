import Mathlib.Data.List.Sort
import Bibstyle.Proofs.Calls
import Bibstyle.Proofs.Drawing
/-!
# Arguments — which parameter holds which argument

A method has its parameters in the order of their depths in the caller's stack, the deepest first, as a caller writes its
arguments.  Where there is one parameter for each depth down to the last, a parameter that was drawn from some depth is
handed the argument that lay at that depth.
-/
namespace Bibstyle
namespace Scope

/-- **There is one parameter for each of the first depths**, and no other. -/
structure Covers (s : Scope) (n : Nat) : Prop where
  shallow : ∀ v d, s.origin? v = some (.param d) → d < n
  reached : ∀ d, d < n → ∃ v, s.origin? v = some (.param d)
  distinct : s.Distinct

theorem mem_params_depths {s : Scope} {d : Nat} {v : VarId} :
    (d, v) ∈ paramsFrom 0 s.vars.toList ↔ s.origin? v = some (.param d) := by
  rw [mem_paramsFrom]
  simp [origin?, get?]

theorem lt_of_mem_paramsFrom {n : Nat} {xs : List Variable} {p : Nat × VarId} (h : p ∈ paramsFrom n xs) : n ≤ p.2 := by
  obtain ⟨i, hi, -⟩ := mem_paramsFrom.1 h
  rw [hi]
  exact Nat.le_add_right n i

theorem nodup_paramsFrom : ∀ (n : Nat) (xs : List Variable), (paramsFrom n xs).Nodup
  | _, [] => List.nodup_nil
  | n, x :: xs => by
    unfold paramsFrom
    split
    · refine List.nodup_cons.2 ⟨fun h => ?_, nodup_paramsFrom (n + 1) xs⟩
      exact absurd (lt_of_mem_paramsFrom h) (Nat.not_succ_le_self n)
    · exact nodup_paramsFrom (n + 1) xs

theorem nodup_params (s : Scope) : s.params.Nodup := by
  refine List.Nodup.map_on ?_ ((List.mergeSort_perm _ _).nodup_iff.2 (nodup_paramsFrom 0 _))
  rintro ⟨d, v⟩ hv ⟨d', v'⟩ hv' rfl
  have ho := mem_params_depths.1 (List.mem_mergeSort.1 hv)
  have ho' := mem_params_depths.1 (List.mem_mergeSort.1 hv')
  rw [ho] at ho'
  cases ho'
  rfl

namespace Covers

variable {s : Scope} {n : Nat}

/-- The depths of the parameters, in the order of the parameters. -/
theorem depths_eq (h : s.Covers n) :
    ((paramsFrom 0 s.vars.toList).mergeSort (fun a b => b.1 ≤ a.1)).map (·.1) = (List.range n).reverse := by
  set ps := paramsFrom 0 s.vars.toList with hps
  have hperm : (ps.mergeSort (fun a b => b.1 ≤ a.1)).Perm ps := List.mergeSort_perm _ _
  have hnodup : (ps.map (·.1)).Nodup := by
    refine List.Nodup.map_on ?_ (nodup_paramsFrom 0 _)
    rintro ⟨d, v⟩ hv ⟨d', v'⟩ hv' rfl
    rw [h.distinct v v' d (mem_params_depths.1 hv) (mem_params_depths.1 hv')]
  have hmem : ∀ d, d ∈ ps.map (·.1) ↔ d ∈ (List.range n).reverse := by
    intro d
    rw [List.mem_reverse, List.mem_range, List.mem_map]
    constructor
    · rintro ⟨⟨d', v⟩, hv, rfl⟩
      exact h.shallow v d' (mem_params_depths.1 hv)
    · intro hd
      obtain ⟨v, hv⟩ := h.reached d hd
      exact ⟨(d, v), mem_params_depths.2 hv, rfl⟩
  have hsame : (ps.map (·.1)).Perm (List.range n).reverse :=
    (List.perm_ext_iff_of_nodup hnodup (List.nodup_reverse.2 List.nodup_range)).2 hmem
  have hsorted : ((ps.mergeSort (fun a b => b.1 ≤ a.1)).map (·.1)).Pairwise (fun a b => b ≤ a) := by
    rw [List.pairwise_map]
    have hpairs : (ps.mergeSort (fun a b => b.1 ≤ a.1)).Pairwise (fun a b => decide (b.1 ≤ a.1) = true) := by
      refine List.pairwise_mergeSort (fun a b c hab hbc => ?_) (fun a b => ?_) ps
      · simp only [decide_eq_true_eq] at hab hbc ⊢
        exact Nat.le_trans hbc hab
      · simp only [Bool.or_eq_true, decide_eq_true_eq]
        exact Nat.le_total _ _
    exact hpairs.imp (fun hab => of_decide_eq_true hab)
  have hrange : (List.range n).reverse.Pairwise (fun a b => b ≤ a) :=
    List.pairwise_reverse.2 List.pairwise_le_range
  exact List.Perm.eq_of_pairwise (fun a b _ _ hab hba => Nat.le_antisymm hba hab) hsorted hrange ((hperm.map _).trans hsame)

theorem length_params (h : s.Covers n) : s.params.length = n := by
  have hlength := congrArg List.length h.depths_eq
  rw [List.length_map, List.length_reverse, List.length_range] at hlength
  rw [params, List.length_map, hlength]

/-- **The parameter drawn from a depth** stands that far from the end. -/
theorem params_getElem? (h : s.Covers n) {v : VarId} {d : Nat} (hv : s.origin? v = some (.param d)) :
    s.params[n - 1 - d]? = some v := by
  have hmem : (d, v) ∈ (paramsFrom 0 s.vars.toList).mergeSort (fun a b => b.1 ≤ a.1) :=
    List.mem_mergeSort.2 (mem_params_depths.2 hv)
  obtain ⟨i, hi⟩ := List.mem_iff_getElem?.1 hmem
  have hdepth := congrArg (·[i]?) h.depths_eq
  simp only [List.getElem?_map, hi, Option.map_some] at hdepth
  have hlt : i < n := by
    obtain ⟨hlt, -⟩ := List.getElem?_eq_some_iff.1 hdepth.symm
    rwa [List.length_reverse, List.length_range] at hlt
  rw [List.getElem?_reverse (by rwa [List.length_range]), List.length_range, List.getElem?_range (by omega)] at hdepth
  have hplace : n - 1 - d = i := by
    simp only [Option.some.injEq] at hdepth
    omega
  rw [hplace, params, List.getElem?_map, hi]
  rfl

end Covers
end Scope

/-- What a list says of the key at some place, if keys do not repeat. -/
theorem lookup_zip {keys : List VarId} {values : List Value} (hnodup : keys.Nodup) :
    ∀ {i : Nat} {k : VarId}, keys[i]? = some k → (keys.zip values).lookup k = values[i]? := by
  induction keys generalizing values with
  | nil => intro i k h; cases h
  | cons key keys ih =>
    intro i k h
    cases values with
    | nil => simp
    | cons value values =>
      cases i with
      | zero =>
        rw [List.getElem?_cons_zero, Option.some.injEq] at h
        rw [List.zip_cons_cons, List.lookup_cons, h, beq_self_eq_true]
        rfl
      | succ i =>
        rw [List.getElem?_cons_succ] at h
        have hne : (k == key) = false := by
          rw [beq_eq_false_iff_ne]
          rintro rfl
          exact (List.nodup_cons.1 hnodup).1 (List.mem_of_getElem? h)
        rw [List.zip_cons_cons, List.lookup_cons, hne, List.getElem?_cons_succ]
        exact ih (List.nodup_cons.1 hnodup).2 h

/-- **A parameter drawn from a depth is handed the argument that lay there.** -/
theorem Routine.bind_param {r : Routine} {s : Scope} {n : Nat} (hs : s.Covers n) (hr : r.params = s.params)
    {args : List Value} (hargs : args.length = n) {v : VarId} {d : Nat} (hv : s.origin? v = some (.param d)) :
    r.bind args v = args.reverse[d]? := by
  rw [Routine.bind, hr, lookup_zip s.nodup_params (hs.params_getElem? hv),
    List.getElem?_reverse (by rw [hargs]; exact hs.shallow v d hv), hargs]

end Bibstyle
