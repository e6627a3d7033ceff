import Bibstyle.Proofs.Bodies
import Bibstyle.Proofs.Identifiers
import Bibstyle.Proofs.Passages
/-!
# Counting — one parameter for each value drawn

A value that a body takes from below its own stack is known by its depth in the caller's, whichever branch asks for it.
At every point of a run the parameters made so far stand for the first depths, down to one that no frame has drawn beyond;
where the body is done, they are as many as it has drawn.  Their names number them as a caller writes its arguments, and
those of the locals in the order in which they were made, so no two variables of a method have one name.
-/
namespace Bibstyle

/-- The depth a variable was found at, if it is a parameter. -/
def Origin.depth? : Origin → Option Nat
  | .param depth => some depth
  | .local => none

/-! ## Names -/

namespace Scope

theorem params_named (s : Scope) : s.named.params = s.params := by
  rw [params, named, paramsFrom_congr 0 (map_origin_nameFrom s.params 0 1 s.vars.toList), params]

theorem filterMap_depth? : ∀ (v : Nat) (xs : List Variable),
    xs.filterMap (·.origin.depth?) = (paramsFrom v xs).map (·.1)
  | _, [] => rfl
  | v, x :: xs => by
    cases ho : x.origin with
    | param depth =>
      have hx : (Origin.param depth).depth? = some depth := rfl
      simp only [List.filterMap_cons, ho, hx, paramsFrom, List.map_cons, filterMap_depth? (v + 1) xs]
    | «local» =>
      have hx : Origin.local.depth? = none := rfl
      simp only [List.filterMap_cons, ho, hx, paramsFrom, filterMap_depth? (v + 1) xs]

theorem countP_local : ∀ (v : Nat) (xs : List Variable),
    xs.countP (·.origin == .local) + (paramsFrom v xs).length = xs.length
  | _, [] => rfl
  | v, x :: xs => by
    have ih := countP_local (v + 1) xs
    cases ho : x.origin with
    | param depth =>
      have hx : (Origin.param depth == Origin.local) = false := rfl
      simp only [List.countP_cons, hx, paramsFrom, ho, List.length_cons, Bool.false_eq_true, if_false]
      omega
    | «local» =>
      have hx : (Origin.local == Origin.local) = true := rfl
      simp only [List.countP_cons, hx, paramsFrom, ho, List.length_cons, if_true]
      omega

/-- A parameter is named for its place among the parameters. -/
theorem name_of_param (ps : List VarId) : ∀ {v k : Nat} {xs : List Variable} {i d : Nat},
    xs[i]?.map (·.origin) = some (.param d) →
      (nameFrom ps v k xs)[i]?.bind (·.name) = some ("p" ++ Decimal.nat (ps.idxOf (v + i) + 1))
  | _, _, [], _, _, h => by cases h
  | v, k, x :: xs, i, d, h => by
    cases i with
    | zero =>
      have ho : x.origin = .param d := by simpa using h
      simp only [nameFrom, ho, List.getElem?_cons_zero, Option.bind_some, Nat.add_zero]
    | succ i =>
      have hxs : xs[i]?.map (·.origin) = some (.param d) := by simpa using h
      rw [← Nat.add_assoc, Nat.add_right_comm]
      cases ho : x.origin with
      | param depth => simpa only [nameFrom, ho, List.getElem?_cons_succ] using name_of_param ps hxs
      | «local» => simpa only [nameFrom, ho, List.getElem?_cons_succ] using name_of_param ps hxs

/-- The locals are numbered in the order they were made. -/
theorem names_of_locals (ps : List VarId) : ∀ (v k : Nat) (xs : List Variable),
    ((nameFrom ps v k xs).filter (·.origin == .local)).map (·.name) =
      (List.range' k (xs.countP (·.origin == .local))).map (fun j => some ("v" ++ Decimal.nat j))
  | _, _, [] => rfl
  | v, k, x :: xs => by
    cases ho : x.origin with
    | param depth =>
      have hx : (Origin.param depth == Origin.local) = false := rfl
      simp only [nameFrom, ho, List.filter_cons, List.countP_cons, hx, Bool.false_eq_true, if_false, Nat.add_zero]
      exact names_of_locals ps (v + 1) k xs
    | «local» =>
      have hx : (Origin.local == Origin.local) = true := rfl
      simp only [nameFrom, ho, List.filter_cons, List.countP_cons, hx, if_true, List.map_cons, List.range'_succ]
      rw [names_of_locals ps (v + 1) (k + 1) xs]

/-- What a variable is named for: its place among the parameters, or its number among the locals. -/
theorem name_cases (ps : List VarId) : ∀ {v k : Nat} {xs : List Variable} {x : Variable}, x ∈ nameFrom ps v k xs →
    (∃ i d, xs[i]?.map (·.origin) = some (.param d) ∧ x.name = some ("p" ++ Decimal.nat (ps.idxOf (v + i) + 1))) ∨
      ∃ j, k ≤ j ∧ x.name = some ("v" ++ Decimal.nat j)
  | _, _, [], _, h => absurd h List.not_mem_nil
  | v, k, y :: xs, x, h => by
    cases ho : y.origin with
    | param depth =>
      simp only [nameFrom, ho, List.mem_cons] at h
      rcases h with rfl | h
      · exact .inl ⟨0, depth, by simp [ho], rfl⟩
      · refine (name_cases ps h).imp_left ?_
        rintro ⟨i, d, hi, hx⟩
        exact ⟨i + 1, d, by simpa using hi, by rw [hx, Nat.add_assoc, Nat.add_comm 1 i]⟩
    | «local» =>
      simp only [nameFrom, ho, List.mem_cons] at h
      rcases h with rfl | h
      · exact .inr ⟨k, Nat.le_refl k, rfl⟩
      · rcases name_cases ps h with ⟨i, d, hi, hx⟩ | ⟨j, hj, hx⟩
        · exact .inl ⟨i + 1, d, by simpa using hi, by rw [hx, Nat.add_assoc, Nat.add_comm 1 i]⟩
        · exact .inr ⟨j, Nat.le_of_succ_le hj, hx⟩

theorem param_name_ne_local_name (i j : Nat) : "p" ++ Decimal.nat i ≠ "v" ++ Decimal.nat j := by
  intro h
  have hlist := congrArg String.toList h
  rw [String.toList_append, String.toList_append] at hlist
  exact absurd (List.cons_eq_cons.1 hlist).1 (by decide)

/-- **No two variables get one name**, if the parameters are all in the list that numbers them. -/
theorem nodup_names (ps : List VarId) : ∀ {v k : Nat} {xs : List Variable},
    (∀ i d, xs[i]?.map (·.origin) = some (.param d) → v + i ∈ ps) → ((nameFrom ps v k xs).map (·.name)).Nodup
  | _, _, [], _ => List.nodup_nil
  | v, k, x :: xs, h => by
    have htail : ∀ i d, xs[i]?.map (·.origin) = some (.param d) → v + 1 + i ∈ ps := by
      intro i d hi
      rw [Nat.add_assoc, Nat.add_comm 1 i]
      exact h (i + 1) d (by simpa using hi)
    cases ho : x.origin with
    | param depth =>
      simp only [nameFrom, ho, List.map_cons, List.nodup_cons, List.mem_map]
      refine ⟨?_, nodup_names ps htail⟩
      rintro ⟨y, hy, hname⟩
      rcases name_cases ps hy with ⟨i, d, hi, hy⟩ | ⟨j, -, hy⟩
      · -- two places in the list that numbers the parameters
        rw [hy, Option.some.injEq, String.append_right_inj] at hname
        have hplace := Nat.succ.inj (Decimal.nat_injective hname)
        have hsame := (List.idxOf_inj (htail i d hi)).1 hplace
        omega
      · rw [hy, Option.some.injEq] at hname
        exact param_name_ne_local_name _ _ hname.symm
    | «local» =>
      simp only [nameFrom, ho, List.map_cons, List.nodup_cons, List.mem_map]
      refine ⟨?_, nodup_names ps htail⟩
      rintro ⟨y, hy, hname⟩
      rcases name_cases ps hy with ⟨i, d, -, hy⟩ | ⟨j, hj, hy⟩
      · rw [hy, Option.some.injEq] at hname
        exact param_name_ne_local_name _ _ hname
      · rw [hy, Option.some.injEq, String.append_right_inj] at hname
        have hnumber := Decimal.nat_injective hname
        omega

end Scope

/-- **The variables of a method are counted**: it has a parameter for each of the first depths and lists them, the deepest
first; their names number them in that order, and those of the locals in the order they were made. -/
structure Routine.Counted (r : Routine) (n : Nat) : Prop where
  depths : (r.scope.vars.toList.filterMap (·.origin.depth?)).Perm (List.range n)
  listed : r.params.map r.scope.origin? = (List.range n).reverse.map (fun d => some (.param d))
  params : r.params.map (fun v => (r.scope.get? v).bind (·.name)) =
    (List.range n).map (fun i => some ("p" ++ Decimal.nat (i + 1)))
  locals : (r.scope.vars.toList.filter (·.origin == .local)).map (·.name) =
    (List.range (r.scope.vars.size - n)).map (fun j => some ("v" ++ Decimal.nat (j + 1)))
  named : ∀ x ∈ r.scope.vars.toList, x.name.isSome = true
  distinct : (r.scope.vars.toList.map (·.name)).Nodup

namespace Scope

variable {s : Scope} {n : Nat}

theorem Covers.listed (h : s.Covers n) : s.params.map s.origin? = (List.range n).reverse.map (fun d => some (.param d)) := by
  rw [← h.depths_eq, params, List.map_map, List.map_map]
  refine List.map_congr_left (fun q hq => ?_)
  exact mem_params_depths.1 (List.mem_mergeSort.1 hq)

/-- Where there is one parameter for each of the first depths, naming counts them. -/
theorem Covers.counted {r : Routine} (h : s.named.Covers n) (hscope : r.scope = s.named) (hparams : r.params = s.named.params) :
    r.Counted n := by
  have hlength : s.params.length = n := by rw [← params_named, h.length_params]
  have hlocals : s.vars.toList.countP (·.origin == .local) = s.named.vars.size - n := by
    have hcount := countP_local 0 s.vars.toList
    rw [params, List.length_map, List.length_mergeSort] at hlength
    rw [hlength, Array.length_toList] at hcount
    rw [size_named, ← hcount, Nat.add_sub_cancel]
  refine ⟨?_, ?_, ?_, ?_, ?_, ?_⟩
  · rw [hscope, filterMap_depth? 0]
    have hsorted := (List.mergeSort_perm (paramsFrom 0 s.named.vars.toList) (fun a b => b.1 ≤ a.1)).map (·.1)
    rw [h.depths_eq] at hsorted
    exact hsorted.symm.trans (List.reverse_perm _)
  · rw [hscope, hparams]
    exact h.listed
  · rw [hscope, hparams, params_named]
    refine List.ext_getElem? (fun i => ?_)
    rw [List.getElem?_map, List.getElem?_map]
    by_cases hi : i < n
    · have hlt : i < s.params.length := by rwa [hlength]
      obtain ⟨d, hd⟩ := mem_params.1 (List.getElem_mem hlt)
      have horigin : s.vars.toList[s.params[i]]?.map (·.origin) = some (.param d) := by
        simpa [origin?, get?] using hd
      have hname := name_of_param s.params (v := 0) (k := 1) horigin
      rw [Nat.zero_add, s.nodup_params.idxOf_getElem i hlt] at hname
      rw [List.getElem?_eq_getElem hlt, List.getElem?_range hi, Option.map_some, Option.map_some, ← hname, named, get?,
        List.getElem?_toArray]
    · rw [List.getElem?_eq_none (by rw [hlength]; omega), List.getElem?_eq_none (by rw [List.length_range]; omega)]
      rfl
  · have hnames := names_of_locals s.params 0 1 s.vars.toList
    rw [hlocals, List.range'_eq_map_range, List.map_map] at hnames
    rw [hscope]
    refine Eq.trans hnames (List.map_congr_left (fun j _ => ?_))
    rw [Function.comp_apply, Nat.add_comm 1 j]
  · rw [hscope]
    intro x hx
    rcases name_cases s.params hx with ⟨i, d, -, hname⟩ | ⟨j, -, hname⟩ <;> rw [hname] <;> rfl
  · rw [hscope]
    refine nodup_names s.params (fun i d hi => mem_params.2 ⟨d, ?_⟩)
    rw [Nat.zero_add]
    simpa [origin?, get?] using hi

theorem Covers.empty : Scope.empty.Covers 0 := by
  have hempty : ∀ v d, Scope.empty.origin? v ≠ some (.param d) := by
    intro v d hv
    simp [origin?, get?, Scope.empty] at hv
  refine ⟨fun v d hv => absurd hv (hempty v d), fun d hd => absurd hd (Nat.not_lt_zero d), ?_⟩
  exact fun v _ d hv => absurd hv (hempty v d)

/-- What is drawn from above the last parameter is there, and what is drawn from below it is the next one. -/
theorem Covers.grown {s' : Scope} {i j : Nat} (h : s.Covers n) (hg : s.Grown i s' j) (hi : i ≤ n) : s'.Covers (max n j) where
  shallow v d hv := by
    rcases hg.shallow v d hv with hv | hd
    · exact Nat.lt_of_lt_of_le (h.shallow v d hv) (Nat.le_max_left n j)
    · exact Nat.lt_of_lt_of_le hd (Nat.le_max_right n j)
  reached d hd := by
    have hold : d < n → ∃ v, s'.origin? v = some (.param d) := by
      intro hd
      obtain ⟨v, hv⟩ := h.reached d hd
      exact ⟨v, hg.grows v _ hv⟩
    rcases Nat.lt_or_ge d n with hn | hn
    · exact hold hn
    · exact (hg.reached d (by omega)).elim (fun hd => hold (Nat.lt_of_lt_of_le hd hi)) id
  distinct := hg.distinct h.distinct

end Scope

/-! ## Machines on the way -/

/-- **The parameters of a machine are counted**: they stand for the first depths, down to one that is at least `n` and that
its frame has not drawn beyond. -/
def Machine.Counted (n : Nat) (m : Machine) : Prop :=
  ∃ k, m.scope.Covers k ∧ n ≤ k ∧ m.frame.reach ≤ k

namespace Machine

variable {n : Nat} {m m' : Machine}

theorem counted_start (linkage : Linkage) (log : Array Event) : (Machine.start linkage log).Counted 0 :=
  ⟨0, .empty, Nat.le_refl 0, Nat.le_refl 0⟩

theorem Counted.follows (hm : m.Counted n) (h : m.Follows m') : m'.Counted n := by
  obtain ⟨k, hk, hn, hreach⟩ := hm
  exact ⟨_, hk.grown h.grown hreach, Nat.le_trans hn (Nat.le_max_left _ _), Nat.le_max_right _ _⟩

/-- The frame may be exchanged for one that has not drawn more. -/
theorem Counted.exchange (hm : m.Counted n) {f : Frame} (hf : f.reach ≤ n) : Machine.Counted n { m with frame := f } := by
  obtain ⟨k, hk, hn, -⟩ := hm
  exact ⟨k, hk, hn, Nat.le_trans hf hn⟩

theorem Counted.mono {n' : Nat} (hm : m.Counted n) (h : n' ≤ n) : m.Counted n' := by
  obtain ⟨k, hk, hn, hreach⟩ := hm
  exact ⟨k, hk, Nat.le_trans h hn, hreach⟩

/-- What the frame has drawn counts as well. -/
theorem Counted.reached (hm : m.Counted n) : m.Counted (max n m.frame.reach) := by
  obtain ⟨k, hk, hn, hreach⟩ := hm
  exact ⟨k, hk, Nat.max_le.2 ⟨hn, hreach⟩, hreach⟩

theorem Counted.nested (hm : m.Counted n) : Machine.Counted (max n m.frame.reach) { m with frame := m.frame.nested } :=
  hm.reached.exchange (Nat.le_max_right _ _)

end Machine

namespace Eval

variable {α β : Type}

/-- **A run that is stopped counts its parameters**, as one that ends does. -/
def StopsCounted (x : Eval α) : Prop :=
  ∀ n m e m', m.Counted n → x m = .error e m' → m'.Counted n

theorem bind_error {x : Eval α} {f : α → Eval β} {m m' : Machine} {e : AnalysisFault} :
    (x >>= f) m = .error e m' ↔ x m = .error e m' ∨ ∃ a m₁, x m = .ok a m₁ ∧ f a m₁ = .error e m' := by
  rw [bind_apply]
  constructor
  · intro h
    cases hx : x m with
    | ok a m₁ => rw [hx] at h; exact .inr ⟨a, m₁, rfl, h⟩
    | error e₁ m₁ => rw [hx] at h; cases h; exact .inl rfl
  · rintro (hx | ⟨a, m₁, hx, hf⟩)
    · rw [hx]
    · rw [hx]
      exact hf

theorem Steady.counted {x : Eval α} (hx : Steady x) {n : Nat} {m m' : Machine} {a : α} (hm : m.Counted n)
    (h : x m = .ok a m') : m'.Counted n :=
  hm.follows (hx m a m' h)

namespace StopsCounted

theorem bind {x : Eval α} {f : α → Eval β} (hx : StopsCounted x) (hsteady : Steady x) (hf : ∀ a, StopsCounted (f a)) :
    StopsCounted (x >>= f) := by
  intro n m e m' hm h
  rcases bind_error.1 h with h | ⟨a, m₁, hxm, h⟩
  · exact hx n m e m' hm h
  · exact hf a n m₁ e m' (hsteady.counted hm hxm) h

/-- A run that cannot be stopped. -/
theorem total {x : Eval α} (h : ∀ m, ∃ a m', x m = .ok a m') : StopsCounted x := by
  intro n m e m' hm hx
  obtain ⟨a, m₁, hok⟩ := h m
  rw [hok] at hx
  cases hx

theorem pure {a : α} : StopsCounted (pure a) :=
  .total (fun m => ⟨a, m, rfl⟩)

theorem modify {f : Machine → Machine} : StopsCounted (modify f) :=
  .total (fun m => ⟨(), f m, rfl⟩)

theorem modifyGet {f : Machine → α × Machine} : StopsCounted (modifyGet f) :=
  .total (fun m => ⟨(f m).1, (f m).2, rfl⟩)

theorem get : StopsCounted get :=
  .total (fun m => ⟨m, m, rfl⟩)

theorem throw {e : AnalysisFault} : StopsCounted (throw e : Eval α) := by
  intro n m e' m' hm h
  obtain ⟨⟩ := h
  exact hm

theorem ite {p : Prop} [Decidable p] {x y : Eval α} (hx : StopsCounted x) (hy : StopsCounted y) :
    StopsCounted (if p then x else y) := by
  split
  · exact hx
  · exact hy

end StopsCounted

/-! ## Single operations -/

theorem stops_tyOf (e : Expr) : StopsCounted (tyOf e) :=
  .total (fun m => ⟨e.ty m.scope, m, rfl⟩)

theorem stops_popAs (t : Ty) : StopsCounted (popAs t) := by
  refine .total (fun m => ?_)
  cases hs : m.frame.stack with
  | nil => exact ⟨_, _, popAs_nil hs⟩
  | cons e rest => exact ⟨_, _, popAs_cons hs⟩

theorem stops_mismatch (p t : String) (e : Expr) : StopsCounted (mismatch p t e : Eval α) :=
  .bind .get .get (fun _ => .throw)

theorem stops_check (e : Expr) (t : Ty) (p : String) : StopsCounted (check e t p) := by
  unfold check
  refine .bind (stops_tyOf e) (steady_tyOf e) (fun found => .ite (stops_mismatch _ _ _) ?_)
  split
  · exact .total (fun m => ⟨_, _, rfl⟩)
  · exact .pure

theorem stops_popTyped (t : Ty) (p : String) : StopsCounted (popTyped t p) :=
  .bind (stops_popAs t) (steady_popAs t) (fun e => stops_check e t p)

theorem stops_popProcedure (p : String) : StopsCounted (popProcedure p) := by
  unfold popProcedure
  refine .bind (stops_popAs .generic) (steady_popAs .generic) (fun e => ?_)
  split
  · exact .pure
  · exact .pure
  · exact stops_mismatch _ _ _

theorem stops_popArgs (p : String) : ∀ ts : List Ty, StopsCounted (popArgs p ts)
  | [] => .pure
  | t :: ts => .bind (stops_popArgs p ts) (steady_popArgs p ts) (fun _ =>
      .bind (stops_popTyped t p) (steady_popTyped t p) (fun _ => .pure))

theorem stops_spillSlots (which : Expr → Bool) (es : List Expr) : StopsCounted (spillSlots which es) := by
  induction es with
  | nil => exact .pure
  | cons e below ih =>
    unfold spillSlots
    refine .bind ih (steady_spillSlots which below) (fun slots => .ite ?_ .pure)
    refine .bind (stops_tyOf e) (steady_tyOf e) (fun t => .bind .modifyGet (steady_newLocal t) (fun v => ?_))
    exact .bind .modify (steady_emit _) (fun _ => .pure)

theorem stops_spillWhere (changes : Expr → Bool) : StopsCounted (spillWhere changes) :=
  .bind .get .get (fun _ => .bind (stops_spillSlots _ _) (steady_spillSlots _ _) (fun _ => .modify))

theorem stops_spillAll (p : String) : StopsCounted (spillAll p) := by
  unfold spillAll
  refine .bind .get .get (fun m => .bind (stops_spillSlots _ _) (steady_spillSlots _ _) (fun slots => ?_))
  exact .bind .modify (steady_setStack _) (fun _ => .ite .pure .throw)

theorem stops_mergeSlot (yes no : Expr) (below : Merged) : StopsCounted (mergeSlot yes no below) := by
  unfold mergeSlot
  refine .ite .pure (.ite .throw ?_)
  refine .bind (stops_tyOf yes) (steady_tyOf yes) (fun a => .bind (stops_tyOf no) (steady_tyOf no) (fun b => ?_))
  split
  · exact .throw
  · refine .bind (stops_check _ _ _) (steady_check _ _ _) (fun _ => .bind (stops_check _ _ _) (steady_check _ _ _) (fun _ => ?_))
    exact .bind .modifyGet (steady_newLocal _) (fun _ => .bind .modify (steady_emit _) (fun _ => .pure))

theorem stops_mergeSlots : ∀ yes no : List Expr, StopsCounted (mergeSlots yes no)
  | [], _ => .pure
  | _ :: _, [] => .pure
  | yes :: yeses, no :: nos =>
    .bind (stops_mergeSlots yeses nos) (mergeSlots_steady yeses nos) (fun below => stops_mergeSlot yes no below)

/-! ## Branches and loops -/

section Nested

variable {x : Eval Unit} {n : Nat} {m m' : Machine}

/-- What a nested frame has drawn is counted, though the frame around it has not drawn it yet. -/
theorem inNested_counted (hx : Steady x) (hm : m.Counted n) {g : Frame} (h : inNested x m = .ok g m') :
    m'.Counted (max n g.reach) := by
  obtain ⟨hbase, hreturns⟩ := inNested_returns hx h
  obtain ⟨k, hk, hn, hreach⟩ := hm
  have hgreach : g.reach = m.frame.reach + g.drawn := by rw [Frame.reach, hbase]
  refine ⟨_, hk.grown hreturns.grown hreach, ?_, ?_⟩
  · rw [hgreach]
    exact Nat.max_le.2 ⟨Nat.le_trans hn (Nat.le_max_left _ _), Nat.le_max_right _ _⟩
  · rw [hreturns.frame]
    exact Nat.le_trans hreach (Nat.le_max_left _ _)

theorem stops_inNested {e : AnalysisFault} (hx : StopsCounted x) (hm : m.Counted n) (h : inNested x m = .error e m') :
    m'.Counted n := by
  unfold inNested at h
  cases hrun : x { m with frame := m.frame.nested } with
  | ok a m₁ => rw [hrun] at h; cases h
  | error e₁ m₁ =>
    rw [hrun] at h
    cases h
    have hcounted := hx _ _ _ _ hm.nested hrun
    exact (hcounted.exchange (Nat.le_max_right _ _)).mono (Nat.le_max_left _ _)

end Nested

theorem paramsTo_total (base : Nat) : ∀ (depth n : Nat) (m : Machine), ∃ es m', paramsTo base depth n m = .ok es m'
  | _, 0, m => ⟨[], m, rfl⟩
  | depth, n + 1, m => by
    obtain ⟨es, m₁, h⟩ := paramsTo_total base (depth + 1) n m
    exact ⟨_, _, bind_ok.2 ⟨es, m₁, h, rfl⟩⟩

theorem stops_fullView (f : Frame) (drawn : Nat) : StopsCounted (fullView f drawn) := by
  refine .total (fun m => ?_)
  obtain ⟨es, m₁, h⟩ := paramsTo_total f.base f.drawn (drawn - f.drawn) m
  exact ⟨_, _, bind_ok.2 ⟨es, m₁, h, rfl⟩⟩

/-- A view of a frame makes no parameter that is deeper than what is counted. -/
theorem fullView_counted {g : Frame} {drawn n : Nat} {m m' : Machine} {es : List Expr} (hm : m.Counted n)
    (hdrawn : g.drawn ≤ drawn) (hn : g.base + drawn ≤ n) (h : fullView g drawn m = .ok es m') : m'.Counted n := by
  obtain ⟨hframe, -, hgrown⟩ := fullView_grown h hdrawn
  obtain ⟨k, hk, hnk, hreach⟩ := hm
  have hcovers := hk.grown (hgrown k (Nat.le_trans hn hnk)) (Nat.le_refl k)
  rw [Nat.max_self] at hcovers
  exact ⟨k, hcovers, hnk, by rw [hframe]; exact hreach⟩

theorem stops_branch {run : Procedure → Eval Unit} (hrun : ∀ p, Steady (run p)) (hstops : ∀ p, StopsCounted (run p)) :
    StopsCounted (branch run) := by
  unfold branch
  refine .bind (stops_popProcedure _) (steady_popProcedure _) (fun no => ?_)
  refine .bind (stops_popProcedure _) (steady_popProcedure _) (fun yes => ?_)
  refine .bind (stops_popTyped _ _) (steady_popTyped _ _) (fun condition => ?_)
  intro n m e m' hm h
  rcases bind_error.1 h with h | ⟨gy, m₁, hyes, h⟩
  · exact stops_inNested (hstops yes) hm h
  have hm₁ := inNested_counted (hrun yes) hm hyes
  rcases bind_error.1 h with h | ⟨gn, m₂, hno, h⟩
  · exact (stops_inNested (hstops no) hm₁ h).mono (Nat.le_max_left _ _)
  have hm₂ := inNested_counted (hrun no) hm₁ hno
  -- both views end where the hungrier side does, and that is counted
  have hviews : gy.base + max gy.drawn gn.drawn ≤ max (max n gy.reach) gn.reach ∧
      gn.base + max gy.drawn gn.drawn ≤ max (max n gy.reach) gn.reach := by
    obtain ⟨hybase, hy⟩ := inNested_returns (hrun yes) hyes
    obtain ⟨hnbase, -⟩ := inNested_returns (hrun no) hno
    rw [hy.frame] at hnbase
    simp only [Frame.reach] at hybase hnbase ⊢
    omega
  have hstop : m'.Counted (max (max n gy.reach) gn.reach) := by
    rcases bind_error.1 h with h | ⟨yesView, m₃, hyesView, h⟩
    · exact stops_fullView _ _ _ _ _ _ hm₂ h
    have hm₃ := fullView_counted hm₂ (Nat.le_max_left _ _) hviews.1 hyesView
    rcases bind_error.1 h with h | ⟨noView, m₄, hnoView, h⟩
    · exact stops_fullView _ _ _ _ _ _ hm₃ h
    have hm₄ := fullView_counted hm₃ (Nat.le_max_right _ _) hviews.2 hnoView
    have hmerge : StopsCounted (do
        let merged ← mergeSlots yesView noView
        emit (.branch condition (gy.code ++ merged.yes) (gn.code ++ merged.no))
        replaceStack merged.stack (max gy.drawn gn.drawn)) :=
      .bind (stops_mergeSlots _ _) (mergeSlots_steady _ _) (fun _ => .bind .modify (steady_emit _) (fun _ => .modify))
    exact StopsCounted.ite hmerge .throw _ _ _ _ hm₄ h
  exact hstop.mono (Nat.le_trans (Nat.le_max_left _ _) (Nat.le_max_left _ _))

theorem stops_changedSlots : ∀ (vs : List VarId) (es : List Expr), StopsCounted (changedSlots vs es)
  | [], _ => .pure
  | _ :: _, [] => .pure
  | v :: vs, e :: es => by
    unfold changedSlots
    refine .bind (stops_changedSlots vs es) (steady_changedSlots vs es) (fun below => .ite .pure ?_)
    refine .bind (stops_tyOf _) (steady_tyOf _) (fun t => ?_)
    exact .bind (stops_check e t _) (steady_check e t _) (fun _ => .pure)

theorem stops_temporaries : ∀ changed : List (VarId × Expr), StopsCounted (temporaries changed)
  | [] => .pure
  | (v, e) :: rest => by
    unfold temporaries
    refine .bind (stops_tyOf e) (steady_tyOf e) (fun t => .bind .modifyGet (steady_newLocal t) (fun v => ?_))
    exact .bind (stops_temporaries rest) (steady_temporaries rest) (fun _ => .pure)

theorem stops_updates (changed : List (VarId × Expr)) : StopsCounted (updates changed) := by
  unfold updates
  split
  · exact .pure
  · exact .bind (stops_temporaries _) (steady_temporaries _) (fun _ => .pure)

theorem stops_loopTest {x : Eval Unit} (hx : Steady x) (hstops : StopsCounted x) (start : List Expr) :
    StopsCounted (loopTest x start) := by
  intro n m e m' hm h
  rw [loopTest_eq] at h
  rcases bind_error.1 h with h | ⟨g, m₁, hg, h⟩
  · exact stops_inNested hstops hm h
  have hm₁ := (inNested_counted hx hm hg).mono (Nat.le_max_left _ _)
  refine StopsCounted.ite .throw ?_ n m₁ e m' hm₁ h
  split
  · exact .throw
  · refine .ite (.bind (stops_check _ _ _) (steady_check _ _ _) (fun _ => ?_)) .throw
    exact .ite .pure .throw

theorem stops_loopBody {x : Eval Unit} (hx : Steady x) (hstops : StopsCounted x) (vs : List VarId) :
    StopsCounted (loopBody x vs) := by
  intro n m e m' hm h
  unfold loopBody at h
  rcases bind_error.1 h with h | ⟨g, m₁, hg, h⟩
  · exact stops_inNested hstops hm h
  have hm₁ := (inNested_counted hx hm hg).mono (Nat.le_max_left _ _)
  refine StopsCounted.ite .throw (.ite ?_ .throw) n m₁ e m' hm₁ h
  refine .bind (stops_changedSlots _ _) (steady_changedSlots _ _) (fun changed => ?_)
  exact .bind (stops_updates _) (steady_updates _) (fun _ => .pure)

theorem stops_loop {run : Procedure → Eval Unit} (hrun : ∀ p, Steady (run p)) (hstops : ∀ p, StopsCounted (run p)) :
    StopsCounted (loop run) := by
  unfold loop
  refine .bind (stops_popProcedure _) (steady_popProcedure _) (fun body => ?_)
  refine .bind (stops_popProcedure _) (steady_popProcedure _) (fun condition => ?_)
  refine .bind (stops_spillAll _) (steady_spillAll _) (fun vs => ?_)
  refine .bind (stops_loopTest (hrun condition) (hstops condition) _) (steady_loopTest (hrun condition) _) (fun r => ?_)
  exact .bind (stops_loopBody (hrun body) (hstops body) vs) (steady_loopBody (hrun body) vs) (fun _ => .modify)

/-! ## Whole bodies -/

theorem stops_callMethod (p : String) (ts : List Ty) (m : String) (t : Ty) : StopsCounted (callMethod p ts m t) :=
  .bind (stops_popArgs p ts) (steady_popArgs p ts) (fun _ => .modify)

theorem stops_callHelper (p : String) (ts : List Ty) (h : Helper) (t : Ty) : StopsCounted (callHelper p ts h t) :=
  .bind .modify (steady_link h) (fun _ => stops_callMethod _ _ _ _)

theorem stops_callWriter (p : String) (ts : List Ty) (m : String) : StopsCounted (callWriter p ts m) :=
  .bind (stops_popArgs p ts) (steady_popArgs p ts) (fun _ => .modify)

theorem stops_operands {t : Ty} {p : String} {make : Expr → Expr → Expr} : StopsCounted (do
    let right ← popTyped t p
    let left ← popTyped t p
    push (make left right)) :=
  .bind (stops_popTyped t p) (steady_popTyped t p) (fun _ => .bind (stops_popTyped t p) (steady_popTyped t p) (fun _ => .modify))

theorem stops_equal : StopsCounted equal := by
  unfold equal
  refine .bind (stops_popTyped _ _) (steady_popTyped _ _) (fun right => .bind (stops_tyOf _) (steady_tyOf _) (fun t => ?_))
  refine .bind (stops_popTyped t _) (steady_popTyped t _) (fun left => .bind (stops_tyOf _) (steady_tyOf _) (fun t => ?_))
  exact .bind (stops_check _ _ _) (steady_check _ _ _) (fun _ => .modify)

theorem stops_storeTop (target : Target) (t : Ty) : StopsCounted (storeTop target t) :=
  .bind (stops_popTyped _ _) (steady_popTyped _ _) (fun _ =>
    .bind (stops_spillWhere _) (steady_spillWhere _) (fun _ => .modify))

theorem stops_assign (dict : Dictionary) : StopsCounted (assign dict) := by
  unfold assign
  refine .bind (stops_popAs _) (steady_popAs _) (fun e => ?_)
  split
  · split
    · exact .throw
    · dsimp only
      split
      · exact .bind .modify steady_touchEntry (fun _ => stops_storeTop _ _)
      · exact stops_storeTop _ _
  · exact stops_mismatch _ _ _

theorem stops_missing : StopsCounted missing := by
  unfold missing
  refine .bind (stops_popAs _) (steady_popAs _) (fun e => .bind (stops_check e _ _) (steady_check e _ _) (fun e => ?_))
  split
  · exact .bind .modify steady_touchEntry (fun _ => .modify)
  · exact .bind .get .get (fun m => .ite (.bind .modify (steady_link _) (fun _ => .modify)) .modify)

theorem stops_callType : StopsCounted callType :=
  .bind .modify (steady_link _) (fun _ => .bind (stops_spillWhere _) (steady_spillWhere _) (fun _ =>
    .bind .modify steady_touchEntry (fun _ => .modify)))

theorem stops_invoke (s : Signature) (args : List Expr) : StopsCounted (invoke s args) := by
  refine .bind (stops_spillWhere _) (steady_spillWhere _) (fun _ => .ite .modify ?_)
  exact .bind .modifyGet (steady_newLocal _) (fun v => .bind .modify (steady_emit _) (fun _ => .modify))

theorem stops_callRoutine (n : String) (s : Signature) : StopsCounted (callRoutine n s) := by
  rw [callRoutine_eq]
  refine .bind (stops_popArgs _ _) (steady_popArgs _ _) (fun args => .ite ?_ (stops_invoke s args))
  exact .bind .modify steady_touchEntry (fun _ => stops_invoke s _)

section Runs

variable {run : Procedure → Eval Unit} (hrun : ∀ p, Steady (run p)) (hstops : ∀ p, StopsCounted (run p))

include hrun hstops

theorem stops_primitive (dict : Dictionary) (p : Primitive) : StopsCounted (primitive dict run p) := by
  cases p with
  | branch => exact stops_branch hrun hstops
  | loop => exact stops_loop hrun hstops
  | add | sub | concat | lt | gt => exact stops_operands
  | eq => exact stops_equal
  | assign => exact stops_assign dict
  | callType => exact stops_callType
  | missing => exact stops_missing
  | duplicate => exact .bind (stops_popAs _) (steady_popAs _) (fun _ => .bind .modify (steady_push _) (fun _ => .modify))
  | swap =>
    refine .bind (stops_popAs _) (steady_popAs _) (fun _ => .bind (stops_popAs _) (steady_popAs _) (fun _ => ?_))
    exact .bind .modify (steady_push _) (fun _ => .modify)
  | skip => exact .pure
  | clear | quote | preamble => exact .modify
  | cite | entryType => exact .bind .modify steady_touchEntry (fun _ => .modify)
  | pop | top => exact .bind (stops_popAs _) (steady_popAs _) (fun _ => .pure)
  | newline | warning | write => exact stops_callWriter _ _ _
  | changeCase | intToStr | purify | width => exact stops_callMethod _ _ _ _
  | addPeriod | chrToInt | empty | formatName | intToChr | numNames | substring | textLength | textPrefix =>
    exact stops_callHelper _ _ _ _

theorem stops_name (dict : Dictionary) (n : String) : StopsCounted (name dict run n) := by
  have htouch : ∀ e, StopsCounted (do touchEntry; push e) := fun e => .bind .modify steady_touchEntry (fun _ => .modify)
  unfold name
  split
  · exact .throw
  · exact stops_primitive hrun hstops dict _
  · exact stops_callRoutine _ _
  · exact htouch _
  · exact .modify
  · exact .modify
  · exact htouch _
  · exact htouch _
  · exact .modify

theorem stops_term (dict : Dictionary) (t : Term) : StopsCounted (term dict run t) := by
  unfold term
  refine .bind .modify (.modify (fun _ => ⟨rfl, id, .refl _ _⟩)) (fun _ => ?_)
  cases t with
  | name n _ => exact stops_name hrun hstops dict n
  | field | entryInteger | entryString => exact .throw
  | _ => exact .modify

theorem stops_terms (dict : Dictionary) : ∀ ts : List Term, StopsCounted (terms dict run ts)
  | [] => .pure
  | t :: ts => .bind (stops_term hrun hstops dict t) (steady_term hrun dict t) (fun _ => stops_terms dict ts)

end Runs

/-- **Whatever stops a procedure, its parameters are counted.** -/
theorem stops_procedure (dict : Dictionary) : ∀ (depth : Nat) (p : Procedure), StopsCounted (procedure dict depth p)
  | 0, _ => .throw
  | depth + 1, .group g => stops_terms (steady_procedure dict depth) (stops_procedure dict depth) dict g.terms
  | depth + 1, .named n => stops_name (steady_procedure dict depth) (stops_procedure dict depth) dict n

/-! ## Wherever a run passes -/

section Points

variable {d : Dictionary} {n : Nat} {m : Machine} {waiting fs : List Frame}

theorem Enters.counted {run : Procedure → Eval Unit} {p : Primitive} {q : Procedure} {m₁ : Machine}
    (h : Enters run p m q waiting m₁) (hrun : ∀ p, Steady (run p)) (hm : m.Counted n) :
    ∃ k, n ≤ k ∧ m₁.Counted k ∧ ∀ f ∈ waiting, f.reach ≤ k := by
  have hsides : Steady sides :=
    .bind (steady_popProcedure _) (fun _ => .bind (steady_popProcedure _) (fun _ => .bind (steady_popTyped _ _) (fun _ => .pure)))
  have hstart : Steady loopStart :=
    .bind (steady_popProcedure _) (fun _ => .bind (steady_popProcedure _) (fun _ => .bind (steady_spillAll _) (fun _ => .pure)))
  -- a frame that is left for a nested one waits with all that it has drawn
  have hwaits : ∀ {m : Machine} {n : Nat}, m.Counted n → ∃ k, n ≤ k ∧
      Machine.Counted k { m with frame := m.frame.nested } ∧ ∀ f ∈ [m.frame], f.reach ≤ k := fun hm =>
    ⟨_, Nat.le_max_left _ _, hm.nested, List.forall_mem_singleton.2 (Nat.le_max_right _ _)⟩
  cases h with
  | yes h => exact hwaits (hsides.counted hm h)
  | no h hyes =>
    obtain ⟨k, hk, hcounted, hframe⟩ := hwaits (inNested_counted (hrun _) (hsides.counted hm h) hyes)
    obtain ⟨hn, hf⟩ := Nat.max_le.1 hk
    exact ⟨k, hn, hcounted, List.forall_mem_cons.2 ⟨hf, hframe⟩⟩
  | condition h => exact hwaits (hstart.counted hm h)
  | body h htest => exact hwaits ((steady_loopTest (hrun _) _).counted (hstart.counted hm h) htest)

theorem Passes.counted {depth : Nat} {p : Procedure} {m' : Machine} (h : Passes d depth p m fs m') :
    ∀ {n : Nat}, m.Counted n → ∃ k, n ≤ k ∧ m'.Counted k ∧ ∀ f ∈ fs, f.reach ≤ k := by
  induction h with
  | start => exact fun {n} hm => ⟨n, Nat.le_refl n, hm, List.forall_mem_nil _⟩
  | @done depth p _ _ h =>
    exact fun {n} hm => ⟨n, Nat.le_refl n, (steady_procedure d depth p).counted hm h, List.forall_mem_nil _⟩
  | @fault depth p _ _ _ h =>
    exact fun {n} hm => ⟨n, Nat.le_refl n, stops_procedure d depth p n _ _ _ hm h, List.forall_mem_nil _⟩
  | @next depth t _ _ _ _ _ _ h _ ih =>
    exact fun hm => ih ((steady_term (steady_procedure d depth) d t).counted hm h)
  | name _ ih => exact fun hm => ih hm
  | @nested depth _ _ _ _ _ _ _ _ _ h _ ih =>
    intro n hm
    obtain ⟨k, hn, hcounted, hwaiting⟩ := h.counted (steady_procedure d depth) hm
    obtain ⟨k', hk, hcounted', hfs⟩ := ih hcounted
    refine ⟨k', Nat.le_trans hn hk, hcounted', List.forall_mem_append.2 ⟨hfs, fun f hf => ?_⟩⟩
    exact Nat.le_trans (hwaiting f hf) hk

end Points

/-- **Parameters are the values drawn.**  A method has one parameter for each value that its body has drawn by its end, whichever
branches drew it; it lists them the deepest first, and in that order they are `p1`, `p2` and so on, while the locals are `v1`, `v2` and
so on in the order they were made, so that all variables have names and no two the same.  Wherever a run passes, accepted or
not, the parameters stand for the first depths, each once, and no frame that there is has drawn beyond them. -/
theorem parameters_counted (d : Dictionary) (depth : Nat) (linkage : Linkage) (log : Array Event) :
    (∀ vars function method body r m, routine d depth function method body (.ready vars linkage log) = .ok r m →
      ∃ m₁, terms d (procedure d depth) body.terms (.start linkage log) = .ok () m₁ ∧ m = m₁.cleared ∧
        r.Counted m₁.frame.drawn) ∧
    ∀ p fs m, Passes d depth p (.start linkage log) fs m →
      ∃ k, m.scope.Covers k ∧ ∀ f ∈ m.frame :: fs, f.base + f.drawn ≤ k := by
  refine ⟨fun vars function method body r m h => ?_, fun p fs m h => ?_⟩
  · obtain ⟨m₁, value, hterms, -, rfl, hleft⟩ := routine_ok h
    have hsteady := steady_terms (steady_procedure d depth) d body.terms
    have hcovers := hsteady.covers hterms
    have hbase : m₁.frame.base = 0 := (hsteady _ _ _ hterms).base
    rw [Frame.reach, hbase, Nat.zero_add] at hcovers
    exact ⟨m₁, hterms, hleft, hcovers.counted rfl rfl⟩
  · obtain ⟨n, -, ⟨k, hcovers, hn, hreach⟩, hfs⟩ := h.counted (Machine.counted_start linkage log)
    exact ⟨k, hcovers, List.forall_mem_cons.2 ⟨hreach, fun f hf => Nat.le_trans (hfs f hf) hn⟩⟩

/-- One side draws three deep and the other two, and the method has three parameters; while the second side is run, the first
has already drawn all of them. -/
theorem parameters_counted_draws :
    (∃ r m m₁, routine .initial 2 "f" "f" subtractOrDrop (.ready .empty .empty #[]) = .ok r m ∧
      terms .initial (procedure .initial 2) subtractOrDrop.terms (.start .empty #[]) = .ok () m₁ ∧ m = m₁.cleared ∧
      m₁.frame.drawn = 3 ∧ r.Counted 3) ∧
    ∃ fs m k, Passes .initial 2 (.group subtractOrDrop) (.start .empty #[]) fs m ∧
      (m.frame :: fs).map (fun f => (f.base, f.drawn)) = [(1, 1), (1, 2), (0, 1)] ∧
      m.scope.Covers k ∧ ∀ f ∈ m.frame :: fs, f.base + f.drawn ≤ k := by
  obtain ⟨hroutine, hpasses⟩ := parameters_counted .initial 2 .empty #[]
  constructor
  · have hcompiles : (EStateM.run' (routine .initial 2 "f" "f" subtractOrDrop) (.ready .empty .empty #[])).any
        (fun _ => true) = true := by decide +kernel
    have hdraws : (EStateM.run' (terms .initial (procedure .initial 2) subtractOrDrop.terms >>= fun _ => get)
        (.start .empty #[])).any (·.frame.drawn == 3) = true := by decide +kernel
    obtain ⟨r, m, h, -⟩ := exists_value_of_check hcompiles
    obtain ⟨_, m₂, hterms, hdrawn⟩ := exists_ok_of_check hdraws
    obtain ⟨m₁, hbody, hleft, hcounted⟩ := hroutine _ _ _ _ r m h
    rw [hterms] at hbody
    cases hbody
    have hthree := eq_of_beq hdrawn
    exact ⟨r, m, m₂, h, hterms, hleft, hthree, hthree ▸ hcounted⟩
  · have hchecked : (EStateM.run' (do let fs ← drawing; return (← get).frame :: fs) choosing).any
        (fun fs => fs.map (fun f => (f.base, f.drawn)) == [(1, 1), (1, 2), (0, 1)]) = true := by decide +kernel
    obtain ⟨_, m₁, h, hframes⟩ := exists_value_of_check hchecked
    obtain ⟨fs, _, hdrawing, h⟩ := bind_ok.1 h
    cases h
    have hpass := drawing_passes hdrawing
    obtain ⟨k, hcovers, hreach⟩ := hpasses _ fs _ hpass
    exact ⟨fs, _, k, hpass, eq_of_beq hframes, hcovers, hreach⟩

end Eval
end Bibstyle
