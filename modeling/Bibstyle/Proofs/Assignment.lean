import Mathlib.Data.List.Nodup
import Mathlib.Data.List.Perm.Subperm
import Bibstyle.Proofs.Identifiers
/-!
# Assignment — a table gives each name one identifier of its own

Whatever is reserved and asked for, and in whatever order: a name keeps the identifier it got first, no two names share
one, what was reserved before a name was asked for is not given to it, and all that is given is a word.  The search for a
free form ends because the forms of a wish differ, so that a table with `n` names in it holds at most `n` of them.
-/
namespace Bibstyle
namespace Identifier

/-! ## The forms of a wish -/

/-- **The `k`-th form of a wish**, counted from one: the wish itself, then the wish with its number. -/
def form (base : String) (k : Nat) : String :=
  if k = 1 then base else base ++ Decimal.nat k

theorem form_injective (base : String) : Function.Injective (form base) := by
  have hbare : ∀ k, base ++ Decimal.nat k ≠ base := by
    intro k h
    have hlist := congrArg String.toList h
    rw [String.toList_append, List.append_right_eq_self] at hlist
    exact Decimal.toList_nat_ne_nil k hlist
  intro i j h
  unfold form at h
  by_cases hi : i = 1 <;> by_cases hj : j = 1
  · omega
  · rw [if_pos hi, if_neg hj] at h
    exact absurd h.symm (hbare j)
  · rw [if_neg hi, if_pos hj] at h
    exact absurd h (hbare i)
  · rw [if_neg hi, if_neg hj] at h
    exact Decimal.nat_injective ((String.append_right_inj base).1 h)

theorem freeFrom_first (base : String) (k : Nat) (taken : List String) :
    ∃ j, k ≤ j ∧ freeFrom base k taken = base ++ Decimal.nat j ∧
      ∀ i, k ≤ i → i < j → base ++ Decimal.nat i ∈ taken := by
  fun_induction freeFrom base k taken with
  | case1 k taken candidate h ih =>
    obtain ⟨j, hj, heq, hbefore⟩ := ih
    refine ⟨j, by omega, heq, fun i hi hij => ?_⟩
    by_cases hik : i = k
    · rw [hik]
      exact h
    · exact List.mem_of_mem_erase (hbefore i (by omega) hij)
  | case2 k taken candidate h => exact ⟨k, by omega, rfl, fun i hi hij => by omega⟩

/-- **Counting up from one stops at `k`**: the first form that is free. -/
structure Counted (base : String) (taken : List String) (k : Nat) : Prop where
  start : 1 ≤ k
  free : form base k ∉ taken
  before : ∀ i, 1 ≤ i → i < k → form base i ∈ taken

theorem Counted.le {base : String} {taken : List String} {k : Nat} (h : Counted base taken k) :
    k ≤ taken.length + 1 := by
  have hnodup : ((List.range' 1 (k - 1)).map (form base)).Nodup :=
    List.Nodup.map (form_injective base) (List.nodup_range' 1)
  have hsubset : (List.range' 1 (k - 1)).map (form base) ⊆ taken := by
    intro w hw
    obtain ⟨i, hi, rfl⟩ := List.mem_map.1 hw
    have hrange := List.mem_range'_1.1 hi
    exact h.before i hrange.1 (by omega)
  have hlength := (List.subperm_of_subset hnodup hsubset).length_le
  simp only [List.length_map, List.length_range'] at hlength
  omega

/-! ## Words -/

/-- **A word**: a letter or an underscore, then letters, digits and underscores. -/
def IsWord (id : String) : Prop :=
  ∃ c s, id.toList = c :: s ∧ (c.isAlpha = true ∨ c = '_') ∧ ∀ d ∈ s, d.isAlphanum = true ∨ d = '_'

theorem isWordChar_iff (c : Char) : isWordChar c = true ↔ c.isAlphanum = true ∨ c = '_' := by
  simp [isWordChar]

theorem isLower_iff {c : Char} : c.isLower = true ↔ c.val ≥ 'a'.val ∧ c.val ≤ 'z'.val := by
  change (decide (c.val ≥ 'a'.val) && decide (c.val ≤ 'z'.val)) = true ↔ _
  rw [Bool.and_eq_true, decide_eq_true_eq, decide_eq_true_eq]

theorem isUpper_toUpper {c : Char} (h : c.isLower = true) : c.toUpper.isUpper = true := by
  rw [isLower_iff] at h
  have hlower : 97 ≤ c.val.toNat ∧ c.val.toNat ≤ 122 := ⟨UInt32.le_iff_toNat_le.1 h.1, UInt32.le_iff_toNat_le.1 h.2⟩
  -- the step back from small to capital letters wraps around
  have hval : c.toUpper.val.toNat = c.val.toNat - 32 := by
    have hback : ('A'.val - 'a'.val).toNat = 4294967264 := by decide
    unfold Char.toUpper
    rw [dif_pos h, UInt32.toNat_add, hback]
    omega
  have hupper : 65 ≤ c.toUpper.val.toNat ∧ c.toUpper.val.toNat ≤ 90 := by omega
  exact decide_eq_true ⟨UInt32.le_iff_toNat_le.2 hupper.1, UInt32.le_iff_toNat_le.2 hupper.2⟩

theorem isWordChar_toUpper {c : Char} (h : isWordChar c = true) : isWordChar c.toUpper = true := by
  by_cases hc : c.isLower = true
  · have halpha : c.toUpper.isAlpha = true := by
      change (c.toUpper.isUpper || c.toUpper.isLower) = true
      rw [isUpper_toUpper hc, Bool.true_or]
    simp [isWordChar, Char.isAlphanum, halpha]
  · have hsame : c.toUpper = c := dif_neg (fun hlower => hc (isLower_iff.2 hlower))
    rw [hsame]
    exact h

theorem isWordChar_joinWords (s : List Char) : ∀ up, ∀ c ∈ joinWords up s, isWordChar c = true := by
  induction s with
  | nil => simp [joinWords]
  | cons c s ih =>
    intro up d hd
    rw [joinWords] at hd
    by_cases hc : isWordChar c = true
    · rw [if_pos hc] at hd
      rcases List.mem_cons.1 hd with rfl | hd
      · cases up
        · exact hc
        · exact isWordChar_toUpper hc
      · exact ih false d hd
    · rw [if_neg hc] at hd
      exact ih true d hd

theorem IsWord.append {id : String} (h : IsWord id) {more : String}
    (hmore : ∀ d ∈ more.toList, d.isAlphanum = true ∨ d = '_') : IsWord (id ++ more) := by
  obtain ⟨c, s, hlist, hc, hs⟩ := h
  refine ⟨c, s ++ more.toList, by rw [String.toList_append, hlist, List.cons_append], hc, fun d hd => ?_⟩
  exact (List.mem_append.1 hd).elim (hs d) (hmore d)

theorem isWord_camelCase (name : List Char) : IsWord (String.ofList (camelCase name)) := by
  unfold camelCase
  have hall := isWordChar_joinWords (name.dropWhile (fun c => !isWordChar c)) false
  split
  · exact ⟨'_', [], by simp, .inr rfl, nofun⟩
  · rename_i c s hword
    rw [hword] at hall
    have hc := (isWordChar_iff c).1 (hall c List.mem_cons_self)
    have hs : ∀ d ∈ s, d.isAlphanum = true ∨ d = '_' := fun d hd =>
      (isWordChar_iff d).1 (hall d (List.mem_cons_of_mem _ hd))
    by_cases hdigit : c.isDigit = true
    · rw [if_pos hdigit]
      refine ⟨'_', c :: s, by simp, .inr rfl, fun d hd => ?_⟩
      rcases List.mem_cons.1 hd with rfl | hd
      · exact hc
      · exact hs d hd
    · rw [if_neg hdigit]
      refine ⟨c, s, by simp, hc.imp_left fun h => ?_, hs⟩
      simpa [Char.isAlphanum, hdigit] using h

theorem isWord_wish (n : String) : IsWord (wish n) := by
  have hword := isWord_camelCase n.toList
  unfold wish
  dsimp only
  split
  · rw [String.ofList_append]
    exact hword.append (by simp)
  · exact hword

end Identifier

namespace Identifiers

theorem choose_counted (t : Identifiers) (n : String) :
    ∃ k, t.choose n = Identifier.form (Identifier.wish n) k ∧ Identifier.Counted (Identifier.wish n) t.taken k := by
  have hfree := t.choose_free n
  unfold choose at hfree ⊢
  dsimp only at hfree ⊢
  generalize Identifier.wish n = w at hfree ⊢
  by_cases hwish : w ∈ t.taken
  · rw [if_pos hwish] at hfree ⊢
    obtain ⟨k, hk, heq, hbefore⟩ := Identifier.freeFrom_first w 2 t.taken
    have hform : ∀ i, 2 ≤ i → Identifier.form w i = w ++ Decimal.nat i :=
      fun i hi => if_neg (by omega)
    rw [heq, ← hform k hk] at hfree ⊢
    refine ⟨k, rfl, by omega, hfree, fun i hi hik => ?_⟩
    by_cases hone : i = 1
    · rw [hone]
      exact hwish
    · rw [hform i (by omega)]
      exact hbefore i (by omega) hik
  · rw [if_neg hwish] at hfree ⊢
    exact ⟨1, rfl, by omega, hfree, fun i hi hik => by omega⟩

/-! ## Answers -/

/-- **The answers to some requests**: each name asked for, with the identifier it got. -/
def answers : Identifiers → List Request → List (String × String)
  | _, [] => []
  | t, .reserve w :: rs => answers (t.reserve w) rs
  | t, .assign n :: rs => (n, (t.assign n).1) :: answers (t.assign n).2 rs

theorem lookup_serve {t : Identifiers} {n id : String} (h : t.assigned.lookup n = some id) (r : Request) :
    (t.serve r).assigned.lookup n = some id := by
  cases r with
  | reserve w => exact h
  | assign m => exact lookup_assign_old m h

theorem lookup_serveAll {n id : String} : ∀ (rs : List Request) {t : Identifiers},
    t.assigned.lookup n = some id → (rs.foldl serve t).assigned.lookup n = some id
  | [], _, h => h
  | r :: rs, _, h => lookup_serveAll rs (lookup_serve h r)

/-- What was answered once stands in the table at the end. -/
theorem lookup_of_answer {n id : String} : ∀ (rs : List Request) (t : Identifiers),
    (n, id) ∈ answers t rs → (rs.foldl serve t).assigned.lookup n = some id
  | [], _, h => by cases h
  | .reserve w :: rs, t, h => lookup_of_answer rs (t.reserve w) h
  | .assign m :: rs, t, h => by
    rcases List.mem_cons.1 h with hhead | h
    · obtain ⟨rfl, rfl⟩ := Prod.mk.inj hhead
      exact lookup_serveAll rs (lookup_assign t n)
    · exact lookup_of_answer rs (t.assign m).2 h

theorem Apart.serve {t : Identifiers} (h : t.Apart) (r : Request) : (t.serve r).Apart := by
  cases r with
  | reserve w => exact ⟨fun n id hn => List.mem_cons_of_mem _ (h.taken n id hn), h.unique⟩
  | assign n => exact h.assign n

theorem after_apart (requests : List Request) : (after requests).Apart := by
  have hrun : ∀ (rs : List Request) (t : Identifiers), t.Apart → (rs.foldl Identifiers.serve t).Apart := by
    intro rs
    induction rs with
    | nil => exact fun t h => h
    | cons r rs ih => exact fun t h => ih _ (h.serve r)
  exact hrun requests .empty ⟨nofun, nofun⟩

/-- **A name is kept from an identifier**: it is taken, and not by that name. -/
structure Barred (w n : String) (t : Identifiers) : Prop where
  taken : w ∈ t.taken
  other : t.assigned.lookup n ≠ some w

theorem Barred.assign {w n : String} {t : Identifiers} (h : t.Barred w n) (m : String) : (t.assign m).2.Barred w n := by
  unfold Identifiers.assign
  cases hm : t.assigned.lookup m with
  | some id => exact h
  | none =>
    refine ⟨List.mem_cons_of_mem _ h.taken, fun hw => ?_⟩
    rw [List.lookup_cons] at hw
    by_cases hnm : n = m
    · rw [hnm, beq_self_eq_true] at hw
      have hchosen := t.choose_free m
      rw [Option.some.inj hw] at hchosen
      exact hchosen h.taken
    · rw [beq_eq_false_iff_ne.2 hnm] at hw
      exact h.other hw

theorem Barred.serveAll {w n : String} : ∀ (rs : List Request) {t : Identifiers},
    t.Barred w n → (rs.foldl Identifiers.serve t).Barred w n
  | [], _, h => h
  | .reserve _ :: rs, _, h => Barred.serveAll rs ⟨List.mem_cons_of_mem _ h.taken, h.other⟩
  | .assign m :: rs, _, h => Barred.serveAll rs (h.assign m)

/-- A name that was not asked for has no identifier. -/
theorem lookup_serveAll_none {n : String} : ∀ (rs : List Request) (t : Identifiers), .assign n ∉ rs →
    t.assigned.lookup n = none → (rs.foldl serve t).assigned.lookup n = none
  | [], _, _, h => h
  | .reserve _ :: rs, t, hrs, h => lookup_serveAll_none rs _ (fun hmem => hrs (List.mem_cons_of_mem _ hmem)) h
  | .assign m :: rs, t, hrs, h => by
    refine lookup_serveAll_none rs _ (fun hmem => hrs (List.mem_cons_of_mem _ hmem)) ?_
    have hnm : n ≠ m := fun hnm => hrs (by rw [hnm]; exact List.mem_cons_self)
    change (t.assign m).2.assigned.lookup n = none
    unfold assign
    cases hm : t.assigned.lookup m with
    | some id => exact h
    | none =>
      rw [List.lookup_cons, beq_eq_false_iff_ne.2 hnm]
      exact h

/-- **A table stands names and identifiers one for one.**  Whatever is reserved and asked for: the search for an identifier
ends, at the first form of the wish that is free; a name is given one identifier throughout, and an identifier to one
name; a name asked for only after `w` was reserved is not given `w`; and every identifier is a word. -/
theorem answers_one_for_one (requests : List Request) :
    (∀ n, ∃ k, (after requests).choose n = Identifier.form (Identifier.wish n) k ∧
      Identifier.Counted (Identifier.wish n) (after requests).taken k ∧ k ≤ (after requests).taken.length + 1) ∧
    (∀ n a b, (n, a) ∈ answers .empty requests → (n, b) ∈ answers .empty requests → a = b) ∧
    (∀ n m a, (n, a) ∈ answers .empty requests → (m, a) ∈ answers .empty requests → n = m) ∧
    (∀ before w later n a, requests = before ++ .reserve w :: later → .assign n ∉ before →
      (n, a) ∈ answers .empty requests → a ≠ w) ∧
    ∀ n a, (n, a) ∈ answers .empty requests → Identifier.IsWord a := by
  refine ⟨fun n => ?_, fun n a b ha hb => ?_, fun n m a hn hm => ?_, fun before w later n a heq hn ha => ?_,
    fun n a ha => ?_⟩
  · obtain ⟨k, hk, hcounted⟩ := (after requests).choose_counted n
    exact ⟨k, hk, hcounted, hcounted.le⟩
  · have hfirst := lookup_of_answer requests .empty ha
    rw [lookup_of_answer requests .empty hb] at hfirst
    exact (Option.some.inj hfirst).symm
  · exact (after_apart requests).unique n m a (lookup_of_answer requests .empty hn)
      (lookup_of_answer requests .empty hm)
  · have hlookup := lookup_of_answer requests .empty ha
    rintro rfl
    rw [heq, List.foldl_append, List.foldl_cons] at hlookup
    have hnone := lookup_serveAll_none before .empty hn rfl
    have hbarred : ((before.foldl serve .empty).serve (.reserve a)).Barred a n := by
      refine ⟨List.mem_cons_self, fun h => ?_⟩
      rw [show ((before.foldl serve .empty).serve (.reserve a)).assigned = (before.foldl serve .empty).assigned from rfl,
        hnone] at h
      cases h
    exact (hbarred.serveAll later).other hlookup
  · rcases after_formed requests n a (lookup_of_answer requests .empty ha) with rfl | ⟨k, rfl⟩
    · exact Identifier.isWord_wish n
    · refine (Identifier.isWord_wish n).append fun d hd => .inl ?_
      simp [Char.isAlphanum, Decimal.isDigit_nat k d hd]

end Identifiers
end Bibstyle
