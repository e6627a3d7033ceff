import Bibstyle.Script.Identifier
/-!
# Identifiers — what identifiers come out as

Whatever has been reserved and asked for before, a name gets the identifier it would like to have, or else that with a
number after it, and no two names share one.  None is a keyword or a member of the script's class, because those end
neither in a digit nor in an underscore.  A number can make the shape of a variable, though: names that would like to be
`p` or `v` get it when they are not the first to ask.
-/
namespace Bibstyle

/-! ## Numbered forms -/

theorem Decimal.nat_injective {a b : Nat} (h : Decimal.nat a = Decimal.nat b) : a = b := by
  have hdigits := String.ofList_injective h
  rw [← Nat.ofDigitChars_ten_toDigits (n := a), hdigits, Nat.ofDigitChars_ten_toDigits]

/-- The numbered form that is found is free, and none before `k`. -/
theorem Identifier.freeFrom_free (base : String) (k : Nat) (taken : List String) :
    freeFrom base k taken ∉ taken ∧ ∃ j, k ≤ j ∧ freeFrom base k taken = base ++ Decimal.nat j := by
  fun_induction freeFrom base k taken with
  | case1 k taken candidate h ih =>
    obtain ⟨hfree, j, hj, heq⟩ := ih
    refine ⟨fun hmem => hfree ((List.mem_erase_of_ne ?_).2 hmem), j, Nat.le_of_succ_le hj, heq⟩
    rw [heq]
    intro hsame
    have hnumber := Decimal.nat_injective ((String.append_right_inj base).1 hsame)
    omega
  | case2 k taken candidate h => exact ⟨h, k, Nat.le_refl k, rfl⟩

theorem Decimal.toList_nat (n : Nat) : (Decimal.nat n).toList = Nat.toDigits 10 n :=
  String.toList_ofList

theorem Decimal.isDigit_nat (n : Nat) : ∀ c ∈ (Decimal.nat n).toList, c.isDigit = true := by
  intro c hc
  rw [Decimal.toList_nat] at hc
  exact Nat.isDigit_of_mem_toDigits (by decide) (by decide) hc

theorem Decimal.toList_nat_ne_nil (n : Nat) : (Decimal.nat n).toList ≠ [] := by
  rw [Decimal.toList_nat]
  exact Nat.toDigits_ne_nil

namespace Identifier

/-- No reserved word ends in a digit or an underscore. -/
theorem not_mem_reserved_of_end {w : String} {c : Char} (hend : w.toList.getLast? = some c)
    (hc : c.isDigit = true ∨ c = '_') : w ∉ reserved := by
  have hall : ∀ r ∈ reserved, (r.toList.getLast?.all (fun c => !(c.isDigit || c == '_'))) = true := by decide
  intro hw
  have hone := hall w hw
  rw [hend] at hone
  rcases hc with hc | rfl
  · simp [hc] at hone
  · simp at hone

theorem numbered_not_mem_reserved (base : String) (k : Nat) : base ++ Decimal.nat k ∉ reserved := by
  have hne := Decimal.toList_nat_ne_nil k
  refine not_mem_reserved_of_end (c := (Decimal.nat k).toList.getLast hne) ?_ (.inl ?_)
  · rw [String.toList_append, List.getLast?_append, List.getLast?_eq_some_getLast hne]
    rfl
  · exact Decimal.isDigit_nat k _ (List.getLast_mem hne)

theorem isVariableShaped_cons (c : Char) (s : List Char) :
    isVariableShaped (c :: s) = true ↔ (c = 'p' ∨ c = 'v') ∧ s ≠ [] ∧ ∀ d ∈ s, d.isDigit = true := by
  simp [isVariableShaped, and_assoc]

/-- **A number makes a variable of `p` and `v`** and of nothing else that is none already. -/
theorem isVariableShaped_numbered {base : String} (hbase : isVariableShaped base.toList = false) (k : Nat) :
    isVariableShaped (base ++ Decimal.nat k).toList = true ↔ base = "p" ∨ base = "v" := by
  have hdigits := Decimal.isDigit_nat k
  have hne := Decimal.toList_nat_ne_nil k
  have hp : base = "p" ↔ base.toList = ['p'] := String.toList_inj.symm
  have hv : base = "v" ↔ base.toList = ['v'] := String.toList_inj.symm
  rw [hp, hv, String.toList_append]
  cases hlist : base.toList with
  | nil =>
    cases hnat : (Decimal.nat k).toList with
    | nil => exact absurd hnat hne
    | cons d ds =>
      have hd := hdigits d (by rw [hnat]; exact List.mem_cons_self)
      rw [List.nil_append, isVariableShaped_cons]
      constructor
      · rintro ⟨rfl | rfl, -⟩ <;> cases hd
      · rintro (h | h) <;> cases h
  | cons c s =>
    rw [hlist, ← Bool.not_eq_true, isVariableShaped_cons] at hbase
    rw [List.cons_append, isVariableShaped_cons]
    constructor
    · rintro ⟨hc, -, hs⟩
      have hnil : s = [] := Decidable.byContradiction (fun hs' =>
        hbase ⟨hc, hs', fun d hd => hs d (List.mem_append_left _ hd)⟩)
      rw [hnil]
      exact hc.imp (fun h => by rw [h]) (fun h => by rw [h])
    · rintro (h | h) <;> obtain ⟨rfl, rfl⟩ := List.cons.inj h
      · exact ⟨.inl rfl, hne, hdigits⟩
      · exact ⟨.inr rfl, hne, hdigits⟩

/-! ## Wishes -/

theorem wish_cases (n : String) :
    (∃ word, wish n = String.ofList (word ++ ['_'])) ∨
      (wish n ∉ reserved ∧ isVariableShaped (wish n).toList = false) := by
  unfold wish
  dsimp only
  split
  · exact .inl ⟨_, rfl⟩
  · rename_i hplain
    rw [Bool.or_eq_true, not_or, List.contains_iff_mem, Bool.not_eq_true] at hplain
    rw [String.toList_ofList]
    exact .inr hplain

theorem wish_not_mem_reserved (n : String) : wish n ∉ reserved := by
  rcases wish_cases n with ⟨word, hword⟩ | hplain
  · refine not_mem_reserved_of_end (c := '_') ?_ (.inr rfl)
    rw [hword, String.toList_ofList, List.getLast?_concat]
  · exact hplain.1

theorem isVariableShaped_wish (n : String) : isVariableShaped (wish n).toList = false := by
  rcases wish_cases n with ⟨word, hword⟩ | hplain
  · rw [hword, String.toList_ofList, ← Bool.not_eq_true]
    intro hshape
    cases word with
    | nil => cases hshape
    | cons c s =>
      rw [List.cons_append, isVariableShaped_cons] at hshape
      have hunderscore := hshape.2.2 '_' (List.mem_append_right _ List.mem_cons_self)
      cases hunderscore
  · exact hplain.2

end Identifier

/-! ## Tables -/

namespace Identifiers

theorem choose_free (t : Identifiers) (n : String) : t.choose n ∉ t.taken := by
  unfold choose
  dsimp only
  split
  · exact (Identifier.freeFrom_free _ _ _).1
  · assumption

/-- **No two names share an identifier**, and those given are taken. -/
structure Apart (t : Identifiers) : Prop where
  taken : ∀ n id, t.assigned.lookup n = some id → id ∈ t.taken
  unique : ∀ n n' id, t.assigned.lookup n = some id → t.assigned.lookup n' = some id → n = n'

theorem lookup_assign (t : Identifiers) (n : String) : (t.assign n).2.assigned.lookup n = some (t.assign n).1 := by
  unfold assign
  cases h : t.assigned.lookup n with
  | some id => exact h
  | none => exact List.lookup_cons_self

theorem lookup_assign_old {t : Identifiers} {k id : String} (n : String) (h : t.assigned.lookup k = some id) :
    (t.assign n).2.assigned.lookup k = some id := by
  unfold assign
  cases hn : t.assigned.lookup n with
  | some id' => exact h
  | none =>
    have hne : (k == n) = false := by
      rw [beq_eq_false_iff_ne]
      rintro rfl
      rw [hn] at h
      cases h
    rw [List.lookup_cons, hne]
    exact h

theorem Apart.assign {t : Identifiers} (h : t.Apart) (n : String) : (t.assign n).2.Apart := by
  unfold Identifiers.assign
  cases hn : t.assigned.lookup n with
  | some id => exact h
  | none =>
    dsimp only
    have hcases : ∀ k id, ((n, t.choose n) :: t.assigned).lookup k = some id →
        (k = n ∧ id = t.choose n) ∨ t.assigned.lookup k = some id := by
      intro k id hk
      rw [List.lookup_cons] at hk
      by_cases hkn : k = n
      · subst hkn
        rw [beq_self_eq_true] at hk
        exact .inl ⟨rfl, (Option.some.inj hk).symm⟩
      · rw [beq_eq_false_iff_ne.2 hkn] at hk
        exact .inr hk
    refine ⟨fun k id hk => ?_, fun k k' id hk hk' => ?_⟩
    · rcases hcases k id hk with ⟨-, rfl⟩ | hk
      · exact List.mem_cons_self
      · exact List.mem_cons_of_mem _ (h.taken k id hk)
    · rcases hcases k id hk with ⟨rfl, rfl⟩ | hold <;> rcases hcases k' _ hk' with ⟨rfl, hid⟩ | hold'
      · rfl
      · exact absurd (h.taken k' _ hold') (t.choose_free k)
      · rw [hid] at hold
        exact absurd (h.taken k _ hold) (t.choose_free k')
      · exact h.unique k k' id hold hold'

/-- **What can be asked of a table.** -/
inductive Request where
  | reserve (name : String)
  | assign (name : String)

/-- The table after a request. -/
def serve (t : Identifiers) : Request → Identifiers
  | .reserve n => t.reserve n
  | .assign n => (t.assign n).2

/-- **The table after some requests**, the first of them made of an empty one. -/
def after (requests : List Request) : Identifiers :=
  requests.foldl serve .empty

/-- Every identifier given is what its name would like to have, or that with a number. -/
def Formed (t : Identifiers) : Prop :=
  ∀ n id, t.assigned.lookup n = some id → id = Identifier.wish n ∨ ∃ k, id = Identifier.wish n ++ Decimal.nat k

theorem choose_formed (t : Identifiers) (n : String) :
    t.choose n = Identifier.wish n ∨ ∃ k, t.choose n = Identifier.wish n ++ Decimal.nat k := by
  unfold choose
  dsimp only
  split
  · obtain ⟨-, k, -, hk⟩ := Identifier.freeFrom_free (Identifier.wish n) 2 t.taken
    exact .inr ⟨k, hk⟩
  · exact .inl rfl

theorem Formed.assign {t : Identifiers} (h : t.Formed) (n : String) : (t.assign n).2.Formed := by
  unfold Identifiers.assign
  cases hn : t.assigned.lookup n with
  | some id => exact h
  | none =>
    intro k id hk
    rw [List.lookup_cons] at hk
    by_cases hkn : k = n
    · subst hkn
      rw [beq_self_eq_true] at hk
      obtain rfl := Option.some.inj hk
      exact t.choose_formed k
    · rw [beq_eq_false_iff_ne.2 hkn] at hk
      exact h k id hk

theorem Formed.serve {t : Identifiers} (h : t.Formed) (r : Request) : (t.serve r).Formed := by
  cases r with
  | reserve n => exact h
  | assign n => exact h.assign n

theorem after_formed (requests : List Request) : (after requests).Formed := by
  have hrun : ∀ (rs : List Request) (t : Identifiers), t.Formed → (rs.foldl serve t).Formed := by
    intro rs
    induction rs with
    | nil => exact fun t h => h
    | cons r rs ih => exact fun t h => ih _ (h.serve r)
  exact hrun requests .empty nofun

/-- **No identifier is reserved, and `p` and `v` with a number are the only variables among them.**  After any requests, a
name gets the shape of a variable exactly if it would like to be `p` or `v` and does not get its wish. -/
theorem assign_clashes_iff (requests : List Request) (n : String) :
    ((after requests).assign n).1 ∉ Identifier.reserved ∧
      (Identifier.isVariableShaped ((after requests).assign n).1.toList = true ↔
        (Identifier.wish n = "p" ∨ Identifier.wish n = "v") ∧ ((after requests).assign n).1 ≠ Identifier.wish n) := by
  have hwish := Identifier.isVariableShaped_wish n
  rcases (after_formed requests).assign n n _ (lookup_assign _ n) with hid | ⟨k, hid⟩ <;> rw [hid]
  · refine ⟨Identifier.wish_not_mem_reserved n, fun hshape => ?_, fun h => absurd rfl h.2⟩
    rw [hwish] at hshape
    cases hshape
  · refine ⟨Identifier.numbered_not_mem_reserved _ k, ?_⟩
    rw [Identifier.isVariableShaped_numbered hwish]
    refine ⟨fun h => ⟨h, fun hsame => ?_⟩, fun h => h.1⟩
    have hlist := congrArg String.toList hsame
    rw [String.toList_append, List.append_right_eq_self] at hlist
    exact Decimal.toList_nat_ne_nil k hlist

/-- **A second name that would like to be `p` gets the name of a parameter.** -/
theorem assign_captures_parameter :
    ((after [.assign "p"]).assign "p.").1 = "p2" ∧ Identifier.isVariableShaped "p2".toList = true := by
  refine ⟨?_, by decide⟩
  have hfirst : after [.assign "p"] = ⟨[("p", "p")], ["p"]⟩ := by decide
  rw [hfirst]
  change Identifiers.choose ⟨[("p", "p")], ["p"]⟩ "p." = "p2"
  have hwish : Identifier.wish "p." = "p" := by decide
  have hfree : "p" ++ Decimal.nat 2 ∉ ["p"] := by decide
  simp only [choose, hwish, List.mem_singleton, if_true]
  rw [Identifier.freeFrom, dif_neg hfree]
  decide

end Identifiers

end Bibstyle
