import Mathlib.Data.List.Chain
import Bibstyle.Proofs.Identifiers
import Bibstyle.Source.Scan
/-!
# Spelling — names and numbers as they are written

A name is made of any characters but blanks and the six marks, and it is kept in lower case.  Lower case is reached in one
step: the small form of a capital is no capital again, and it is no blank, no mark and no digit.  So a name in lower case
stays what it is when it is written and read once more, and lower case makes no number of what was none.  A number is a
sign or none and then digits; every word of 32 bits is read from its own text.
-/
namespace Bibstyle

/-! ## Characters -/

namespace Source

/-- **A character of a name**: neither a blank nor a mark. -/
def IsNameChar (c : Char) : Prop :=
  Text.isBlank c = false ∧ c ∉ marks

theorem isNameChar_iff {c : Char} : isNameChar c = true ↔ IsNameChar c := by
  simp [isNameChar, IsNameChar]

end Source

/-! ## Lower case -/

namespace Text

/-- **A character in lower case**: itself its lower-case form, no blank, and in ASCII a letter. -/
structure IsSmall (c : Char) : Prop where
  fixed : lowerChar c = [c]
  plain : isBlank c = false
  letter : c.toNat < 0x80 → 0x61 ≤ c.toNat ∧ c.toNat ≤ 0x7A

namespace CaseRun

/-- The small form of a capital of a run. -/
def small (r : CaseRun) (n : Nat) : Nat :=
  (n + r.shift).toNat

/-- Whether runs that stand in order have no capital between two numbers, or none at every second one of them. -/
def clears (lo hi : Nat) (alternate : Bool) : List CaseRun → Bool
  | [] => true
  | q :: qs =>
    bif Nat.ble lo q.last then
      bif Nat.ble q.first hi then
        (alternate && q.step == 2 && (lo - q.first) % 2 == 1) && clears lo hi alternate qs
      else true
    else clears lo hi alternate qs

/-- **Whether the small forms of a run are characters in lower case**, by the range they lie in. -/
def settles (r : CaseRun) : Bool :=
  decide (0 ≤ r.first + r.shift) &&
    (r.small r.last < 0xD800 || (0xE000 ≤ r.small r.first && r.small r.last < 0x110000)) &&
    ((0x80 ≤ r.small r.first && (r.small r.last < 0x130 || 0x130 < r.small r.first)) ||
      (0x61 ≤ r.small r.first && r.small r.last ≤ 0x7A)) &&
    wideBlanks.all (fun b => r.small r.last < b || b < r.small r.first) &&
    clears (r.small r.first) (r.small r.last) (r.step == 2 || r.first == r.last) caseRuns

theorem holds_iff {r : CaseRun} {n : Nat} :
    r.holds n = true ↔ r.first ≤ n ∧ n ≤ r.last ∧ (n - r.first) % r.step = 0 := by
  simp [holds, and_assoc]

/-- Where small forms lie: in the range of the run's small forms, and at every second number if the capitals do. -/
theorem small_range {r : CaseRun} (hr : 0 ≤ r.first + r.shift) {n : Nat} (h : r.holds n = true) :
    r.small r.first ≤ r.small n ∧ r.small n ≤ r.small r.last ∧
      ((r.step == 2 || r.first == r.last) = true → (r.small n - r.small r.first) % 2 = 0) := by
  rw [holds_iff] at h
  obtain ⟨hfirst, hlast, hstep⟩ := h
  refine ⟨by unfold small; omega, by unfold small; omega, fun halt => ?_⟩
  have hdiff : r.small n - r.small r.first = n - r.first := by unfold small; omega
  rw [hdiff]
  rw [Bool.or_eq_true, beq_iff_eq, beq_iff_eq] at halt
  obtain htwo | hone := halt
  · rw [htwo] at hstep
    exact hstep
  · have hzero : n - r.first = 0 := by omega
    rw [hzero]

/-- Where capitals stand at every second number, none stands at the others. -/
theorem not_holds_of_odd {q : CaseRun} {lo t : Nat} (htwo : q.step = 2) (hodd : (lo - q.first) % 2 = 1) (hlo : lo ≤ t)
    (heven : (t - lo) % 2 = 0) : ¬ q.holds t = true := by
  intro hholds
  obtain ⟨hfirst, -, hstep⟩ := holds_iff.1 hholds
  rw [htwo] at hstep
  omega

/-- Runs that begin above a range need not be looked at, because they stand in order. -/
theorem not_holds_of_clears {lo hi t : Nat} {alternate : Bool} (hlo : lo ≤ t) (hhi : t ≤ hi)
    (halt : alternate = true → (t - lo) % 2 = 0) : ∀ {runs : List CaseRun}, (runs.map (·.first)).Pairwise (· < ·) →
      clears lo hi alternate runs = true → ∀ q ∈ runs, ¬ q.holds t = true
  | [], _, _ => List.forall_mem_nil _
  | q :: qs, hsorted, h => by
    rw [List.map_cons, List.pairwise_cons] at hsorted
    by_cases hlast : lo ≤ q.last
    · by_cases hfirst : q.first ≤ hi
      · simp only [clears, Nat.ble_eq_true_of_le hlast, Nat.ble_eq_true_of_le hfirst, cond_true, Bool.and_eq_true,
          beq_iff_eq] at h
        obtain ⟨⟨⟨halternate, htwo⟩, hodd⟩, hqs⟩ := h
        have hq := not_holds_of_odd htwo hodd hlo (halt halternate)
        exact List.forall_mem_cons.2 ⟨hq, not_holds_of_clears hlo hhi halt hsorted.2 hqs⟩
      · intro q' hq' hholds
        have hbelow := (holds_iff.1 hholds).1
        obtain rfl | hmem := List.mem_cons.1 hq'
        · omega
        · have hlater := hsorted.1 q'.first (List.mem_map.2 ⟨q', hmem, rfl⟩)
          omega
    · have hble : Nat.ble lo q.last = false := by
        rw [← Bool.not_eq_true, Nat.ble_eq]
        exact hlast
      rw [clears, hble, cond_false] at h
      refine List.forall_mem_cons.2 ⟨fun hholds => ?_, not_holds_of_clears hlo hhi halt hsorted.2 h⟩
      have hbelow := (holds_iff.1 hholds).2.1
      omega

end CaseRun

theorem caseRuns_sorted : (caseRuns.map (·.first)).Pairwise (· < ·) := by
  apply List.isChain_iff_pairwise.1
  decide +kernel

theorem caseRuns_settle : caseRuns.all CaseRun.settles = true := by
  decide +kernel

theorem toNat_ofNat {n : Nat} (h : n.isValidChar) : (Char.ofNat n).toNat = n := by
  rw [Char.ofNat, dif_pos h]
  rfl

/-- What holds of the first 128 numbers holds of the characters of ASCII. -/
theorem of_ascii {P : Char → Prop} (h : ∀ n < 0x80, P (Char.ofNat n)) {c : Char} (hc : c.toNat < 0x80) : P c := by
  have hone := h c.toNat hc
  rwa [Char.ofNat_toNat] at hone

theorem lowerChar_ascii {c : Char} (h : c.toNat < 0x80) :
    lowerChar c = [if 0x41 ≤ c.toNat ∧ c.toNat ≤ 0x5A then Char.ofNat (c.toNat + 0x20) else c] :=
  of_ascii (P := fun c => lowerChar c = [if 0x41 ≤ c.toNat ∧ c.toNat ≤ 0x5A then Char.ofNat (c.toNat + 0x20) else c])
    (by decide) h

/-- In ASCII, only the blank and five controls are blanks. -/
theorem isBlank_ascii {c : Char} (h : c.toNat < 0x80) (hc : 0x20 < c.toNat) : isBlank c = false :=
  of_ascii (P := fun c => 0x20 < c.toNat → isBlank c = false) (by decide) h hc

theorem isSmall_of_letter {c : Char} (h : 0x61 ≤ c.toNat ∧ c.toNat ≤ 0x7A) : IsSmall c where
  fixed := by rw [lowerChar_ascii (by omega), if_neg (by omega)]
  plain := isBlank_ascii (by omega) (by omega)
  letter _ := h

/-- **Every small form in the table is in lower case.** -/
theorem isSmall_of_holds {r : CaseRun} (hr : r ∈ caseRuns) {n : Nat} (h : r.holds n = true) :
    IsSmall (Char.ofNat (r.small n)) := by
  have hsettles := List.all_eq_true.1 caseRuns_settle r hr
  simp only [CaseRun.settles, Bool.and_eq_true, Bool.or_eq_true, decide_eq_true_eq, List.all_eq_true] at hsettles
  obtain ⟨⟨⟨⟨hpos, hvalid⟩, hascii⟩, hblanks⟩, hclears⟩ := hsettles
  obtain ⟨hlo, hhi, halt⟩ := CaseRun.small_range hpos h
  have htoNat : (Char.ofNat (r.small n)).toNat = r.small n := by
    apply toNat_ofNat
    unfold Nat.isValidChar
    omega
  by_cases hletter : r.small n < 0x80
  · apply isSmall_of_letter
    rw [htoNat]
    omega
  have hwide : wideBlanks.contains (r.small n) = false := by
    apply Bool.eq_false_iff.2
    intro hmem
    have hblank := hblanks _ (List.contains_iff_mem.1 hmem)
    omega
  have hnone : caseRuns.find? (fun q => q.holds (r.small n)) = none := by
    rw [List.find?_eq_none]
    exact CaseRun.not_holds_of_clears hlo hhi halt caseRuns_sorted hclears
  have hdotted : r.small n ≠ 0x130 := by omega
  constructor
  · unfold lowerChar
    rw [htoNat, if_neg hletter, if_neg hdotted, hnone]
  · unfold isBlank
    rw [htoNat, if_neg hletter, hwide]
  · rw [htoNat]
    exact fun hlt => absurd hlt hletter

/-- **A character stays as it is, or it becomes characters in lower case.** -/
theorem lowerChar_cases (c : Char) : lowerChar c = [c] ∨ lowerChar c ≠ [] ∧ ∀ x ∈ lowerChar c, IsSmall x := by
  by_cases hascii : c.toNat < 0x80
  · rw [lowerChar_ascii hascii]
    by_cases hupper : 0x41 ≤ c.toNat ∧ c.toNat ≤ 0x5A
    · rw [if_pos hupper]
      refine .inr ⟨List.cons_ne_nil _ _, List.forall_mem_singleton.2 (isSmall_of_letter ?_)⟩
      rw [toNat_ofNat (Or.inl (by omega))]
      omega
    · rw [if_neg hupper]
      exact .inl rfl
  by_cases hdotted : c.toNat = 0x130
  · have hlower : lowerChar c = ['i', Char.ofNat 0x307] := by
      unfold lowerChar
      rw [if_neg hascii, if_pos hdotted]
    rw [hlower]
    refine .inr ⟨List.cons_ne_nil _ _, List.forall_mem_cons.2 ⟨⟨by decide, by decide, by decide⟩, ?_⟩⟩
    exact List.forall_mem_singleton.2 ⟨by decide, by decide, by decide⟩
  cases hfind : caseRuns.find? (fun r => r.holds c.toNat) with
  | none =>
    left
    unfold lowerChar
    rw [if_neg hascii, if_neg hdotted, hfind]
  | some r =>
    have hlower : lowerChar c = [Char.ofNat (r.small c.toNat)] := by
      unfold lowerChar
      rw [if_neg hascii, if_neg hdotted, hfind]
      rfl
    rw [hlower]
    have hholds : r.holds c.toNat = true := List.find?_some (p := fun r : CaseRun => r.holds c.toNat) hfind
    have hsmall := isSmall_of_holds (List.mem_of_find?_eq_some hfind) hholds
    exact .inr ⟨List.cons_ne_nil _ _, List.forall_mem_singleton.2 hsmall⟩

theorem lower_cons (c : Char) (s : List Char) : lower (c :: s) = lowerChar c ++ lower s :=
  List.flatMap_cons

theorem lower_append (s t : List Char) : lower (s ++ t) = lower s ++ lower t :=
  List.flatMap_append

/-- **A name is lower-cased one character at a time**, and of the ASCII characters only the letters `A` to `Z` change. -/
theorem lower_ascii : ∀ {s : List Char}, (∀ c ∈ s, c.toNat < 0x80) →
    lower s = s.map (fun c => if 0x41 ≤ c.toNat ∧ c.toNat ≤ 0x5A then Char.ofNat (c.toNat + 0x20) else c)
  | [], _ => rfl
  | c :: s, h => by
    rw [List.forall_mem_cons] at h
    rw [lower_cons, lowerChar_ascii h.1, lower_ascii h.2, List.singleton_append, List.map_cons]

theorem lower_eq_self : ∀ {s : List Char}, (∀ c ∈ s, lowerChar c = [c]) → lower s = s
  | [], _ => rfl
  | c :: s, h => by
    rw [List.forall_mem_cons] at h
    rw [lower_cons, h.1, lower_eq_self h.2, List.singleton_append]

theorem lower_lowerChar (c : Char) : lower (lowerChar c) = lowerChar c := by
  obtain hsame | ⟨-, hsmall⟩ := lowerChar_cases c
  · rw [hsame, lower_cons, hsame]
    rfl
  · exact lower_eq_self (fun x hx => (hsmall x hx).fixed)

/-- **Lower case is reached in one step.** -/
theorem lower_lower : ∀ s : List Char, lower (lower s) = lower s
  | [] => rfl
  | c :: s => by rw [lower_cons, lower_append, lower_lowerChar, lower_lower s]

theorem lower_ne_nil {s : List Char} (h : s ≠ []) : lower s ≠ [] := by
  obtain ⟨c, t, rfl⟩ := List.exists_cons_of_ne_nil h
  rw [lower_cons]
  intro hnil
  have hempty : lowerChar c = [] := (List.append_eq_nil_iff.1 hnil).1
  obtain hsame | ⟨hne, -⟩ := lowerChar_cases c
  · rw [hsame] at hempty
    cases hempty
  · exact hne hempty

theorem IsSmall.isNameChar {c : Char} (h : IsSmall c) : Source.IsNameChar c := by
  have hmarks : Source.marks.all (fun d => d.toNat < 0x80 ∧ ¬ (0x61 ≤ d.toNat ∧ d.toNat ≤ 0x7A)) = true := by decide
  refine ⟨h.plain, fun hmem => ?_⟩
  obtain ⟨hascii, hletter⟩ := of_decide_eq_true (List.all_eq_true.1 hmarks c hmem)
  exact hletter (h.letter hascii)

/-- **Lower case keeps a name a name.** -/
theorem isNameChar_lower {s : List Char} (h : ∀ c ∈ s, Source.IsNameChar c) : ∀ x ∈ lower s, Source.IsNameChar x := by
  intro x hx
  obtain ⟨c, hc, hxc⟩ := List.mem_flatMap.1 hx
  obtain hsame | ⟨-, hsmall⟩ := lowerChar_cases c
  · rw [hsame, List.mem_singleton] at hxc
    rw [hxc]
    exact h c hc
  · exact (hsmall x hxc).isNameChar

end Text

/-! ## Numbers -/

namespace Decimal

/-- A character that can be part of a number. -/
def IsNumeric (c : Char) : Prop :=
  c.isDigit = true ∨ c = '+' ∨ c = '-'

/-- **A word of 32 bits as it is spelt**: digits after a sign or none. -/
inductive Spells : List Char → Int32 → Prop where
  | plain {ds : List Char} {n : Int32} (hne : ds ≠ []) (hds : ∀ c ∈ ds, c.isDigit = true)
    (hn : n.toInt = Nat.ofDigitChars 10 ds 0) : Spells ds n
  | plus {ds : List Char} {n : Int32} (hne : ds ≠ []) (hds : ∀ c ∈ ds, c.isDigit = true)
    (hn : n.toInt = Nat.ofDigitChars 10 ds 0) : Spells ('+' :: ds) n
  | minus {ds : List Char} {n : Int32} (hne : ds ≠ []) (hds : ∀ c ∈ ds, c.isDigit = true)
    (hn : n.toInt = -Nat.ofDigitChars 10 ds 0) : Spells ('-' :: ds) n

theorem isDigit_eq (c : Char) : isDigit c = c.isDigit := by
  rw [Bool.eq_iff_iff, Char.isDigit_iff_toNat]
  simp [isDigit]

theorem digits?_eq_some_iff {ds : List Char} {k : Nat} :
    digits? ds = some k ↔ ds ≠ [] ∧ (∀ c ∈ ds, c.isDigit = true) ∧ Nat.ofDigitChars 10 ds 0 = k := by
  have hvalue : ds.foldl (fun n c => n * 10 + (c.toNat - 0x30)) 0 = Nat.ofDigitChars 10 ds 0 := by
    unfold Nat.ofDigitChars
    congr
    funext n c
    rw [Nat.mul_comm]
    rfl
  have hdigits : ds.all isDigit = true ↔ ∀ c ∈ ds, c.isDigit = true := by simp [isDigit_eq]
  unfold digits?
  rw [hvalue, ← hdigits]
  cases ds <;> simp

theorem word?_eq_some_iff {i : Int} {n : Int32} : word? i = some n ↔ n.toInt = i := by
  have hlo := n.le_toInt
  have hhi := n.toInt_lt
  unfold word?
  split
  · rw [Option.some.injEq]
    constructor
    · rintro rfl
      exact Int32.toInt_ofInt_of_le (by omega) (by omega)
    · rintro rfl
      exact n.ofInt_toInt
  · constructor
    · exact nofun
    · omega

/-- **Reading a word reads what is spelt.** -/
theorem read?_eq_some_iff {s : List Char} {n : Int32} : read? s = some n ↔ Spells s n := by
  have hbind : ∀ (ds : List Char) (f : Nat → Int), (digits? ds).bind (fun k => word? (f k)) = some n ↔
      ds ≠ [] ∧ (∀ c ∈ ds, c.isDigit = true) ∧ n.toInt = f (Nat.ofDigitChars 10 ds 0) := by
    intro ds f
    simp only [Option.bind_eq_some_iff, digits?_eq_some_iff, word?_eq_some_iff]
    constructor
    · rintro ⟨k, ⟨hne, hds, rfl⟩, hn⟩
      exact ⟨hne, hds, hn⟩
    · rintro ⟨hne, hds, hn⟩
      exact ⟨_, ⟨hne, hds, rfl⟩, hn⟩
  constructor
  · intro h
    unfold read? at h
    split at h
    · obtain ⟨hne, hds, hn⟩ := (hbind _ (fun k => k)).1 h
      exact .plus hne hds hn
    · obtain ⟨hne, hds, hn⟩ := (hbind _ (fun k => -k)).1 h
      exact .minus hne hds hn
    · obtain ⟨hne, hds, hn⟩ := (hbind _ (fun k => k)).1 h
      exact .plain hne hds hn
  · intro h
    cases h with
    | plus hne hds hn => exact (hbind _ (fun k => k)).2 ⟨hne, hds, hn⟩
    | minus hne hds hn => exact (hbind _ (fun k => -k)).2 ⟨hne, hds, hn⟩
    | plain hne hds hn =>
      -- digits alone do not begin with a sign
      unfold read?
      split
      · exact absurd (hds '+' List.mem_cons_self) (by decide)
      · exact absurd (hds '-' List.mem_cons_self) (by decide)
      · exact (hbind _ (fun k => k)).2 ⟨hne, hds, hn⟩

theorem Spells.ne_nil {s : List Char} {n : Int32} (h : Spells s n) : s ≠ [] := by
  cases h with
  | plain hne => exact hne
  | plus | minus => exact List.cons_ne_nil _ _

theorem Spells.isNumeric {s : List Char} {n : Int32} (h : Spells s n) : ∀ c ∈ s, IsNumeric c := by
  cases h with
  | plain _ hds => exact fun c hc => .inl (hds c hc)
  | plus _ hds => exact List.forall_mem_cons.2 ⟨.inr (.inl rfl), fun c hc => .inl (hds c hc)⟩
  | minus _ hds => exact List.forall_mem_cons.2 ⟨.inr (.inr rfl), fun c hc => .inl (hds c hc)⟩

/-- **Every word is spelt by its text.** -/
theorem spells_text (n : Int32) : Spells (text n).toList n := by
  have hnat : ∀ k : Nat, Nat.ofDigitChars 10 (nat k).toList 0 = k := by
    intro k
    rw [toList_nat, Nat.ofDigitChars_ten_toDigits]
  unfold text
  split
  · rename_i k hk
    exact .plain (toList_nat_ne_nil k) (isDigit_nat k) (by rw [hnat, hk]; rfl)
  · rename_i k hk
    rw [String.toList_append]
    have hminus : n.toInt = -Nat.ofDigitChars 10 (nat (k + 1)).toList 0 := by rw [hnat, hk]; rfl
    exact .minus (toList_nat_ne_nil _) (isDigit_nat _) hminus

theorem IsNumeric.toNat {c : Char} (h : IsNumeric c) : c.toNat = 0x2B ∨ c.toNat = 0x2D ∨ 0x30 ≤ c.toNat ∧ c.toNat ≤ 0x39 := by
  obtain h | rfl | rfl := h
  · exact .inr (.inr (Char.isDigit_iff_toNat.1 h))
  · exact .inl rfl
  · exact .inr (.inl rfl)

theorem IsNumeric.isNameChar {c : Char} (h : IsNumeric c) : Source.IsNameChar c := by
  have hmarks : Source.marks.all (fun d => d.toNat ≠ 0x2B ∧ d.toNat ≠ 0x2D ∧ ¬ (0x30 ≤ d.toNat ∧ d.toNat ≤ 0x39)) = true := by
    decide
  have hc := h.toNat
  refine ⟨Text.isBlank_ascii (by omega) (by omega), fun hmem => ?_⟩
  obtain ⟨h₁, h₂, h₃⟩ := of_decide_eq_true (List.all_eq_true.1 hmarks c hmem)
  omega

/-- **Lower case makes no number**: what it leaves as a number was that number before. -/
theorem spells_lower_iff {s : List Char} {n : Int32} : Spells (Text.lower s) n ↔ Spells s n := by
  constructor
  · intro h
    have hsame : ∀ c ∈ s, Text.lowerChar c = [c] := by
      intro c hc
      obtain hsame | ⟨hne, hsmall⟩ := Text.lowerChar_cases c
      · exact hsame
      · obtain ⟨x, hx⟩ := List.exists_mem_of_ne_nil _ hne
        have hnumeric := (h.isNumeric x (List.mem_flatMap.2 ⟨c, hc, hx⟩)).toNat
        have hletter := (hsmall x hx).letter (by omega)
        omega
    rwa [Text.lower_eq_self hsame] at h
  · intro h
    have hsame : ∀ c ∈ s, Text.lowerChar c = [c] := by
      intro c hc
      have hnumeric := (h.isNumeric c hc).toNat
      rw [Text.lowerChar_ascii (by omega), if_neg (by omega)]
    rwa [Text.lower_eq_self hsame]

end Decimal
end Bibstyle
