import Bibstyle.Text.Quoted
/-!
# Literals — quoted text read back

A literal is read to the quote that ends it, every escape as the character it stands for.  A written literal is read
back whole, whatever follows it.  Code in parentheses is passed over with its literals: a parenthesis in a literal opens
and closes nothing.
-/
namespace Bibstyle
namespace Text

/-! ## Reading a literal -/

/-- The character that a backslash and `c` stand for. -/
def unescape : Char → Option Char
  | '\\' => some '\\'
  | '\'' => some '\''
  | 'n' => some '\n'
  | 'r' => some '\r'
  | 't' => some '\t'
  | _ => none

/-- **Reads a literal whose first quote has been read**: its characters, and what follows it.  A literal does not run
over the end of a line. -/
def literal? : List Char → Option (List Char × List Char)
  | [] => none
  | '\'' :: r => some ([], r)
  | '\\' :: c :: r => (unescape c).bind (fun d => (literal? r).map (fun p => (d :: p.1, p.2)))
  | c :: r =>
    if c = '\\' ∨ c = '\n' ∨ c = '\r' then none else (literal? r).map (fun p => (c :: p.1, p.2))

/-- A character of a literal stands for itself or is a backslash and a character that stands for it. -/
theorem escape_cases (c : Char) :
    (∃ d, escape c = ['\\', d] ∧ unescape d = some c) ∨
      (escape c = [c] ∧ c ≠ '\'' ∧ c ≠ '\\' ∧ c ≠ '\n' ∧ c ≠ '\r') := by
  unfold escape
  split
  case h_6 hbackslash hquote hline hreturn _ => exact .inr ⟨rfl, hquote, hbackslash, hline, hreturn⟩
  all_goals exact .inl ⟨_, rfl, rfl⟩

theorem literal?_escape (c : Char) (r : List Char) :
    literal? (escape c ++ r) = (literal? r).map (fun p => (c :: p.1, p.2)) := by
  rcases escape_cases c with ⟨d, he, hd⟩ | ⟨he, hquote, hbackslash, hline, hreturn⟩
  · rw [he]
    change literal? ('\\' :: d :: r) = _
    rw [literal?, hd, Option.bind_some]
  · rw [he]
    change literal? (c :: r) = _
    rw [literal?, if_neg (by simp [hbackslash, hline, hreturn])]
    · exact hquote
    · intro d r' h
      exact absurd h hbackslash

/-- **A written literal is read back**, whatever follows it. -/
theorem literal?_quoted (s r : List Char) : literal? (s.flatMap escape ++ '\'' :: r) = some (s, r) := by
  induction s with
  | nil => rfl
  | cons c s ih => rw [List.flatMap_cons, List.append_assoc, literal?_escape, ih, Option.map_some]

/-! ## Code in parentheses -/

/-- Where a character stands: in code, in a literal, or after a backslash in a literal. -/
inductive Place where
  | code
  | literal
  | escaped

/-- **Code up to the parenthesis that closes it**, that one included, and what follows; `depth` others are open. -/
def closed? : Nat → Place → List Char → Option (List Char × List Char)
  | _, _, [] => none
  | 0, .code, ')' :: r => some ([')'], r)
  | depth + 1, .code, ')' :: r => (closed? depth .code r).map (fun p => (')' :: p.1, p.2))
  | depth, .code, '(' :: r => (closed? (depth + 1) .code r).map (fun p => ('(' :: p.1, p.2))
  | depth, .code, '\'' :: r => (closed? depth .literal r).map (fun p => ('\'' :: p.1, p.2))
  | depth, .literal, '\'' :: r => (closed? depth .code r).map (fun p => ('\'' :: p.1, p.2))
  | depth, .literal, '\\' :: r => (closed? depth .escaped r).map (fun p => ('\\' :: p.1, p.2))
  | depth, .escaped, c :: r => (closed? depth .literal r).map (fun p => (c :: p.1, p.2))
  | depth, place, c :: r => (closed? depth place r).map (fun p => (c :: p.1, p.2))

/-- **Passed over**: from one place to another at the same depth, whatever follows. -/
def Passes (place place' : Place) (t : List Char) : Prop :=
  ∀ depth r, closed? depth place (t ++ r) = (closed? depth place' r).map (fun p => (t ++ p.1, p.2))

/-- Code in which each parenthesis has its partner. -/
abbrev Balanced (t : List Char) : Prop :=
  Passes .code .code t

def isPlain (c : Char) : Bool :=
  c != '(' && c != ')' && c != '\''

/-- A class of characters without the marks is plain. -/
theorem isPlain_of_class {p : Char → Bool} (hopen : p '(' = false) (hclose : p ')' = false) (hquote : p '\'' = false) {c : Char}
    (h : p c = true) : isPlain c = true := by
  simp only [isPlain, Bool.and_eq_true, bne_iff_ne]
  refine ⟨⟨?_, ?_⟩, ?_⟩ <;> rintro rfl
  · exact absurd h (by simp [hopen])
  · exact absurd h (by simp [hclose])
  · exact absurd h (by simp [hquote])

namespace Passes

theorem nil (place : Place) : Passes place place [] := by
  intro depth r
  cases h : closed? depth place r <;> simp [h]

theorem append {place₁ place₂ place₃ : Place} {t u : List Char} (ht : Passes place₁ place₂ t) (hu : Passes place₂ place₃ u) :
    Passes place₁ place₃ (t ++ u) := by
  intro depth r
  rw [List.append_assoc, ht, hu, Option.map_map]
  simp [Function.comp_def]

/-- Code without parentheses and literals. -/
theorem of_plain {t : List Char} (h : t.all isPlain = true) : Balanced t := by
  induction t with
  | nil => exact nil .code
  | cons c t ih =>
    rw [List.all_cons, Bool.and_eq_true] at h
    refine append (t := [c]) (fun depth r => ?_) (ih h.2)
    have hc := h.1
    simp only [isPlain, Bool.and_eq_true, bne_iff_ne] at hc
    cases depth <;> simp [closed?, hc]

theorem parenthesised {t : List Char} (h : Balanced t) : Balanced ('(' :: t ++ [')']) := by
  intro depth r
  have hinside : closed? (depth + 1) .code (t ++ ')' :: r) =
      (closed? depth .code r).map (fun p => (t ++ ')' :: p.1, p.2)) := by
    rw [h, closed?, Option.map_map]
    rfl
  rw [List.cons_append, List.cons_append, List.append_assoc, List.singleton_append]
  simp only [closed?, hinside, Option.map_map, Function.comp_def, List.cons_append, List.append_assoc, List.nil_append]

theorem escape (c : Char) : Passes .literal .literal (escape c) := by
  intro depth r
  rcases escape_cases c with ⟨d, he, -⟩ | ⟨he, hquote, hbackslash, -⟩
  · simp [he, closed?, Function.comp_def]
  · simp [he, closed?, hquote, hbackslash]

/-- **A literal is passed over**, whatever stands in it. -/
theorem quoteChars (s : List Char) : Balanced (quoteChars s) := by
  have hopening : Passes .code .literal ['\''] := fun depth r => by cases depth <;> simp [closed?]
  have hclosing : Passes .literal .code ['\''] := fun depth r => by simp [closed?]
  have hinside : Passes .literal .literal (s.flatMap Text.escape) := by
    induction s with
    | nil => exact nil .literal
    | cons c s ih => exact (escape c).append ih
  exact (hopening.append hinside).append hclosing

end Passes

/-- **Balanced code ends at the first parenthesis that follows it.** -/
theorem closed?_balanced {t : List Char} (h : Balanced t) (r : List Char) :
    closed? 0 .code (t ++ ')' :: r) = some (t ++ [')'], r) := by
  rw [h, closed?, Option.map_some]

end Text
end Bibstyle
