import Bibstyle.Proofs.Layout
import Bibstyle.Proofs.Naming
import Bibstyle.Session.Script
/-!
# Quotation — no string closes its literal

What a literal is, is said here without the writer and without the reader: a quote, characters and escapes, a quote.  A
text has at most one literal at its start, because the first quote that no backslash takes with it ends the literal.  So
whoever reads a written literal finds the string that was written and stops at its end, whatever follows; and in code
that holds literals, the strings are found one by one.
-/
namespace Bibstyle
namespace Text

/-! ## What a literal is -/

/-- **What stands between the quotes of a literal, and what it stands for.**  A backslash takes the next character with
it. -/
inductive Spelling : List Char → List Char → Prop where
  | nil : Spelling [] []
  | escaped {c d : Char} {t v : List Char} (hd : unescape d = some c) (h : Spelling t v) : Spelling ('\\' :: d :: t) (c :: v)
  | plain {c : Char} {t v : List Char} (hquote : c ≠ '\'') (hbackslash : c ≠ '\\') (h : Spelling t v) :
    Spelling (c :: t) (c :: v)

/-- **A literal and the string it stands for.** -/
inductive Literal : List Char → List Char → Prop where
  | mk {t v : List Char} (h : Spelling t v) : Literal ('\'' :: (t ++ ['\''])) v

/-- **The first quote that stands for itself ends a literal**: there is one place where it can end, and one string that it
can stand for. -/
theorem Spelling.ends_once {t v : List Char} (h : Spelling t v) : ∀ {t' v' r r' : List Char}, Spelling t' v' →
    t ++ '\'' :: r = t' ++ '\'' :: r' → t = t' ∧ v = v' ∧ r = r' := by
  -- the two begin with the same character, so the other spelling takes the same step
  induction h with
  | nil =>
    intro t' v' r r' h' heq
    cases h' with
    | nil => exact ⟨rfl, rfl, List.tail_eq_of_cons_eq heq⟩
    | escaped hd h' => exact absurd (List.head_eq_of_cons_eq heq) (by decide)
    | plain hquote hbackslash h' => exact absurd (List.head_eq_of_cons_eq heq).symm hquote
  | escaped hd h ih =>
    intro t' v' r r' h' heq
    cases h' with
    | nil => exact absurd (List.head_eq_of_cons_eq heq) (by decide)
    | escaped hd' h' =>
      obtain ⟨rfl, htail⟩ := List.cons_eq_cons.1 (List.tail_eq_of_cons_eq heq)
      obtain ⟨rfl, rfl, rfl⟩ := ih h' htail
      obtain rfl := Option.some.inj (hd.symm.trans hd')
      exact ⟨rfl, rfl, rfl⟩
    | plain hquote hbackslash h' => exact absurd (List.head_eq_of_cons_eq heq).symm hbackslash
  | plain hquote hbackslash h ih =>
    intro t' v' r r' h' heq
    cases h' with
    | nil => exact absurd (List.head_eq_of_cons_eq heq) hquote
    | escaped hd h' => exact absurd (List.head_eq_of_cons_eq heq) hbackslash
    | plain hquote' hbackslash' h' =>
      obtain ⟨rfl, htail⟩ := List.cons_eq_cons.1 heq
      obtain ⟨rfl, rfl, rfl⟩ := ih h' htail
      exact ⟨rfl, rfl, rfl⟩

theorem Literal.ends_once {lit lit' v v' r r' : List Char} (h : Literal lit v) (h' : Literal lit' v')
    (heq : lit ++ r = lit' ++ r') : lit = lit' ∧ v = v' ∧ r = r' := by
  obtain ⟨h⟩ := h
  obtain ⟨h'⟩ := h'
  obtain ⟨rfl, rfl, rfl⟩ := h.ends_once h' (by simpa using heq)
  exact ⟨rfl, rfl, rfl⟩

/-! ## The reader -/

/-- **Reads a literal**: the string it stands for, and what follows it. -/
def scan? : List Char → Option (List Char × List Char)
  | '\'' :: r => literal? r
  | _ => none

/-- Text in which no line ends. -/
def Unbroken (t : List Char) : Prop :=
  ∀ c ∈ t, Phrase.endsLine c = false

theorem unbroken_cons {c : Char} {t : List Char} : Unbroken (c :: t) ↔ Phrase.endsLine c = false ∧ Unbroken t :=
  List.forall_mem_cons

theorem endsLine_eq_false_iff {c : Char} : Phrase.endsLine c = false ↔ c ≠ '\n' ∧ c ≠ '\r' := by
  rw [Phrase.endsLine, Bool.or_eq_false_iff, beq_eq_false_iff_ne, beq_eq_false_iff_ne]

/-- No escape is the end of a line. -/
theorem not_endsLine_of_unescape {c d : Char} (h : unescape d = some c) : Phrase.endsLine d = false := by
  rw [endsLine_eq_false_iff]
  constructor <;> (rintro rfl; cases h)

theorem spelling_of_literal? {t v r : List Char} (h : literal? t = some (v, r)) :
    ∃ body, t = body ++ '\'' :: r ∧ Spelling body v ∧ Unbroken body := by
  fun_induction literal? t generalizing v with
  | case1 => cases h
  | case2 r' =>
    cases h
    exact ⟨[], rfl, .nil, List.forall_mem_nil _⟩
  | case3 d r' ih =>
    obtain ⟨c, hd, h⟩ := Option.bind_eq_some_iff.1 h
    obtain ⟨p, hp, heq⟩ := Option.map_eq_some_iff.1 h
    cases heq
    obtain ⟨body, rfl, hbody, hline⟩ := ih hp
    have hescape := unbroken_cons.2 ⟨not_endsLine_of_unescape hd, hline⟩
    exact ⟨'\\' :: d :: body, rfl, .escaped hd hbody, unbroken_cons.2 ⟨by decide, hescape⟩⟩
  | case4 => cases h
  | case5 c r' hquote hlone hc ih =>
    obtain ⟨p, hp, heq⟩ := Option.map_eq_some_iff.1 h
    cases heq
    obtain ⟨body, rfl, hbody, hline⟩ := ih hp
    rw [not_or, not_or] at hc
    exact ⟨c :: body, rfl, .plain hquote hc.1 hbody, unbroken_cons.2 ⟨endsLine_eq_false_iff.2 hc.2, hline⟩⟩

theorem Spelling.literal?_eq {t v : List Char} (h : Spelling t v) (hline : Unbroken t) (r : List Char) :
    literal? (t ++ '\'' :: r) = some (v, r) := by
  induction h with
  | nil => rfl
  | @escaped c d t v hd h ih =>
    rw [unbroken_cons, unbroken_cons] at hline
    change literal? ('\\' :: d :: (t ++ '\'' :: r)) = _
    rw [literal?, hd, Option.bind_some, ih hline.2.2]
    rfl
  | @plain c t v hquote hbackslash h ih =>
    rw [unbroken_cons, endsLine_eq_false_iff] at hline
    change literal? (c :: (t ++ '\'' :: r)) = _
    rw [literal?, if_neg (by simp [hbackslash, hline.1]), ih hline.2]
    · rfl
    · exact hquote
    · intro d r' h
      exact absurd h hbackslash

/-- **The reader reads the literals that stand on one line**, and nothing else. -/
theorem scan?_eq_some_iff {t v r : List Char} :
    scan? t = some (v, r) ↔ ∃ lit, t = lit ++ r ∧ Literal lit v ∧ Unbroken lit := by
  constructor
  · intro h
    unfold scan? at h
    split at h
    · obtain ⟨body, rfl, hbody, hline⟩ := spelling_of_literal? h
      refine ⟨'\'' :: (body ++ ['\'']), by simp, ⟨hbody⟩, unbroken_cons.2 ⟨by decide, ?_⟩⟩
      exact List.forall_mem_append.2 ⟨hline, List.forall_mem_singleton.2 (by decide)⟩
    · cases h
  · rintro ⟨lit, rfl, ⟨h⟩, hline⟩
    have hbody := (List.forall_mem_append.1 (unbroken_cons.1 hline).2).1
    rw [List.cons_append, List.append_assoc]
    exact h.literal?_eq hbody r

/-! ## The writer -/

theorem spelling_escape (c : Char) {t v : List Char} (h : Spelling t v) : Spelling (escape c ++ t) (c :: v) := by
  rcases escape_cases c with ⟨d, he, hd⟩ | ⟨he, hquote, hbackslash, -⟩
  · rw [he]
    exact .escaped hd h
  · rw [he]
    exact .plain hquote hbackslash h

theorem unbroken_escape (c : Char) : Unbroken (escape c) := by
  rcases escape_cases c with ⟨d, he, hd⟩ | ⟨he, -, -, hline⟩
  · rw [he]
    exact unbroken_cons.2 ⟨by decide, unbroken_cons.2 ⟨not_endsLine_of_unescape hd, List.forall_mem_nil _⟩⟩
  · rw [he]
    exact unbroken_cons.2 ⟨endsLine_eq_false_iff.2 hline, List.forall_mem_nil _⟩

/-- **What is written is a literal** for the string, on one line. -/
theorem literal_quote (s : String) : Literal (quote s).toList s.toList ∧ Unbroken (quote s).toList := by
  have hspelling : Spelling (s.toList.flatMap escape) s.toList := by
    induction s.toList with
    | nil => exact .nil
    | cons c t ih => exact spelling_escape c ih
  have hline : Unbroken (s.toList.flatMap escape) := by
    intro c hc
    obtain ⟨d, -, hd⟩ := List.mem_flatMap.1 hc
    exact unbroken_escape d c hd
  rw [quote, String.toList_ofList, quoteChars, List.cons_append]
  refine ⟨⟨hspelling⟩, unbroken_cons.2 ⟨by decide, List.forall_mem_append.2 ⟨hline, ?_⟩⟩⟩
  exact List.forall_mem_singleton.2 (by decide)

/-! ## Literals in code -/

/-- **Code and the strings of its literals**, in order; no quote stands outside of a literal. -/
inductive Holds : List Char → List String → Prop where
  | nil : Holds [] []
  | code {c : Char} {t : List Char} {vs : List String} (hc : c ≠ '\'') (h : Holds t vs) : Holds (c :: t) vs
  | literal {lit t : List Char} {v : String} {vs : List String} (hlit : Literal lit v.toList) (h : Holds t vs) :
    Holds (lit ++ t) (v :: vs)

theorem Literal.ne_nil {lit v : List Char} (h : Literal lit v) : lit ≠ [] := by
  obtain ⟨h⟩ := h
  exact List.cons_ne_nil _ _

theorem Literal.head {c : Char} {t lit v r : List Char} (h : Literal lit v) (heq : c :: t = lit ++ r) : c = '\'' := by
  obtain ⟨h⟩ := h
  exact List.head_eq_of_cons_eq heq

theorem holds_nil_iff {vs : List String} : Holds [] vs ↔ vs = [] := by
  constructor
  · intro h
    generalize ht : ([] : List Char) = t at h
    cases h with
    | nil => rfl
    | code hc h => cases ht
    | literal hlit h => exact absurd (List.append_eq_nil_iff.1 ht.symm).1 hlit.ne_nil
  · rintro rfl
    exact .nil

theorem holds_cons_iff {c : Char} {t : List Char} {vs : List String} (hc : c ≠ '\'') : Holds (c :: t) vs ↔ Holds t vs := by
  constructor
  · intro h
    generalize ht : c :: t = u at h
    cases h with
    | nil => cases ht
    | code _ h =>
      obtain ⟨-, rfl⟩ := List.cons_eq_cons.1 ht
      exact h
    | literal hlit h => exact absurd (hlit.head ht) hc
  · exact .code hc

/-- **Text that gives strings to the code it stands in**: whatever follows it gives the others. -/
def Gives (t : List Char) (vs : List String) : Prop :=
  ∀ r ws, Holds (t ++ r) ws ↔ ∃ ws', ws = vs ++ ws' ∧ Holds r ws'

theorem Literal.gives {lit : List Char} {v : String} (hlit : Literal lit v.toList) : Gives lit [v] := by
  intro r ws
  constructor
  · intro h
    generalize ht : lit ++ r = u at h
    cases h with
    | nil => exact absurd (List.append_eq_nil_iff.1 ht).1 hlit.ne_nil
    | code hc h => exact absurd (hlit.head ht.symm) hc
    | literal hlit' h =>
      obtain ⟨-, hv, rfl⟩ := hlit.ends_once hlit' ht
      rw [String.toList_inj.1 hv]
      exact ⟨_, rfl, h⟩
  · rintro ⟨ws', rfl, h⟩
    exact .literal hlit h

namespace Gives

variable {t u : List Char} {vs ws : List String}

theorem code (h : ∀ c ∈ t, c ≠ '\'') : Gives t [] := by
  intro r ws
  simp only [List.nil_append, exists_eq_left']
  induction t with
  | nil => rfl
  | cons c t ih =>
    rw [List.forall_mem_cons] at h
    rw [List.cons_append, holds_cons_iff h.1, ih h.2]

theorem append (ht : Gives t vs) (hu : Gives u ws) : Gives (t ++ u) (vs ++ ws) := by
  intro r xs
  rw [List.append_assoc, ht]
  simp only [hu r, List.append_assoc]
  constructor
  · rintro ⟨_, rfl, ws', rfl, h⟩
    exact ⟨ws', rfl, h⟩
  · rintro ⟨ws', rfl, h⟩
    exact ⟨_, rfl, ws', rfl, h⟩

/-- **Code that gives strings holds them**, and no others. -/
theorem holds_iff (h : Gives t vs) : Holds t ws ↔ ws = vs := by
  have hall := h [] ws
  rw [List.append_nil] at hall
  simp [hall, holds_nil_iff]

end Gives

/-! ## Written code -/

/-- What stands in code outside of literals: no quote, and no end of a line. -/
def isCode (c : Char) : Bool :=
  c != '\'' && !Phrase.endsLine c

theorem isCode_iff {c : Char} : isCode c = true ↔ c ≠ '\'' ∧ Phrase.endsLine c = false := by
  rw [isCode, Bool.and_eq_true, bne_iff_ne, Bool.not_eq_true']

/-- **Text put together of code and written literals**, with the strings that were written. -/
inductive Composed : String → List String → Prop where
  | code {t : String} (h : t.toList.all isCode = true) : Composed t []
  | literal (s : String) : Composed (quote s) [s]
  | append {t u : String} {vs ws : List String} (ht : Composed t vs) (hu : Composed u ws) : Composed (t ++ u) (vs ++ ws)

namespace Composed

variable {t u : String} {vs ws : List String}

theorem around (h : Composed t vs) {before after : String} (hbefore : before.toList.all isCode = true)
    (hafter : after.toList.all isCode = true) : Composed (before ++ t ++ after) vs := by
  have hall := ((code hbefore).append h).append (code hafter)
  rwa [List.nil_append, List.append_nil] at hall

theorem between (ht : Composed t vs) (hu : Composed u ws) {m : String} (hm : m.toList.all isCode = true) :
    Composed (t ++ m ++ u) (vs ++ ws) := by
  have hall := (ht.append (code hm)).append hu
  rwa [List.append_nil] at hall

/-- **No line ends in it**, whatever strings were written. -/
theorem unbroken (h : Composed t vs) : Unbroken t.toList := by
  induction h with
  | code h => exact fun c hc => (isCode_iff.1 (List.all_eq_true.1 h c hc)).2
  | literal s => exact (literal_quote s).2
  | append _ _ iht ihu =>
    rw [String.toList_append]
    exact List.forall_mem_append.2 ⟨iht, ihu⟩

/-- **It gives the strings that were written**, wherever it stands. -/
theorem gives (h : Composed t vs) : Gives t.toList vs := by
  induction h with
  | code h => exact .code (fun c hc => (isCode_iff.1 (List.all_eq_true.1 h c hc)).1)
  | literal s => exact (literal_quote s).1.gives
  | append _ _ iht ihu =>
    rw [String.toList_append]
    exact iht.append ihu

end Composed

/-- A class of characters without the quote and the ends of lines is code. -/
theorem isCode_of_class {p : Char → Bool} (hquote : p '\'' = false) (hline : p '\n' = false) (hreturn : p '\r' = false)
    {c : Char} (h : p c = true) : isCode c = true := by
  refine isCode_iff.2 ⟨?_, endsLine_eq_false_iff.2 ⟨?_, ?_⟩⟩ <;> rintro rfl
  · exact absurd h (by simp [hquote])
  · exact absurd h (by simp [hline])
  · exact absurd h (by simp [hreturn])

theorem all_isCode_of_isName {t : String} (h : Piece.isName t = true) : t.toList.all isCode = true := by
  refine List.all_eq_true.2 (fun c hc => ?_)
  exact isCode_of_class (p := Piece.inName) (by decide) (by decide) (by decide) (Piece.inName_of_isName h c hc)

end Text

/-! ## Expressions -/

namespace Expr

open Text (Composed isCode)

mutual

/-- **The strings of the style in an expression**, in the order they are written. -/
def strings : Expr → List String
  | str v | quoted v | field v | entryVar v _ => [v]
  | call _ args _ _ => stringsAll args
  | binary _ l r | compare _ l r => strings l ++ strings r
  | int _ | var _ | global _ _ | entry | verbatim _ _ | block _ => []

def stringsAll : List Expr → List String
  | [] => []
  | e :: es => strings e ++ stringsAll es

end

theorem composed_within {r : Rendered} {vs : List String} (h : Composed r.text vs) (least : Nat) :
    Composed (r.within least) vs := by
  unfold Rendered.within
  split
  · exact h.around (by decide) (by decide)
  · exact h

theorem composed_signed {t sign u : String} {vs ws : List String} (ht : Composed t vs) (hsign : sign.toList.all isCode = true)
    (hu : Composed u ws) : Composed (t ++ " " ++ sign ++ " " ++ u) (vs ++ ws) := by
  have hmid : (" " ++ sign ++ " ").toList.all isCode = true := by
    rw [String.toList_append, String.toList_append, List.all_append, List.all_append, hsign]
    rfl
  have hall := ht.between hu hmid
  simp only [String.append_assoc] at hall ⊢
  exact hall

theorem composed_comparison {left right : Rendered} {vs ws : List String} (hl : Composed left.text vs)
    (hr : Composed right.text ws) (op : CompareOp) (negate : Bool) :
    Composed (comparison op negate left right) (vs ++ ws) :=
  composed_signed (composed_within hl _) (by cases op <;> cases negate <;> decide) (composed_within hr _)

theorem composed_call {m inside : String} {vs : List String} (hm : Piece.isName m = true) (hi : Composed inside vs) :
    Composed (m ++ "(" ++ inside ++ ")") vs := by
  refine hi.around ?_ (by decide)
  rw [String.toList_append, List.all_append, Text.all_isCode_of_isName hm]
  rfl

theorem composed_name {t : String} (h : Piece.isName t = true) : Composed t [] :=
  .code (Text.all_isCode_of_isName h)

theorem composed_text (n : Int32) : Composed (Decimal.text n) [] := by
  refine .code (List.all_eq_true.2 (fun c hc => ?_))
  obtain h | rfl | rfl := (Decimal.spells_text n).isNumeric c hc
  · exact Text.isCode_of_class (p := Char.isDigit) (by decide) (by decide) (by decide) h
  · decide
  · decide

mutual

/-- **The text of an expression is put together of code and the literals of its strings.** -/
theorem composed_rendered (s : Scope) : ∀ e : Expr, (∀ x ∈ e.nodes, x.isNamed s = true) →
    Composed (e.rendered s).text e.strings
  | int n, _ => composed_text n
  | str v, _ => .literal v
  | quoted v, _ => .literal v
  | var v, h => composed_name (h (var v) List.mem_cons_self)
  | global n t, h => composed_name (h (global n t) List.mem_cons_self)
  | field n, _ => composed_call (m := "entry.field") (by decide) (.literal n)
  | entryVar n t, _ => composed_call (isName_getter t) (.literal n)
  | entry, _ => .code (t := "entry") (by decide)
  | call c args t effect, h => by
    rw [nodes, List.forall_mem_cons] at h
    exact composed_call h.1 (composed_renderedAll s args h.2)
  | binary op l r, h => by
    rw [nodes, List.forall_mem_cons, List.forall_mem_append] at h
    exact composed_signed (composed_within (composed_rendered s l h.2.1) _) (by cases op <;> decide)
      (composed_within (composed_rendered s r h.2.2) _)
  | compare op l r, h => by
    rw [nodes, List.forall_mem_cons, List.forall_mem_append] at h
    have hcomparison := composed_comparison (composed_rendered s l h.2.1) (composed_rendered s r h.2.2) op false
    exact hcomparison.around (by decide) (by decide)
  | verbatim t ty, h => composed_name (h (verbatim t ty) List.mem_cons_self)
  | block g, h => nomatch h (block g) List.mem_cons_self

theorem composed_renderedAll (s : Scope) : ∀ es : List Expr, (∀ x ∈ nodesAll es, x.isNamed s = true) →
    Composed (String.intercalate ", " (renderedAll s es)) (stringsAll es)
  | [], _ => .code (t := "") rfl
  | [e], h => by
    rw [nodesAll, List.forall_mem_append] at h
    rw [stringsAll, stringsAll, List.append_nil]
    exact composed_rendered s e h.1
  | e :: e' :: es, h => by
    rw [nodesAll, List.forall_mem_append] at h
    rw [renderedAll, renderedAll, String.intercalate_cons_cons]
    exact (composed_rendered s e h.1).between (composed_renderedAll s (e' :: es) h.2) (by decide)

end

/-- **So is its text as a condition**, or as the opposite condition. -/
theorem composed_condition {s : Scope} {e : Expr} (h : ∀ x ∈ e.nodes, x.isNamed s = true) (negate : Bool) :
    Composed (e.condition s negate) e.strings := by
  unfold condition
  split
  · rw [nodes, List.forall_mem_cons, List.forall_mem_append] at h
    exact composed_comparison (composed_rendered s _ h.2.1) (composed_rendered s _ h.2.2) _ negate
  · have hsign : (" " ++ CompareOp.gt.sign negate ++ " 0").toList.all isCode = true := by cases negate <;> decide
    have hall := (composed_within (composed_rendered s _ h) (Binding.relational.rank + 1)).append (.code hsign)
    rwa [List.append_nil, ← String.append_assoc, ← String.append_assoc] at hall

end Expr

/-! ## Lines -/

namespace Line

/-- **Lines put together of code and written literals**, with the strings that were written. -/
inductive Composes : List Line → List String → Prop where
  | nil : Composes [] []
  | cons {l : Line} {ls : List Line} {vs ws : List String} (h : Text.Composed l.text vs) (hs : Composes ls ws) :
    Composes (l :: ls) (vs ++ ws)

namespace Composes

variable {xs ys : List Line} {vs ws : List String} {d : Nat}

theorem single {t : String} (h : Text.Composed t vs) : Composes [⟨d, t⟩] vs := by
  have hone : Composes [⟨d, t⟩] (vs ++ []) := .cons h .nil
  rwa [List.append_nil] at hone

theorem code {t : String} (h : t.toList.all Text.isCode = true) : Composes [⟨d, t⟩] [] :=
  .single (.code h)

theorem consCode {l : Line} (h : l.text.toList.all Text.isCode = true) (hs : Composes xs vs) : Composes (l :: xs) vs :=
  .cons (.code h) hs

theorem append (hx : Composes xs vs) (hy : Composes ys ws) : Composes (xs ++ ys) (vs ++ ws) := by
  induction hx with
  | nil => exact hy
  | cons h _ ih =>
    rw [List.append_assoc]
    exact .cons h ih

theorem braced {head : String} (hhead : Text.Composed head vs) (h : Composes xs ws) :
    Composes (Stmt.braced d head xs) (vs ++ ws) := by
  have hopen := hhead.append (.code (t := " \x7b") (by decide))
  have hclose := h.append (.code (d := d) (t := "\x7d") (by decide))
  rw [List.append_nil] at hopen hclose
  exact .cons hopen hclose

theorem bracedCode {head : String} (hhead : head.toList.all Text.isCode = true) (h : Composes xs vs) :
    Composes (Stmt.braced d head xs) vs :=
  .braced (.code hhead) h

theorem lead {word : String} (hword : word.toList.all Text.isCode = true) (h : Composes xs vs) :
    Composes (Line.lead word xs) vs := by
  cases h with
  | nil => exact .nil
  | cons h hs => exact .cons ((Text.Composed.code hword).append h) hs

theorem flatMap {α : Type} {f : α → List Line} {g : α → List String} : ∀ {as : List α},
    (∀ a ∈ as, Composes (f a) (g a)) → Composes (as.flatMap f) (as.flatMap g)
  | [], _ => .nil
  | a :: as, h => by
    rw [List.forall_mem_cons] at h
    exact h.1.append (flatMap h.2)

theorem unbroken (h : Composes xs vs) : ∀ l ∈ xs, Text.Unbroken l.text.toList := by
  induction h with
  | nil => exact List.forall_mem_nil _
  | cons h _ ih => exact List.forall_mem_cons.2 ⟨h.unbroken, ih⟩

end Composes

/-- A line gives what its text gives. -/
theorem gives_cons {margin : String} (hmargin : ∀ c ∈ margin.toList, c ≠ '\'') {l : Line} {ls : List Line}
    {vs ws : List String} (h : Text.Gives l.text.toList vs) (hs : Text.Gives (renderAll margin ls).toList ws) :
    Text.Gives (renderAll margin (l :: ls)).toList (vs ++ ws) := by
  have hindent : ∀ c ∈ (indentation l.depth).toList, c ≠ '\'' := by
    rintro c hc rfl
    exact absurd (indents_indentation l.depth _ hc) (by decide)
  have hstart := Text.Gives.code (List.forall_mem_append.2 ⟨hmargin, hindent⟩)
  have hend := (Text.Gives.code (t := ['\n']) (List.forall_mem_singleton.2 (by decide))).append hs
  rw [toList_renderAll]
  exact (hstart.append h).append hend

/-- **The text of such lines gives the strings that were written**, behind every margin without quotes. -/
theorem Composes.gives {ls : List Line} {vs : List String} (h : Composes ls vs) {margin : String}
    (hmargin : ∀ c ∈ margin.toList, c ≠ '\'') : Text.Gives (renderAll margin ls).toList vs := by
  induction h with
  | nil => exact .code (List.forall_mem_nil _)
  | cons h _ ih => exact gives_cons hmargin h.gives ih

end Line

/-! ## Statements -/

namespace Stmt

open Identifier (IsWord)
open Text (Composed isCode)

mutual

/-- **The strings of the style in a statement**, in the order they are written. -/
def strings : Stmt → List String
  | eval e | declare _ (some e) | assign (.var _) e | assign (.global _) e => e.strings
  | assign (.entryVar n) e => n :: e.strings
  | branch c yes no => c.strings ++ (stringsAll yes ++ stringsAll no)
  | loop setup c body => stringsAll setup ++ (c.strings ++ stringsAll body)
  | each _ body => stringsAll body
  | declare _ none | comment _ => []

def stringsAll : List Stmt → List String
  | [] => []
  | t :: ts => strings t ++ stringsAll ts

end

theorem isCode_keyword (t : Ty) : t.keyword.toList.all isCode = true := by
  cases t <;> decide

/-- A variable as it is declared: the keyword of its type, and its name. -/
theorem isCode_declared {s : Scope} {v : VarId} (h : IsWord (s.name v)) :
    ((s.ty v).keyword ++ " " ++ s.name v).toList.all isCode = true := by
  rw [String.toList_append, String.toList_append, List.all_append, List.all_append, isCode_keyword,
    Text.all_isCode_of_isName h.isName]
  rfl

theorem composed_stored {x value : String} {vs : List String} (hx : x.toList.all isCode = true) (hvalue : Composed value vs) :
    Composed (x ++ " = " ++ value) vs :=
  (Composed.code hx).between hvalue (by decide)

variable {s : Scope}

theorem composed_assignment (hvars : ∀ v, IsWord (s.name v)) {x : Target} {e : Expr} (h : (Act.assign x e).Clean s) :
    Composed (assignment s (e.render s) x) (strings (assign x e)) := by
  have hvalue := Expr.composed_rendered s e (h.expr e rfl)
  cases x with
  | var v => exact composed_stored (Text.all_isCode_of_isName (hvars v).isName) hvalue
  | global n => exact composed_stored (Text.all_isCode_of_isName (h.target n e rfl).isName) hvalue
  | entryVar n =>
    have hname : Composed ("entry.setLocal(" ++ Text.quote n) [n] := (Composed.code (by decide)).append (.literal n)
    have hargs : Composed ("entry.setLocal(" ++ Text.quote n ++ ", " ++ e.render s) (n :: e.strings) :=
      hname.between hvalue (by decide)
    have hall := hargs.append (.code (t := ")") (by decide))
    rwa [List.append_nil] at hall

theorem composed_declaration (hvars : ∀ v, IsWord (s.name v)) {v : VarId} {init : Option Expr}
    (h : (Act.declare v init).Clean s) : Composed (declaration s v init) (strings (declare v init)) := by
  cases init with
  | none => exact .code (isCode_declared (hvars v))
  | some e => exact composed_stored (isCode_declared (hvars v)) (Expr.composed_rendered s e (h.expr e rfl))

/-- The head of a branch or a loop. -/
theorem composed_test {c : Expr} (h : (Act.test c).Clean s) (negate : Bool) {w : String} (hw : w.toList.all isCode = true) :
    Composed (w ++ c.condition s negate ++ ")") c.strings :=
  (Expr.composed_condition (h.expr c rfl) negate).around hw (by decide)

mutual

/-- **The lines of a clean statement are put together of code and the literals of its strings.** -/
theorem composes_lines (hvars : ∀ v, IsWord (s.name v)) (d : Nat) (bound : Bool) : ∀ t : Stmt,
    (∀ q ∈ acts bound t, q.2.Clean s) → (∀ x ∈ remarks t, Piece.isName x = true) →
      Line.Composes (lines s d t) (strings t)
  | eval e, h, _ => .single (Expr.composed_rendered s e ((h _ List.mem_cons_self).expr e rfl))
  | declare v init, h, _ => .single (composed_declaration hvars (h _ List.mem_cons_self))
  | assign x e, h, _ => .single (composed_assignment hvars (h _ List.mem_cons_self))
  | comment text, _, hremarks => by
    have htext := Text.all_isCode_of_isName (hremarks text List.mem_cons_self)
    exact .single ((Composed.code (t := "// ") (by decide)).append (.code htext))
  | each reverse body, h, hremarks => by
    have hbody := composes_linesAll hvars (d + 1) true body h hremarks
    have hopen : Composed ("bibDB." ++ (if reverse then "reverseEach" else "each") ++ " \x7b entry ->") [] :=
      .code (by cases reverse <;> decide)
    have hall := hbody.append (.code (d := d) (t := "\x7d") (by decide))
    rw [List.append_nil] at hall
    exact .cons (l := ⟨d, _⟩) hopen hall
  | loop [] c body, h, hremarks => by
    rw [acts, List.forall_mem_cons, List.forall_mem_append] at h
    rw [lines, strings, stringsAll, List.nil_append]
    exact .braced (composed_test h.1 false (w := "while (") (by decide))
      (composes_linesAll hvars (d + 1) bound body h.2.2 hremarks)
  | loop (t :: ts) c body, h, hremarks => by
    rw [acts, List.forall_mem_cons, List.forall_mem_append] at h
    rw [remarks, List.forall_mem_append] at hremarks
    have hsetup := composes_linesAll hvars (d + 1) bound (t :: ts) h.2.1 hremarks.1
    have hbody := composes_linesAll hvars (d + 1) bound body h.2.2 hremarks.2
    -- the setup comes first: the test stands behind it in the body of an endless loop
    have htest := Line.Composes.braced (d := d + 1) (composed_test h.1 true (w := "if (") (by decide))
      (.code (d := d + 2) (t := "break") (by decide))
    have hall := (hsetup.append htest).append hbody
    rw [List.append_nil, List.append_assoc (stringsAll (t :: ts))] at hall
    exact .bracedCode (by decide) hall
  | branch c yes no, h, hremarks => by
    rw [acts, List.forall_mem_cons, List.forall_mem_append] at h
    rw [remarks, List.forall_mem_append] at hremarks
    have hyes := composes_linesAll hvars (d + 1) bound yes h.2.1 hremarks.1
    rw [lines, strings]
    split
    · -- the code for the other case stands alone, so its strings follow those of the condition
      have hempty : yes = [] := by simp_all
      subst hempty
      exact .braced (composed_test h.1 true (w := "if (") (by decide))
        (composes_linesAll hvars (d + 1) bound no h.2.2 hremarks.2)
    · have hhead : Composed ("if (" ++ c.condition s false ++ ") \x7b") c.strings :=
        (Expr.composed_condition (h.1.expr c rfl) false).around (by decide) (by decide)
      exact .cons (l := ⟨d, _⟩) hhead (hyes.append (composes_linesElse hvars d bound no h.2.2 hremarks.2))

theorem composes_linesElse (hvars : ∀ v, IsWord (s.name v)) (d : Nat) (bound : Bool) : ∀ ts : List Stmt,
    (∀ q ∈ actsAll bound ts, q.2.Clean s) → (∀ x ∈ remarksAll ts, Piece.isName x = true) →
      Line.Composes (linesElse s d ts) (stringsAll ts)
  | [], _, _ => .code (by decide)
  | [t], h, hremarks => by
    rw [actsAll_single] at h
    rw [remarksAll_single] at hremarks
    rw [linesElse, stringsAll, stringsAll, List.append_nil]
    split
    · exact .lead (by decide) (composes_lines hvars d bound t h hremarks)
    · exact .bracedCode (by decide) (composes_lines hvars (d + 1) bound t h hremarks)
  | t :: u :: ts, h, hremarks => by
    rw [actsAll, List.forall_mem_append] at h
    rw [remarksAll, List.forall_mem_append] at hremarks
    have hall := (composes_lines hvars (d + 1) bound t h.1 hremarks.1).append
      (composes_linesAll hvars (d + 1) bound (u :: ts) h.2 hremarks.2)
    rw [linesElse]
    · exact .bracedCode (by decide) hall
    · exact fun h => by cases h

theorem composes_linesAll (hvars : ∀ v, IsWord (s.name v)) (d : Nat) (bound : Bool) : ∀ ts : List Stmt,
    (∀ q ∈ actsAll bound ts, q.2.Clean s) → (∀ x ∈ remarksAll ts, Piece.isName x = true) →
      Line.Composes (linesAll s d ts) (stringsAll ts)
  | [], _, _ => .nil
  | t :: ts, h, hremarks => by
    rw [actsAll, List.forall_mem_append] at h
    rw [remarksAll, List.forall_mem_append] at hremarks
    rw [linesAll, stringsAll]
    exact (composes_lines hvars d bound t h.1 hremarks.1).append (composes_linesAll hvars d bound ts h.2 hremarks.2)

end

end Stmt

/-! ## Methods -/

namespace Routine

open Text (Composed isCode)

/-- **The strings of the style in a method**, in the order they are written. -/
def strings (r : Routine) : List String :=
  Stmt.stringsAll r.body ++ (r.result.map Expr.strings).getD []

theorem isCode_intercalate : ∀ {ts : List String}, (∀ t ∈ ts, t.toList.all isCode = true) →
    (String.intercalate ", " ts).toList.all isCode = true
  | [], _ => rfl
  | [t], h => h t List.mem_cons_self
  | t :: u :: ts, h => by
    rw [List.forall_mem_cons] at h
    rw [String.intercalate_cons_cons, String.toList_append, String.toList_append, List.all_append, List.all_append, h.1,
      isCode_intercalate h.2]
    rfl

variable {r : Routine}

/-- The head of a clean method is code. -/
theorem Clean.isCode_head (h : r.Clean) :
    (r.returnType.keyword ++ " " ++ r.method ++ "(" ++ String.intercalate ", " r.declaredParams ++ ")").toList.all isCode =
      true := by
  have hparams : ∀ t ∈ r.declaredParams, t.toList.all isCode = true := by
    refine List.forall_mem_append.2 ⟨?_, List.forall_mem_map.2 (fun v _ => Stmt.isCode_declared (h.vars v))⟩
    split
    · exact List.forall_mem_singleton.2 (by decide)
    · exact List.forall_mem_nil _
  simp only [String.toList_append, List.all_append, Stmt.isCode_keyword, Text.all_isCode_of_isName h.method.isName,
    isCode_intercalate hparams]
  rfl

/-- **The lines of a clean method are put together of code and the literals of its strings.** -/
theorem Clean.composes_lines (h : r.Clean) (d : Nat) : Line.Composes (r.lines d) r.strings := by
  have hbody := Stmt.composes_linesAll h.vars (d + 1) false r.body h.body.acts h.body.remarks
  refine .bracedCode h.isCode_head (hbody.append ?_)
  cases he : r.result with
  | none => exact .nil
  | some e =>
    have hvalue := Expr.composed_rendered r.scope e (h.result e he)
    exact .single ((Composed.code (t := "return ") (by decide)).append hvalue)

end Routine

/-! ## Sessions -/

namespace Session

open Text (Composed)

/-- **A script in which the strings of the style stay in their literals**: whatever follows, each section gives the strings
that it was written with. -/
structure Quoted (s : Session) : Prop where
  handlers : Text.Gives (Line.renderAll "" s.handlerLines).toList (s.handlers.map (·.1))
  stores : (∀ c ∈ s.options.className.toList, c ≠ '\'') →
    Text.Gives (Line.renderAll "" s.constructorLines).toList
      ((s.abbreviations ++ s.options.settings).flatMap (fun p => [p.1, p.2]))
  routines : Text.Gives (Line.renderAll "" s.routineLines).toList (s.routines.flatMap Routine.strings)
  run : Text.Gives (Line.renderAll "" s.runLines).toList (Stmt.stringsAll s.run)

theorem composed_handler {method : String} (h : Identifier.IsWord method) (n : String) :
    Composed (handlerLine n method).text [n] := by
  have hmethod := (Composed.literal n).between (.code (Text.all_isCode_of_isName h.isName)) (m := " : \x7b entry -> ") (by decide)
  exact hmethod.append (.code (t := "(entry) \x7d,") (by decide))

theorem composed_store {method : String} (h : Piece.isName method = true) (p : String × String) :
    Composed (storeLine method p).text [p.1, p.2] := by
  have hall := Expr.composed_call h ((Composed.literal p.1).between (.literal p.2) (m := ", ") (by decide))
  simp only [String.append_assoc] at hall
  simp only [storeLine, String.append_assoc]
  exact hall

theorem composes_stores {method : String} (h : Piece.isName method = true) (ps : List (String × String)) :
    Line.Composes (ps.map (storeLine method)) (ps.flatMap (fun p => [p.1, p.2])) := by
  rw [List.map_eq_flatMap]
  exact .flatMap (fun p _ => .single (composed_store h p))

theorem gives_constructorLines (s : Session) (hclass : ∀ c ∈ s.options.className.toList, c ≠ '\'') :
    Text.Gives (Line.renderAll "" s.constructorLines).toList
      ((s.abbreviations ++ s.options.settings).flatMap (fun p => [p.1, p.2])) := by
  have hfields : Line.Composes [⟨2, "this.bibDB = bibDB"⟩, ⟨2, "this.bibWriter = bibWriter"⟩,
      ⟨2, "this.bibProcessor = bibProcessor"⟩] [] :=
    .consCode (by decide) (.consCode (by decide) (.code (by decide)))
  have habbreviations := composes_stores (by decide : Piece.isName "bibDB.storeString" = true) s.abbreviations
  have hsettings := composes_stores (by decide : Piece.isName "bibProcessor.setOption" = true) s.options.settings
  have hall := ((hfields.append habbreviations).append hsettings).append (.code (d := 1) (t := "\x7d") (by decide))
  rw [List.nil_append, List.append_nil, ← List.flatMap_append] at hall
  have hhead : Text.Gives (s.options.className ++ "(bibDB, bibWriter, bibProcessor) \x7b").toList [] := by
    rw [String.toList_append]
    exact (Text.Gives.code hclass).append (Composed.code (by decide)).gives
  have hmargin : ∀ c ∈ "".toList, c ≠ '\'' := List.forall_mem_nil _
  have hrest := Line.gives_cons (l := ⟨1, _⟩) hmargin hhead (hall.gives hmargin)
  exact Line.gives_cons hmargin (.code (List.forall_mem_nil _)) hrest

namespace Tidy

variable {s : Session}

theorem composes_handlerLines (h : s.Tidy) : Line.Composes s.handlerLines (s.handlers.map (·.1)) := by
  have hlines : Line.Composes (s.handlers.map (fun q => handlerLine q.1 q.2)) (s.handlers.map (·.1)) := by
    rw [List.map_eq_flatMap, List.map_eq_flatMap]
    refine .flatMap (fun q hq => .single (composed_handler ?_ q.1))
    obtain ⟨r, hr, -, hmethod, -⟩ := (h.handlers q.1 q.2).1 hq
    exact hmethod ▸ (h.routines r hr).method
  unfold handlerLines
  split
  · rename_i hempty
    rw [List.isEmpty_iff.1 hempty]
    split
    · exact .consCode (by decide) (.code (by decide))
    · exact .nil
  · have hall := hlines.append (.code (d := 1) (t := "]") (by decide))
    rw [List.append_nil] at hall
    exact .consCode (by decide) (.consCode (by decide) hall)

theorem composes_routineLines (h : s.Tidy) : Line.Composes s.routineLines (s.routines.flatMap Routine.strings) :=
  .flatMap (fun r hr => .consCode (by decide) ((h.routines r hr).composes_lines 1))

theorem composes_runLines (h : s.Tidy) : Line.Composes s.runLines (Stmt.stringsAll s.run) := by
  have hbody := Stmt.composes_linesAll (fun v => Scope.empty.isWord_name v) 2 false s.run h.run.acts h.run.remarks
  have hmethod : Line.Composes (Stmt.braced 1 "void run()" (Block.lines s.run .empty 2)) _ := .bracedCode (by decide) hbody
  exact .consCode (by decide) hmethod

theorem quoted (h : s.Tidy) : s.Quoted where
  handlers := h.composes_handlerLines.gives (List.forall_mem_nil _)
  stores := gives_constructorLines s
  routines := h.composes_routineLines.gives (List.forall_mem_nil _)
  run := h.composes_runLines.gives (List.forall_mem_nil _)

end Tidy

end Session

/-- **A written literal is undone by reading it.**  Whatever follows, the reader stops at the end of the literal and finds the
string, and no other part of the text at its start is a literal: no string closes its literal early.  So no two strings are
written alike, and in the script of every session each section holds the strings of the style that were written into it. -/
theorem Text.quote_undone :
    (∀ s r : String, scan? (quote s ++ r).toList = some (s.toList, r.toList)) ∧
    (∀ (s r : String) (lit v rest : List Char), Literal lit v ∧ lit ++ rest = (quote s ++ r).toList ↔
      lit = (quote s).toList ∧ v = s.toList ∧ rest = r.toList) ∧
    Function.Injective quote ∧
    ∀ sourceName o inputs, (Session.afterAll inputs (.new sourceName o)).Quoted := by
  have hscan : ∀ s r : String, scan? (quote s ++ r).toList = some (s.toList, r.toList) := by
    intro s r
    rw [String.toList_append]
    exact scan?_eq_some_iff.2 ⟨_, rfl, literal_quote s⟩
  refine ⟨hscan, fun s r lit v rest => ⟨?_, ?_⟩, fun s s' h => ?_, fun sourceName o inputs => ?_⟩
  · rintro ⟨hlit, heq⟩
    rw [String.toList_append] at heq
    exact hlit.ends_once (literal_quote s).1 heq
  · rintro ⟨hlit, hv, hrest⟩
    rw [hlit, hv, hrest]
    exact ⟨(literal_quote s).1, String.toList_append.symm⟩
  · have hsame := (hscan s "").symm.trans (h ▸ hscan s' "")
    exact String.toList_inj.1 (Prod.mk.inj (Option.some.inj hsame)).1
  · exact (Session.afterAll_tidy sourceName o inputs).quoted

/-- Strings that end in a quote or a backslash, in a setting, an abbreviation and a function. -/
theorem Text.quote_undone_script :
    let span : Span := ⟨"", 1, 1, 1, 1⟩
    let body : Group := ⟨[.string "it's \\" span, .name "write$" span], span⟩
    let s := Session.afterAll [.command (.abbreviation "j'" "\\" span), .command (.function "out" body span)]
      (.new "" ⟨true, "Style", [("x", "\\'")], 10⟩)
    Line.renderAll "" s.routineLines =
      "\n    void out() \x7b\n        bibWriter.print('it\\'s \\\\')\n    \x7d\n" ∧
    (∀ vs, Text.Holds (Line.renderAll "" s.routineLines).toList vs ↔ vs = ["it's \\"]) ∧
    ∀ vs, Text.Holds (Line.renderAll "" s.constructorLines).toList vs ↔ vs = ["j'", "\\", "x", "\\'"] := by
  intro span body s
  have hquoted : s.Quoted := Text.quote_undone.2.2.2 _ _ _
  have hroutines : s.routines.flatMap Routine.strings = ["it's \\"] := by decide +kernel
  have hstores : (s.abbreviations ++ s.options.settings).flatMap (fun p => [p.1, p.2]) = ["j'", "\\", "x", "\\'"] := by
    decide +kernel
  have hclass : ∀ c ∈ s.options.className.toList, c ≠ '\'' :=
    fun c hc => bne_iff_ne.1 (List.all_eq_true.1 (by decide +kernel : s.options.className.toList.all (· != '\'') = true) c hc)
  rw [← hroutines, ← hstores]
  exact ⟨by decide +kernel, fun _ => hquoted.routines.holds_iff, fun _ => (hquoted.stores hclass).holds_iff⟩

end Bibstyle
