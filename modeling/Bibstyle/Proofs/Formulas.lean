import Bibstyle.Code.Rendering
import Bibstyle.Proofs.Execution
import Bibstyle.Proofs.Literals
import Bibstyle.Proofs.Spelling
/-!
# Formulas — the usual grammar of expressions

Text is cut into pieces, and pieces are read as formulas: equality binds looser than order, order looser than sums, and
sums are taken from the left; a choice between two values stands in parentheses.  A name is one piece with whatever it
is called with, and so is a negative number.  Text is cut in one way and pieces are read in one way, so that a formula and
its meaning belong to the text.
-/
namespace Bibstyle

/-! ## Pieces -/

/-- **A sign between two operands.** -/
inductive Sign where
  | plus
  | minus
  | less
  | atMost
  | greater
  | atLeast
  | equal
  | unequal
  deriving DecidableEq

def Sign.text : Sign → String
  | plus => "+"
  | minus => "-"
  | less => "<"
  | atMost => "<="
  | greater => ">"
  | atLeast => ">="
  | equal => "=="
  | unequal => "!="

/-- How loosely a sign binds. -/
def Sign.binding : Sign → Binding
  | plus | minus => .additive
  | less | atMost | greater | atLeast => .relational
  | equal | unequal => .equality

def Sign.rank (op : Sign) : Nat :=
  op.binding.rank

/-- **A piece**: a literal, an atom that is not looked into, or a mark. -/
inductive Piece where
  | int (n : Int32)
  | str (v : String)
  | atom (text : String)
  | sign (op : Sign)
  | opening
  | closing
  | question
  | colon
  deriving DecidableEq

/-- The text of a piece, with the blanks around a sign. -/
def Piece.text : Piece → String
  | int n => Decimal.text n
  | str v => Text.quote v
  | atom t => t
  | sign op => " " ++ op.text ++ " "
  | opening => "("
  | closing => ")"
  | question => " ? "
  | colon => " : "

/-- A number is written with digits, after a minus sign or none. -/
theorem Decimal.text_cases (n : Int32) :
    ∃ c ds, c.isDigit = true ∧ (∀ d ∈ ds, d.isDigit = true) ∧
      ((Decimal.text n).toList = c :: ds ∨ (Decimal.text n).toList = '-' :: c :: ds) := by
  have hnat : ∀ k, ∃ c ds, (nat k).toList = c :: ds ∧ c.isDigit = true ∧ ∀ d ∈ ds, d.isDigit = true := by
    intro k
    have hdigits := isDigit_nat k
    cases hchars : (nat k).toList with
    | nil => exact absurd hchars (toList_nat_ne_nil k)
    | cons c ds =>
      rw [hchars] at hdigits
      exact ⟨c, ds, rfl, List.forall_mem_cons.1 hdigits⟩
  unfold Decimal.text
  split
  · rename_i k _
    obtain ⟨c, ds, hchars, hc, hds⟩ := hnat k
    exact ⟨c, ds, hc, hds, .inl hchars⟩
  · rename_i k _
    obtain ⟨c, ds, hchars, hc, hds⟩ := hnat (k + 1)
    exact ⟨c, ds, hc, hds, .inr (by rw [String.toList_append, hchars]; rfl)⟩

namespace Piece

def isMark : Piece → Bool
  | int _ | str _ | atom _ => false
  | sign _ | opening | closing | question | colon => true

/-- **The text that pieces spell.** -/
def spell : List Piece → String
  | [] => ""
  | x :: xs => x.text ++ spell xs

theorem spell_append (xs ys : List Piece) : spell (xs ++ ys) = spell xs ++ spell ys := by
  induction xs with
  | nil => exact String.empty_append.symm
  | cons x xs ih => rw [List.cons_append, spell, spell, ih, String.append_assoc]

theorem spell_single (x : Piece) : spell [x] = x.text :=
  String.append_empty

def startsName (c : Char) : Bool :=
  c.isAlpha || c == '_'

/-- A name may be reached through others, with points between them. -/
def inName (c : Char) : Bool :=
  c.isAlphanum || c == '_' || c == '.'

/-- A mark, the longest first. -/
def mark? : List Char → Option (Piece × List Char)
  | '<' :: '=' :: r => some (.sign .atMost, r)
  | '>' :: '=' :: r => some (.sign .atLeast, r)
  | '=' :: '=' :: r => some (.sign .equal, r)
  | '!' :: '=' :: r => some (.sign .unequal, r)
  | '<' :: r => some (.sign .less, r)
  | '>' :: r => some (.sign .greater, r)
  | '+' :: r => some (.sign .plus, r)
  | '-' :: r => some (.sign .minus, r)
  | '(' :: r => some (.opening, r)
  | ')' :: r => some (.closing, r)
  | '?' :: r => some (.question, r)
  | ':' :: r => some (.colon, r)
  | _ => none

/-- A name that begins with `c`, together with what it is called with. -/
def name? (c : Char) (cs : List Char) : Option (Piece × List Char) :=
  let name := c :: cs.takeWhile inName
  match cs.dropWhile inName with
  | '(' :: r => (Text.closed? 0 .code r).map (fun p => (.atom (String.ofList (name ++ '(' :: p.1)), p.2))
  | r => some (.atom (String.ofList name), r)

/-- A number of which `sign` has been read. -/
def number? (sign cs : List Char) : Option (Piece × List Char) :=
  (Decimal.read? (sign ++ cs.takeWhile Decimal.isDigit)).map (fun n => (.int n, cs.dropWhile Decimal.isDigit))

/-- **The first piece of a text** that does not begin with a blank, and what follows it. -/
def next? : List Char → Option (Piece × List Char)
  | [] => none
  | '\'' :: cs => (Text.literal? cs).map (fun p => (.str (String.ofList p.1), p.2))
  | '-' :: cs => if cs.head?.any Decimal.isDigit then number? ['-'] cs else mark? ('-' :: cs)
  | c :: cs =>
    if startsName c then name? c cs
    else if Decimal.isDigit c then number? [] (c :: cs)
    else mark? (c :: cs)

/-- **A text is cut into pieces**; blanks stand for nothing. -/
inductive Cut : List Char → List Piece → Prop where
  | nil : Cut [] []
  | blank {cs xs} (h : Cut cs xs) : Cut (' ' :: cs) xs
  | piece {cs x r xs} (hx : next? cs = some (x, r)) (h : Cut r xs) : Cut cs (x :: xs)

/-- **A text is cut in one way.** -/
theorem Cut.unique {cs : List Char} {xs ys : List Piece} (hx : Cut cs xs) (hy : Cut cs ys) : xs = ys := by
  induction hx generalizing ys with
  | nil =>
    cases hy with
    | nil => rfl
    | piece hn => cases hn
  | blank _ ih =>
    cases hy with
    | blank hy => exact ih hy
    | piece hn => cases hn
  | piece hn _ ih =>
    cases hy with
    | nil => cases hn
    | blank => cases hn
    | piece hn' hy =>
      obtain ⟨rfl, rfl⟩ := Prod.mk.inj (Option.some.inj (hn.symm.trans hn'))
      rw [ih hy]

/-! ## Pieces cut out of a text -/

/-- **What can follow an operand**: nothing, a blank, or the end of what it stands in. -/
inductive Ends : List Char → Prop where
  | nil : Ends []
  | blank {r} : Ends (' ' :: r)
  | closing {r} : Ends (')' :: r)

theorem Ends.takeWhile_append {r : List Char} (h : Ends r) {p : Char → Bool} (hblank : p ' ' = false) (hclosing : p ')' = false)
    {cs : List Char} (hcs : ∀ c ∈ cs, p c = true) : (cs ++ r).takeWhile p = cs ∧ (cs ++ r).dropWhile p = r := by
  rw [List.takeWhile_append_of_pos hcs, List.dropWhile_append_of_pos hcs]
  cases h with
  | nil => simp
  | blank => simp [hblank]
  | closing => simp [hclosing]

theorem Cut.mark {x : Piece} (hx : x.isMark = true) {r : List Char} {ys : List Piece} (h : Cut r ys) :
    Cut (x.text.toList ++ r) (x :: ys) := by
  cases x with
  | int | str | atom => cases hx
  | opening => exact .piece (x := .opening) rfl h
  | closing => exact .piece (x := .closing) rfl h
  | question =>
    change Cut (' ' :: '?' :: ' ' :: r) _
    exact .blank (.piece rfl (.blank h))
  | colon =>
    change Cut (' ' :: ':' :: ' ' :: r) _
    exact .blank (.piece rfl (.blank h))
  | sign op =>
    have hnext : next? (op.text.toList ++ ' ' :: r) = some (.sign op, ' ' :: r) := by cases op <;> rfl
    have hchars : (Piece.sign op).text.toList ++ r = ' ' :: (op.text.toList ++ ' ' :: r) := by
      simp [Piece.text, String.toList_append]
    rw [hchars]
    exact .blank (.piece hnext (.blank h))

theorem Ends.mark {x : Piece} (hx : x.isMark = true) (hne : x ≠ .opening) (r : List Char) : Ends (x.text.toList ++ r) := by
  cases x with
  | int | str | atom => cases hx
  | opening => exact absurd rfl hne
  | closing => exact .closing
  | question | colon => exact .blank
  | sign op =>
    rw [Piece.text, String.append_assoc, String.toList_append, List.append_assoc]
    exact .blank

/-- Whether a text is one name. -/
def isName (t : String) : Bool :=
  match t.toList with
  | [] => false
  | c :: cs => startsName c && cs.all inName

theorem isName_iff {t : String} :
    isName t = true ↔ ∃ c cs, t.toList = c :: cs ∧ startsName c = true ∧ ∀ d ∈ cs, inName d = true := by
  unfold isName
  cases t.toList with
  | nil => simp
  | cons c cs => simp

theorem inName_of_isName {t : String} (h : isName t = true) : ∀ c ∈ t.toList, inName c = true := by
  obtain ⟨c, cs, ht, hc, hcs⟩ := isName_iff.1 h
  rw [ht]
  refine List.forall_mem_cons.2 ⟨?_, hcs⟩
  simp only [startsName, Bool.or_eq_true] at hc
  rcases hc with hc | hc <;> simp [inName, Char.isAlphanum, hc]

/-- **An atom that can be told from what follows it**: a name, or a name called with code. -/
inductive Legible : String → Prop where
  | name {t} (h : isName t = true) : Legible t
  | call {m inside} (h : isName m = true) (hi : Text.Balanced inside.toList) : Legible (m ++ "(" ++ inside ++ ")")

theorem next?_of_startsName {c : Char} (h : startsName c = true) (cs : List Char) : next? (c :: cs) = name? c cs := by
  rw [next?, if_pos h]
  · rintro rfl
    exact absurd h (by decide)
  · rintro rfl
    exact absurd h (by decide)

theorem next?_atom {t : String} (ht : Legible t) {r : List Char} (hr : Ends r) : next? (t.toList ++ r) = some (.atom t, r) := by
  cases ht with
  | name h =>
    obtain ⟨c, cs, hchars, hc, hcs⟩ := isName_iff.1 h
    obtain ⟨htake, hdrop⟩ := hr.takeWhile_append (p := inName) (by decide) (by decide) hcs
    rw [hchars, List.cons_append, next?_of_startsName hc, name?, htake, hdrop, ← hchars, String.ofList_toList]
    cases hr <;> rfl
  | @call m inside h hi =>
    obtain ⟨c, cs, hchars, hc, hcs⟩ := isName_iff.1 h
    have htext : (m ++ "(" ++ inside ++ ")").toList = c :: cs ++ '(' :: (inside.toList ++ [')']) := by
      simp [String.toList_append, hchars]
    have hall : (c :: cs ++ '(' :: (inside.toList ++ [')'])) ++ r = c :: (cs ++ '(' :: (inside.toList ++ ')' :: r)) := by simp
    have htake : (cs ++ '(' :: (inside.toList ++ ')' :: r)).takeWhile inName = cs := by
      rw [List.takeWhile_append_of_pos hcs, List.takeWhile_cons_of_neg (by decide), List.append_nil]
    have hdrop : (cs ++ '(' :: (inside.toList ++ ')' :: r)).dropWhile inName = '(' :: (inside.toList ++ ')' :: r) := by
      rw [List.dropWhile_append_of_pos hcs, List.dropWhile_cons_of_neg (by decide)]
    rw [htext, hall, next?_of_startsName hc, name?, htake, hdrop]
    simp only [Text.closed?_balanced hi, Option.map_some]
    rw [← htext, String.ofList_toList]

/-- Digits, after a sign or none, as far as they go. -/
theorem number?_spelt {sign ds r : List Char} {n : Int32} (hds : ∀ c ∈ ds, c.isDigit = true) (hn : Decimal.Spells (sign ++ ds) n)
    (hr : Ends r) : number? sign (ds ++ r) = some (.int n, r) := by
  have hdigits : ∀ c ∈ ds, Decimal.isDigit c = true := fun c hc => (Decimal.isDigit_eq c).trans (hds c hc)
  obtain ⟨htake, hdrop⟩ := hr.takeWhile_append (p := Decimal.isDigit) (by decide) (by decide) hdigits
  rw [number?, htake, hdrop, Decimal.read?_eq_some_iff.2 hn, Option.map_some]

theorem next?_int (n : Int32) {r : List Char} (hr : Ends r) : next? ((Decimal.text n).toList ++ r) = some (.int n, r) := by
  have hn := Decimal.spells_text n
  obtain ⟨c, ds, hc, hds, htext | htext⟩ := Decimal.text_cases n
  · -- A digit is neither the quote, nor the sign, nor a letter.
    rw [htext] at hn ⊢
    have hletter : startsName c = false := by
      have hrange := Char.isDigit_iff_toNat.1 hc
      exact Text.of_ascii (P := fun c => c.isDigit = true → startsName c = false) (by decide)
        (Nat.lt_of_le_of_lt hrange.2 (by decide)) hc
    rw [List.cons_append, next?, if_neg (by simp [hletter]), if_pos ((Decimal.isDigit_eq c).trans hc), ← List.cons_append]
    · exact number?_spelt (List.forall_mem_cons.2 ⟨hc, hds⟩) hn hr
    · rintro rfl
      exact absurd hc (by decide)
    · rintro rfl
      exact absurd hc (by decide)
  · rw [htext] at hn ⊢
    rw [List.cons_append, next?, if_pos (by simp [Decimal.isDigit_eq, hc])]
    exact number?_spelt (List.forall_mem_cons.2 ⟨hc, hds⟩) hn hr

theorem next?_str (v : String) (r : List Char) : next? ((Text.quote v).toList ++ r) = some (.str v, r) := by
  have hchars : (Text.quote v).toList ++ r = '\'' :: (v.toList.flatMap Text.escape ++ '\'' :: r) := by
    simp [Text.quote, Text.quoteChars]
  rw [hchars, next?, Text.literal?_quoted, Option.map_some, String.ofList_toList]

/-- **Pieces that can be cut out of their text**, when it ends or something follows that ends an operand. -/
def CutsOut (xs : List Piece) : Prop :=
  ∀ r ys, Ends r → Cut r ys → Cut ((spell xs).toList ++ r) (xs ++ ys)

theorem cutsOut_single {x : Piece} (h : ∀ r, Ends r → next? (x.text.toList ++ r) = some (x, r)) : CutsOut [x] := by
  intro r ys hr hcut
  rw [spell_single]
  exact .piece (h r hr) hcut

theorem CutsOut.append_mark {x : Piece} {xs zs : List Piece} (hxs : CutsOut xs) (hx : x.isMark = true) (hne : x ≠ .opening)
    (hzs : CutsOut zs) : CutsOut (xs ++ x :: zs) := by
  intro r ys hr hcut
  rw [spell_append, spell, String.toList_append, String.toList_append, List.append_assoc, List.append_assoc, List.append_assoc]
  exact hxs _ _ (.mark hx hne _) (.mark hx (hzs r ys hr hcut))

theorem CutsOut.group {xs : List Piece} (h : CutsOut xs) : CutsOut (.opening :: xs ++ [.closing]) := by
  intro r ys hr hcut
  rw [List.cons_append, spell, spell_append, spell_single, String.toList_append, String.toList_append, List.append_assoc,
    List.append_assoc, List.cons_append, List.append_assoc]
  exact .mark rfl (h _ _ (.mark rfl (by decide) r) (.mark rfl hcut))

theorem CutsOut.cut_iff {xs : List Piece} (h : CutsOut xs) (ys : List Piece) : Cut (spell xs).toList ys ↔ ys = xs := by
  have hxs := h [] [] .nil .nil
  rw [List.append_nil, List.append_nil] at hxs
  exact ⟨fun hys => hys.unique hxs, fun hys => hys ▸ hxs⟩

end Piece

/-! ## The grammar -/

/-- **A formula.** -/
inductive Formula where
  | int (n : Int32)
  | str (v : String)
  | atom (text : String)
  | join (op : Sign) (left right : Formula)
  | choice (test yes no : Formula)

namespace Formula

/-- The rank of what stands between two signs. -/
def operandRank : Nat :=
  Binding.additive.rank + 1

/-- **Pieces read as a formula** in which every sign outside parentheses binds at least as tightly as the rank. -/
inductive Reads : Nat → List Piece → Formula → Prop where
  | int {n} : Reads operandRank [.int n] (.int n)
  | str {v} : Reads operandRank [.str v] (.str v)
  | atom {t} : Reads operandRank [.atom t] (.atom t)
  | group {xs f} (h : Reads 0 xs f) : Reads operandRank (.opening :: xs ++ [.closing]) f
  | choice {xs ys zs f g h} (hf : Reads 0 xs f) (hg : Reads 0 ys g) (hh : Reads 0 zs h) :
    Reads operandRank (.opening :: xs ++ .question :: ys ++ .colon :: zs ++ [.closing]) (.choice f g h)
  | join {op xs ys f g} (hf : Reads op.rank xs f) (hg : Reads (op.rank + 1) ys g) :
    Reads op.rank (xs ++ .sign op :: ys) (.join op f g)
  | tighter {rank xs f} (h : Reads (rank + 1) xs f) : Reads rank xs f

/-- What binds tightly enough for a place does for a place that asks less. -/
theorem Reads.loosen {rank rank' : Nat} {xs : List Piece} {f : Formula} (h : Reads rank xs f) (hle : rank' ≤ rank) :
    Reads rank' xs f := by
  induction hle with
  | refl => exact h
  | step _ ih => exact ih h.tighter

/-! ## The text of a reading -/

/-- **What is read can be cut out of its text**, if the atoms can. -/
theorem Reads.cutsOut {rank : Nat} {xs : List Piece} {f : Formula} (h : Reads rank xs f)
    (hatoms : ∀ t, .atom t ∈ xs → Piece.Legible t) : Piece.CutsOut xs := by
  induction h with
  | @int n => exact Piece.cutsOut_single (fun r hr => Piece.next?_int n hr)
  | @str v => exact Piece.cutsOut_single (fun r _ => Piece.next?_str v r)
  | @atom t => exact Piece.cutsOut_single (fun r hr => Piece.next?_atom (hatoms t List.mem_cons_self) hr)
  | group _ ih => exact (ih (fun t ht => hatoms t (by simp [ht]))).group
  | choice _ _ _ ihf ihg ihh =>
    have htest := ihf (fun t ht => hatoms t (by simp [ht]))
    have hyes := ihg (fun t ht => hatoms t (by simp [ht]))
    have hno := ihh (fun t ht => hatoms t (by simp [ht]))
    exact ((htest.append_mark (x := .question) rfl (by decide) hyes).append_mark (x := .colon) rfl (by decide) hno).group
  | @join op xs ys _ _ _ _ ihf ihg =>
    have hleft := ihf (fun t ht => hatoms t (by simp [ht]))
    have hright := ihg (fun t ht => hatoms t (by simp [ht]))
    exact hleft.append_mark (x := .sign op) rfl (by simp) hright
  | tighter _ ih => exact ih hatoms

/-! ## One reading -/

/-- **Operands that wait for the end of another**, each with the sign after it, the last first. -/
abbrev Pending := List (Formula × Sign)

/-- What has waited long enough when a sign of the rank follows: it is joined, the last first. -/
def collapse (rank : Nat) : Pending → Formula → Pending × Formula
  | [], g => ([], g)
  | (f, op) :: p, g => if rank ≤ op.rank then collapse rank p (.join op f g) else ((f, op) :: p, g)

theorem collapse_of_lt {rank : Nat} {p : Pending} (h : ∀ q ∈ p, q.2.rank < rank) (g : Formula) :
    collapse rank p g = (p, g) := by
  cases p with
  | nil => rfl
  | cons q p => rw [collapse, if_neg (Nat.not_le.2 (h q List.mem_cons_self))]

/-- Joining at a tighter rank first changes nothing. -/
theorem collapse_collapse {rank rank' : Nat} (h : rank ≤ rank') (p : Pending) (g : Formula) :
    collapse rank (collapse rank' p g).1 (collapse rank' p g).2 = collapse rank p g := by
  induction p generalizing g with
  | nil => rfl
  | cons q p ih =>
    by_cases hq : rank' ≤ q.2.rank
    · rw [collapse, if_pos hq, ih, collapse, if_pos (Nat.le_trans h hq)]
    · rw [collapse, if_neg hq]

/-- **A reader in the midst of a formula**: the operand it has read last, what waits at this depth, the parts of a choice
that are complete, the last first, and the same for the depths around. -/
structure Progress where
  operand : Formula
  pending : Pending
  parts : List Formula
  outer : List (Pending × List Formula)

namespace Progress

/-- What has been read at this depth since the last mark. -/
def whole (s : Progress) : Formula :=
  (collapse 0 s.pending s.operand).2

/-- **Reads one piece.**  It is followed along readings only, so it takes any piece anywhere. -/
def step (s : Progress) : Piece → Progress
  | .int n => { s with operand := .int n }
  | .str v => { s with operand := .str v }
  | .atom t => { s with operand := .atom t }
  | .sign op =>
    let joined := collapse op.rank s.pending s.operand
    { s with pending := (joined.2, op) :: joined.1 }
  | .opening => { s with pending := [], parts := [], outer := (s.pending, s.parts) :: s.outer }
  | .question | .colon => { s with pending := [], parts := s.whole :: s.parts }
  | .closing =>
    let f := match s.parts with
      | [g, test] => .choice test g s.whole
      | _ => s.whole
    match s.outer with
    | [] => { s with operand := f }
    | (pending, parts) :: outer => ⟨f, pending, parts, outer⟩

def run (s : Progress) (xs : List Piece) : Progress :=
  xs.foldl step s

theorem run_append (s : Progress) (xs ys : List Piece) : s.run (xs ++ ys) = (s.run xs).run ys :=
  List.foldl_append

theorem run_cons (s : Progress) (x : Piece) (xs : List Piece) : s.run (x :: xs) = (s.step x).run xs :=
  rfl

end Progress

/-- **A reader finds every reading**: it stands where it stood, with an operand that is the formula once what binds
tightly enough is joined. -/
theorem Reads.run {rank : Nat} {xs : List Piece} {f : Formula} (h : Reads rank xs f) (s : Progress)
    (hs : ∀ q ∈ s.pending, q.2.rank < rank) :
    ∃ p g, s.run xs = { s with operand := g, pending := p } ∧ collapse rank p g = (s.pending, f) := by
  induction h generalizing s with
  | int | str | atom => exact ⟨_, _, rfl, collapse_of_lt hs _⟩
  | group h ih =>
    obtain ⟨p, g, hrun, hg⟩ := ih (s.step .opening) (List.forall_mem_nil _)
    refine ⟨s.pending, _, ?_, collapse_of_lt hs _⟩
    rw [List.cons_append, Progress.run_cons, Progress.run_append, hrun]
    simp only [Progress.run, List.foldl_cons, List.foldl_nil, Progress.step, Progress.whole, hg]
  | @choice xs ys zs f g h hf hg hh ihf ihg ihh =>
    -- Each part is read from an empty depth, and is complete at the mark that ends it.
    obtain ⟨p₁, g₁, hrun₁, hg₁⟩ := ihf (s.step .opening) (List.forall_mem_nil _)
    have htest : (s.run (.opening :: xs)).step .question = ⟨g₁, [], [f], (s.pending, s.parts) :: s.outer⟩ := by
      rw [Progress.run_cons, hrun₁]
      simp only [Progress.step, Progress.whole, hg₁]
    obtain ⟨p₂, g₂, hrun₂, hg₂⟩ := ihg ⟨g₁, [], [f], (s.pending, s.parts) :: s.outer⟩ (List.forall_mem_nil _)
    have hyes : (s.run (.opening :: xs ++ .question :: ys)).step .colon = ⟨g₂, [], [g, f], (s.pending, s.parts) :: s.outer⟩ := by
      rw [Progress.run_append, Progress.run_cons, htest, hrun₂]
      simp only [Progress.step, Progress.whole, hg₂]
    obtain ⟨p₃, g₃, hrun₃, hg₃⟩ := ihh ⟨g₂, [], [g, f], (s.pending, s.parts) :: s.outer⟩ (List.forall_mem_nil _)
    have hno : s.run (.opening :: xs ++ .question :: ys ++ .colon :: zs) = ⟨g₃, p₃, [g, f], (s.pending, s.parts) :: s.outer⟩ := by
      rw [Progress.run_append, Progress.run_cons, hyes, hrun₃]
    refine ⟨s.pending, .choice f g h, ?_, collapse_of_lt hs _⟩
    rw [Progress.run_append, hno]
    simp only [Progress.run, List.foldl_cons, List.foldl_nil, Progress.step, Progress.whole, hg₃]
  | @join op xs ys f g hf hg ihf ihg =>
    obtain ⟨p₁, g₁, hrun₁, hg₁⟩ := ihf s hs
    have hsign : (s.run xs).step (.sign op) = { s with operand := g₁, pending := (f, op) :: s.pending } := by
      rw [hrun₁]
      simp only [Progress.step, hg₁]
    have hpending : ∀ q ∈ (f, op) :: s.pending, q.2.rank < op.rank + 1 :=
      List.forall_mem_cons.2 ⟨Nat.lt_succ_self _, fun q hq => Nat.lt_succ_of_lt (hs q hq)⟩
    obtain ⟨p₂, g₂, hrun₂, hg₂⟩ := ihg { s with operand := g₁, pending := (f, op) :: s.pending } hpending
    refine ⟨p₂, g₂, ?_, ?_⟩
    · rw [Progress.run_append, Progress.run_cons, hsign, hrun₂]
    · rw [← collapse_collapse (Nat.le_succ op.rank), hg₂, collapse, if_pos (Nat.le_refl _), collapse_of_lt hs]
  | tighter h ih =>
    obtain ⟨p, g, hrun, hg⟩ := ih s (fun q hq => Nat.lt_succ_of_lt (hs q hq))
    refine ⟨p, g, hrun, ?_⟩
    rw [← collapse_collapse (Nat.le_succ _), hg, collapse_of_lt hs]

/-- **Pieces are read in one way.** -/
theorem Reads.unique {xs : List Piece} {f g : Formula} (hf : Reads 0 xs f) (hg : Reads 0 xs g) : f = g := by
  obtain ⟨p₁, g₁, hrun₁, hg₁⟩ := hf.run ⟨f, [], [], []⟩ (List.forall_mem_nil _)
  obtain ⟨p₂, g₂, hrun₂, hg₂⟩ := hg.run ⟨f, [], [], []⟩ (List.forall_mem_nil _)
  obtain ⟨rfl, rfl, -⟩ := Progress.mk.inj (hrun₁.symm.trans hrun₂)
  exact (Prod.mk.inj (hg₁.symm.trans hg₂)).2

/-! ## Meaning -/

end Formula

/-- **What a formula says**: a value, or whether something holds. -/
inductive Answer where
  | value (v : Value)
  | truth (b : Bool)

/-- **What a sign says of two operands.**  Sums and differences wrap at 32 bits; strings are added end to end. -/
def Sign.apply : Sign → Value → Value → Option Answer
  | plus, .int a, .int b => some (.value (.int (a + b)))
  | plus, .str a, .str b => some (.value (.str (a ++ b)))
  | minus, .int a, .int b => some (.value (.int (a - b)))
  | less, .int a, .int b => some (.truth (a < b))
  | atMost, .int a, .int b => some (.truth (a ≤ b))
  | greater, .int a, .int b => some (.truth (b < a))
  | atLeast, .int a, .int b => some (.truth (b ≤ a))
  | equal, a, b => some (.truth (a == b))
  | unequal, a, b => some (.truth (a != b))
  | _, _, _ => none

namespace Formula

/-- **The answer of a formula** when each atom has a value.  Operands are values, and a choice is made on what holds. -/
def answer (val : String → Value) : Formula → Option Answer
  | int n => some (.value (.int n))
  | str v => some (.value (.str v))
  | atom t => some (.value (val t))
  | join op f g =>
    match f.answer val, g.answer val with
    | some (.value a), some (.value b) => op.apply a b
    | _, _ => none
  | choice test yes no =>
    match test.answer val with
    | some (.truth true) => yes.answer val
    | some (.truth false) => no.answer val
    | _ => none

/-- **What pieces say** where signs bind as tightly as the rank. -/
def Says (val : String → Value) (rank : Nat) (xs : List Piece) (a : Answer) : Prop :=
  ∃ f, Reads rank xs f ∧ f.answer val = some a

namespace Says

variable {val : String → Value} {rank : Nat} {xs ys zs : List Piece} {a b : Value}

theorem loosen {c : Answer} (h : Says val rank xs c) {rank' : Nat} (hle : rank' ≤ rank) : Says val rank' xs c := by
  obtain ⟨f, hf, hc⟩ := h
  exact ⟨f, hf.loosen hle, hc⟩

theorem join {op : Sign} {c : Answer} (hl : Says val op.rank xs (.value a)) (hr : Says val (op.rank + 1) ys (.value b))
    (hc : op.apply a b = some c) : Says val op.rank (xs ++ .sign op :: ys) c := by
  obtain ⟨f, hf, ha⟩ := hl
  obtain ⟨g, hg, hb⟩ := hr
  exact ⟨.join op f g, hf.join hg, by rw [answer, ha, hb, ← hc]⟩

theorem group {c : Answer} (h : Says val 0 xs c) : Says val operandRank (.opening :: xs ++ [.closing]) c := by
  obtain ⟨f, hf, hc⟩ := h
  exact ⟨f, hf.group, hc⟩

theorem choice {c : Bool} (htest : Says val 0 xs (.truth c)) (hyes : Says val 0 ys (.value a)) (hno : Says val 0 zs (.value b)) :
    Says val operandRank (.opening :: xs ++ .question :: ys ++ .colon :: zs ++ [.closing]) (.value (if c then a else b)) := by
  obtain ⟨f, hf, hc⟩ := htest
  obtain ⟨g, hg, ha⟩ := hyes
  obtain ⟨h, hh, hb⟩ := hno
  refine ⟨.choice f g h, hf.choice hg hh, ?_⟩
  cases c with
  | true => rw [answer, hc]; exact ha
  | false => rw [answer, hc]; exact hb

end Says

/-- **Pieces answer**: they are read in one way, and that is the answer of the formula. -/
def Answers (val : String → Value) (xs : List Piece) (a : Answer) : Prop :=
  ∃ f, (∀ g, Reads 0 xs g ↔ g = f) ∧ f.answer val = some a

theorem Says.answers {val : String → Value} {xs : List Piece} {a : Answer} (h : Says val 0 xs a) : Answers val xs a := by
  obtain ⟨f, hf, ha⟩ := h
  exact ⟨f, fun g => ⟨fun hg => hg.unique hf, fun hg => hg ▸ hf⟩, ha⟩

end Formula
end Bibstyle
