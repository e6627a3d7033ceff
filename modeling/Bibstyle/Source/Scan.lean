import Bibstyle.Source.Lexeme
import Bibstyle.Text.Blank
import Bibstyle.Text.LowerCase
/-!
# Scan — a source cut into words

The first character of what remains decides which lexeme comes next, and one step cuts that lexeme off.  Blanks and
comments give no word.  A string runs to the next double quote, over line ends too; a number, a quoted name and a name
run as far as there are name characters.
-/
namespace Bibstyle
namespace Source

/-- **Why a source cannot be cut into words.** -/
inductive LexicalFault where
  | unterminatedString (span : Span)
  | missingDigits (span : Span)
  | badInteger (digits : String) (span : Span)
  | missingName (span : Span)
  | remark (text : String)
  | remarkAt (text : String) (span : Span)
  deriving DecidableEq

/-- **What a character can begin.** -/
inductive CharClass where
  | comment
  | string
  | integer
  | quoted
  | opening
  | closing
  | blank
  | name
  | other
  deriving DecidableEq

/-- **The characters that mean something by themselves.** -/
def marks : List Char :=
  ['\x7b', '\x7d', '%', '"', '#', '\'']

/-- **Whether a character may be part of a name.** -/
def isNameChar (c : Char) : Bool :=
  !Text.isBlank c && !marks.contains c

def CharClass.of (c : Char) : CharClass :=
  if c = '%' then .comment
  else if c = '"' then .string
  else if c = '#' then .integer
  else if c = '\'' then .quoted
  else if c = '\x7b' then .opening
  else if c = '\x7d' then .closing
  else if Text.isBlank c then .blank
  else if isNameChar c then .name
  else .other

/-- The characters of a name at the front, and the rest. -/
def nameRun (s : List Located) : List Located × List Located :=
  (s.takeWhile (fun l => isNameChar l.char), s.dropWhile (fun l => isNameChar l.char))

/-- The span from one character over a list of others. -/
def spanOver (first : Span) (ls : List Located) : Span :=
  ls.foldl (fun s l => s.cover l.span) first

/-- The name that a run of characters spells. -/
def spelling (ls : List Located) : String :=
  String.ofList (Text.lower (ls.map (·.char)))

/-- **What one step cuts off**: a word or nothing, and the rest of the source. -/
structure Cut where
  token : Option Token
  rest : List Located

/-! ## One lexeme

What takes a lexeme makes sure that it is there, though it is called only where its first character has been seen. -/

/-- The mark that a lexeme begins with, and the rest. -/
def takeMark (mark : Char) : List Located → Except LexicalFault (Located × List Located)
  | [] => .error (.remark "Expected character, found nothing")
  | l :: rest =>
    if l.char = mark then .ok (l, rest)
    else .error (.remark ("Expected character '" ++ mark.toString ++ "'."))

/-- The name at the front, and the rest. -/
def takeName (s : List Located) : Except LexicalFault (List Located × List Located) :=
  match nameRun s with
  | ([], _) => .error (.remark "Expected Identifier character.")
  | (run, after) => .ok (run, after)

def takeString (s : List Located) : Except LexicalFault Cut := do
  let (first, rest) ← takeMark '"' s
  let body := rest.takeWhile (fun l => l.char != '"')
  match rest.dropWhile (fun l => l.char != '"') with
  | [] => .error (.unterminatedString first.span)
  | last :: after =>
    .ok ⟨some ⟨.string (String.ofList (body.map (·.char))), (spanOver first.span body).cover last.span⟩, after⟩

def takeInteger (s : List Located) : Except LexicalFault Cut := do
  let (first, rest) ← takeMark '#' s
  let (run, after) ← (takeName rest).mapError (fun _ => .missingDigits first.span)
  match Decimal.read? (Text.lower (run.map (·.char))) with
  | some n => .ok ⟨some ⟨.integer n, spanOver first.span run⟩, after⟩
  | none => .error (.badInteger (spelling run) (spanOver first.span run))

def takeQuoted (s : List Located) : Except LexicalFault Cut := do
  let (first, rest) ← takeMark '\'' s
  let (run, after) ← (takeName rest).mapError (fun _ => .missingName first.span)
  .ok ⟨some ⟨.quoted (spelling run), spanOver first.span run⟩, after⟩

/-- **Cuts off the lexeme that a character begins.** -/
def cut (first : Located) (rest : List Located) : Except LexicalFault Cut :=
  match CharClass.of first.char with
  | .comment => .ok ⟨none, (rest.dropWhile (fun l => l.char != '\n')).drop 1⟩
  | .blank => .ok ⟨none, rest⟩
  | .opening => .ok ⟨some ⟨.opening, first.span⟩, rest⟩
  | .closing => .ok ⟨some ⟨.closing, first.span⟩, rest⟩
  | .string => takeString (first :: rest)
  | .integer => takeInteger (first :: rest)
  | .quoted => takeQuoted (first :: rest)
  | .name => do
    let (run, after) ← takeName (first :: rest)
    .ok ⟨some ⟨.name (spelling run), spanOver first.span run.tail⟩, after⟩
  | .other => .error (.remarkAt ("Cannot start token with '" ++ first.char.toString ++ "'.") first.span)

/-! ## What cannot be missing -/

/-- **What a class says of a character**; every character begins something. -/
theorem CharClass.of_cases (c : Char) :
    match CharClass.of c with
    | .comment => c = '%'
    | .string => c = '"'
    | .integer => c = '#'
    | .quoted => c = '\''
    | .opening => c = '\x7b'
    | .closing => c = '\x7d'
    | .blank => Text.isBlank c = true
    | .name => isNameChar c = true
    | .other => False := by
  unfold CharClass.of
  by_cases hcomment : c = '%'
  · rw [if_pos hcomment]; exact hcomment
  by_cases hstring : c = '"'
  · rw [if_neg hcomment, if_pos hstring]; exact hstring
  by_cases hinteger : c = '#'
  · rw [if_neg hcomment, if_neg hstring, if_pos hinteger]; exact hinteger
  by_cases hquoted : c = '\''
  · rw [if_neg hcomment, if_neg hstring, if_neg hinteger, if_pos hquoted]; exact hquoted
  rw [if_neg hcomment, if_neg hstring, if_neg hinteger, if_neg hquoted]
  by_cases hopening : c = '\x7b'
  · rw [if_pos hopening]; exact hopening
  by_cases hclosing : c = '\x7d'
  · rw [if_neg hopening, if_pos hclosing]; exact hclosing
  by_cases hblank : Text.isBlank c = true
  · rw [if_neg hopening, if_neg hclosing, if_pos hblank]; exact hblank
  -- what is no mark and no blank is part of a name
  have hname : isNameChar c = true := by simp [isNameChar, marks, *]
  rw [if_neg hopening, if_neg hclosing, if_neg hblank, if_pos hname]
  exact hname

theorem takeMark_cons {mark : Char} {first : Located} (h : first.char = mark) (rest : List Located) :
    takeMark mark (first :: rest) = .ok (first, rest) :=
  if_pos h

theorem takeName_cons {first : Located} (h : isNameChar first.char = true) (rest : List Located) :
    takeName (first :: rest) = .ok (first :: (nameRun rest).1, (nameRun rest).2) := by
  simp [takeName, nameRun, h]

/-- **A step without the checks that its first character makes needless**; no character is of the class `other`. -/
theorem cut_eq (first : Located) (rest : List Located) :
    cut first rest =
      match CharClass.of first.char with
      | .comment => .ok ⟨none, (rest.dropWhile (fun l => l.char != '\n')).drop 1⟩
      | .blank | .other => .ok ⟨none, rest⟩
      | .opening => .ok ⟨some ⟨.opening, first.span⟩, rest⟩
      | .closing => .ok ⟨some ⟨.closing, first.span⟩, rest⟩
      | .string =>
        let body := rest.takeWhile (fun l => l.char != '"')
        match rest.dropWhile (fun l => l.char != '"') with
        | [] => .error (.unterminatedString first.span)
        | last :: after =>
          .ok ⟨some ⟨.string (String.ofList (body.map (·.char))), (spanOver first.span body).cover last.span⟩, after⟩
      | .integer =>
        match nameRun rest with
        | ([], _) => .error (.missingDigits first.span)
        | (run, after) =>
          match Decimal.read? (Text.lower (run.map (·.char))) with
          | some n => .ok ⟨some ⟨.integer n, spanOver first.span run⟩, after⟩
          | none => .error (.badInteger (spelling run) (spanOver first.span run))
      | .quoted =>
        match nameRun rest with
        | ([], _) => .error (.missingName first.span)
        | (run, after) => .ok ⟨some ⟨.quoted (spelling run), spanOver first.span run⟩, after⟩
      | .name =>
        .ok ⟨some ⟨.name (spelling (first :: (nameRun rest).1)), spanOver first.span (nameRun rest).1⟩, (nameRun rest).2⟩ := by
  have hcases := CharClass.of_cases first.char
  unfold cut
  -- only what begins a string, a number or a name is checked again
  cases hclass : CharClass.of first.char <;> rw [hclass] at hcases
  case string =>
    simp only [takeString, takeMark_cons hcases]
    rfl
  case integer =>
    simp only [takeInteger, takeMark_cons hcases, takeName, bind, Except.bind]
    rcases nameRun rest with ⟨_ | ⟨l, run⟩, after⟩ <;> rfl
  case quoted =>
    simp only [takeQuoted, takeMark_cons hcases, takeName, bind, Except.bind]
    rcases nameRun rest with ⟨_ | ⟨l, run⟩, after⟩ <;> rfl
  case name =>
    simp only [takeName_cons hcases]
    rfl
  case other => exact hcases.elim

theorem length_dropWhile_le {α : Type} (p : α → Bool) (l : List α) : (l.dropWhile p).length ≤ l.length :=
  (List.dropWhile_sublist p).length_le

theorem length_nameRun_le (s : List Located) : (nameRun s).2.length ≤ s.length :=
  length_dropWhile_le _ s

/-- A step leaves no more than stood behind the character it began with. -/
theorem cut_rest_length {first : Located} {rest : List Located} {k : Cut} (h : cut first rest = .ok k) :
    k.rest.length ≤ rest.length := by
  have hname := length_nameRun_le rest
  rw [cut_eq] at h
  cases hclass : CharClass.of first.char <;> simp only [hclass] at h
  case comment =>
    cases h
    have hline := length_dropWhile_le (fun l : Located => l.char != '\n') rest
    simp only [List.length_drop]; omega
  case string =>
    have hstring := length_dropWhile_le (fun l : Located => l.char != '"') rest
    split at h
    · cases h
    · rename_i last after hd
      cases h
      rw [hd, List.length_cons] at hstring
      exact Nat.le_of_succ_le hstring
  case integer =>
    split at h
    · cases h
    · rename_i run after hne hr
      rw [hr] at hname
      split at h <;> cases h
      exact hname
  case quoted =>
    split at h
    · cases h
    · rename_i run after hne hr
      cases h
      rw [hr] at hname
      exact hname
  case name => cases h; exact hname
  all_goals cases h; exact Nat.le_refl _

/-- **The words of located characters.** -/
def scan : List Located → Except LexicalFault (List Token)
  | [] => .ok []
  | first :: rest =>
    match h : cut first rest with
    | .error e => .error e
    | .ok k =>
      have _hshorter : k.rest.length < (first :: rest).length := Nat.lt_succ_of_le (cut_rest_length h)
      match scan k.rest with
      | .error e => .error e
      | .ok ts => .ok (k.token.toList ++ ts)
termination_by s => s.length
decreasing_by exact _hshorter

/-- **The words of a source.** -/
def tokens (path : String) (source : String) : Except LexicalFault (List Token) :=
  scan (locate path source.toList)

end Source
end Bibstyle
