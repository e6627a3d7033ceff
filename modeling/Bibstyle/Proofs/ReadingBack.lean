import Bibstyle.Proofs.Grammar
import Bibstyle.Proofs.Lexis
/-!
# ReadingBack — a body is read back from its text

A term is written with blanks between its words, so its text can be cut into just these words, as long as each of them is
spelt as the scanner gives it: a name in lower case, a string without a quote.  All words of a source are.  So the text of a
body that was read from a source is scanned into the words of the body, and these are read as the body again.
-/
namespace Bibstyle

open Source (IsNameChar Piece Cuts)

/-- **A word as the scanner gives it.** -/
def Lexeme.Spelt : Lexeme → Prop
  | .name n | .quoted n => n.toList ≠ [] ∧ (∀ c ∈ n.toList, IsNameChar c) ∧ Text.lower n.toList = n.toList
  | .string s => '"' ∉ s.toList
  | .integer _ | .opening | .closing => True

namespace Source

theorem IsRun.spelt {run rest : List Char} (h : IsRun run rest) : (Lexeme.name (.ofList (Text.lower run))).Spelt := by
  simp only [Lexeme.Spelt, String.toList_ofList]
  exact ⟨Text.lower_ne_nil h.ne_nil, Text.isNameChar_lower h.chars, Text.lower_lower run⟩

theorem Piece.spelt {text rest : List Char} {word : Option Lexeme} (h : Piece text word rest) : ∀ l ∈ word, l.Spelt := by
  cases h with
  | blank | comment | lastComment => exact fun l hl => by cases hl
  | opening | closing | integer =>
    rintro l ⟨⟩
    trivial
  | string h =>
    rintro l ⟨⟩
    simpa [Lexeme.Spelt] using h
  | quoted h | name h =>
    rintro l ⟨⟩
    exact h.spelt

theorem Cuts.spelt {text rest : List Char} {words : List Lexeme} (h : Cuts text words rest) : ∀ l ∈ words, l.Spelt := by
  induction h with
  | nil => exact List.forall_mem_nil _
  | cons h _ ih => exact List.forall_mem_append.2 ⟨fun l hl => h.spelt l (by simpa using hl), ih⟩

/-- **A word that is spelt well is cut from its text**, before what ends a name. -/
theorem piece_text {l : Lexeme} (h : l.Spelt) {rest : List Char} (hrest : ∀ c ∈ rest.head?, ¬ IsNameChar c) :
    Piece l.text.toList (some l) rest := by
  cases l with
  | name n =>
    have hpiece : Piece n.toList _ rest := .name ⟨h.1, h.2.1, hrest⟩
    rwa [h.2.2, String.ofList_toList] at hpiece
  | quoted n =>
    have hpiece : Piece ('\'' :: n.toList) _ rest := .quoted ⟨h.1, h.2.1, hrest⟩
    rw [h.2.2, String.ofList_toList] at hpiece
    simpa [Lexeme.text] using hpiece
  | string s =>
    have hpiece : Piece ('"' :: (s.toList ++ ['"'])) _ rest := .string h
    rw [String.ofList_toList] at hpiece
    simpa [Lexeme.text] using hpiece
  | integer n =>
    have hspells := Decimal.spells_text n
    have hrun : IsRun (Decimal.text n).toList rest :=
      ⟨hspells.ne_nil, fun c hc => (hspells.isNumeric c hc).isNameChar, hrest⟩
    simpa [Lexeme.text] using Piece.integer hrun hspells
  | opening => exact .opening
  | closing => exact .closing

/-- A word in front of a text that is cut already. -/
theorem Cuts.word {l : Lexeme} (h : l.Spelt) {more rest : List Char} {words : List Lexeme}
    (hstop : ∀ c ∈ (more ++ rest).head?, ¬ IsNameChar c) (hmore : Cuts more words rest) :
    Cuts (l.text.toList ++ more) (l :: words) rest :=
  .cons (piece_text h hstop) hmore

theorem Cuts.space {more rest : List Char} {words : List Lexeme} (hmore : Cuts more words rest) :
    Cuts (' ' :: more) words rest :=
  .cons (.blank (by decide)) hmore

theorem not_isNameChar_space (s : List Char) : ∀ c ∈ (' ' :: s).head?, ¬ IsNameChar c := by
  have hblank : Text.isBlank ' ' = true := by decide
  simp [IsNameChar, hblank]

/-- Terms begin with a blank, so no name goes on into them. -/
theorem not_isNameChar_textAll (ts : List Term) {more : List Char} (hstop : ∀ c ∈ more.head?, ¬ IsNameChar c) :
    ∀ c ∈ ((Term.textAll ts).toList ++ more).head?, ¬ IsNameChar c := by
  cases ts with
  | nil => simpa [Term.textAll] using hstop
  | cons t ts => simpa [Term.textAll] using not_isNameChar_space []

mutual

/-- **The text of a term is cut into its words**, before what ends a name. -/
theorem Cuts.term : ∀ (t : Term) {more rest : List Char} {words : List Lexeme}, (∀ l ∈ t.lexemes, l.Spelt) →
    (∀ c ∈ (more ++ rest).head?, ¬ IsNameChar c) → Cuts more words rest →
      Cuts (t.text.toList ++ more) (t.lexemes ++ words) rest
  | .block ts _, more, rest, words, hspelt, _, hmore => by
    rw [Term.lexemes, List.forall_mem_cons, List.forall_mem_append] at hspelt
    have hclose : Cuts (' ' :: '\x7d' :: more) (.closing :: words) rest := .space (.cons .closing hmore)
    have hterms := Cuts.terms ts hspelt.2.1 (not_isNameChar_space _) hclose
    have hblock : Cuts (['\x7b'] ++ _) (.opening :: _) rest := .cons .opening hterms
    simpa [Term.text, Term.lexemes] using hblock
  | .integer n _, _, _, _, _, hstop, hmore => Cuts.word (l := .integer n) trivial hstop hmore
  | .string s _, _, _, _, hspelt, hstop, hmore => Cuts.word (l := .string s) (hspelt _ (.head _)) hstop hmore
  | .quoted n _, _, _, _, hspelt, hstop, hmore => Cuts.word (l := .quoted n) (hspelt _ (.head _)) hstop hmore
  | .name n _, _, _, _, hspelt, hstop, hmore => Cuts.word (l := .name n) (hspelt _ (.head _)) hstop hmore
  | .field n _, _, _, _, hspelt, hstop, hmore => Cuts.word (l := .name n) (hspelt _ (.head _)) hstop hmore
  | .entryInteger n _, _, _, _, hspelt, hstop, hmore => Cuts.word (l := .name n) (hspelt _ (.head _)) hstop hmore
  | .entryString n _, _, _, _, hspelt, hstop, hmore => Cuts.word (l := .name n) (hspelt _ (.head _)) hstop hmore

theorem Cuts.terms : ∀ (ts : List Term) {more rest : List Char} {words : List Lexeme},
    (∀ l ∈ Term.lexemesAll ts, l.Spelt) → (∀ c ∈ (more ++ rest).head?, ¬ IsNameChar c) → Cuts more words rest →
      Cuts ((Term.textAll ts).toList ++ more) (Term.lexemesAll ts ++ words) rest
  | [], _, _, _, _, _, hmore => by simpa [Term.textAll, Term.lexemesAll] using hmore
  | t :: ts, more, rest, words, hspelt, hstop, hmore => by
    rw [Term.lexemesAll, List.forall_mem_append] at hspelt
    have hrest := Cuts.terms ts hspelt.2 hstop hmore
    have hterm := Cuts.term t hspelt.1 (by rw [List.append_assoc]; exact not_isNameChar_textAll ts hstop) hrest
    simpa [Term.textAll, Term.lexemesAll] using Cuts.space hterm

end

end Source

/-- **A body is read back from its text.**  The text of a body of a source is scanned and read as a body, which has the same
terms, their places apart. -/
theorem Group.reads_back {path source : String} {words : List Token} {cs : List Command} {name : String} {body : Group}
    {span : Span} (hwords : Source.tokens path source = .ok words) (hcs : Reader.program words = .ok cs)
    (hbody : Command.function name body span ∈ cs) (path' : String) (last : Reader.Last) :
    ∃ words' again, Source.tokens path' body.text = .ok words' ∧ Reader.body last words' = .ok (again, []) ∧
      again.toTerm.Alike body.toTerm := by
  have hcuts := Source.tokens_eq_ok_iff.1 ⟨words, hwords, rfl⟩
  have hwritten := (Reader.commands_sound hcs).2
  -- the words of the body are among those of the source
  have hspelt : ∀ l ∈ body.toTerm.lexemes, l.Spelt := by
    intro l hl
    apply hcuts.spelt
    rw [← hwritten, List.mem_flatMap]
    exact ⟨_, hbody, by simp [Command.lexemes, Group.lexemes, hl]⟩
  have htext := Source.Cuts.term body.toTerm hspelt (by simp) (.nil [])
  rw [List.append_nil, List.append_nil] at htext
  obtain ⟨words', hwords', hlexemes⟩ := Source.tokens_of_cuts htext path'
  have hin := Reader.program_grammatical hcs _ hbody
  obtain ⟨again, hagain, halike⟩ := Reader.body_of_lexemes last hin.1 hlexemes []
  rw [List.append_nil] at hagain
  exact ⟨words', again, hwords', hagain, halike⟩

/-- A block, a number with a sign, a capital that has two small characters, and a string of two lines with a brace and a
percent sign in it. -/
def nested : Group where
  terms :=
    [.block [.integer 7 ⟨"", 1, 16, 1, 19⟩, .quoted "i̇" ⟨"", 1, 20, 1, 22⟩] ⟨"", 1, 15, 1, 23⟩,
     .string "% \x7b\n" ⟨"", 1, 1, 2, 29⟩]
  span := ⟨"", 1, 2, 2, 15⟩

def nestedWords : List Token :=
  [⟨.name "function", ⟨"", 1, 1, 1, 9⟩⟩, ⟨.opening, ⟨"", 1, 10, 1, 11⟩⟩, ⟨.name "f", ⟨"", 1, 11, 1, 12⟩⟩,
   ⟨.closing, ⟨"", 1, 12, 1, 13⟩⟩, ⟨.opening, ⟨"", 1, 14, 1, 15⟩⟩, ⟨.opening, ⟨"", 1, 15, 1, 16⟩⟩,
   ⟨.integer 7, ⟨"", 1, 16, 1, 19⟩⟩, ⟨.quoted "i̇", ⟨"", 1, 20, 1, 22⟩⟩, ⟨.closing, ⟨"", 1, 22, 1, 23⟩⟩,
   ⟨.string "% \x7b\n", ⟨"", 1, 1, 2, 29⟩⟩, ⟨.closing, ⟨"", 2, 2, 2, 3⟩⟩]

theorem Group.reads_back_nested :
    Source.tokens "" "FUNCTION \x7bF\x7d \x7b\x7b#+7 'İ\x7d \"% \x7b\n\"\x7d" = .ok nestedWords ∧
    Reader.program nestedWords = .ok [.function "f" nested ⟨"", 1, 1, 2, 15⟩] ∧
    nested.text = "\x7b \x7b #7 'i̇ \x7d \"% \x7b\n\" \x7d" ∧
    ∃ words again, Source.tokens "again" nested.text = .ok words ∧ Reader.body none words = .ok (again, []) ∧
      again.toTerm.Alike nested.toTerm := by
  have hwords : Source.tokens "" "FUNCTION \x7bF\x7d \x7b\x7b#+7 'İ\x7d \"% \x7b\n\"\x7d" = .ok nestedWords := by decide +kernel
  have hcs : Reader.program nestedWords = .ok [.function "f" nested ⟨"", 1, 1, 2, 15⟩] := by decide +kernel
  exact ⟨hwords, hcs, by decide +kernel, reads_back hwords hcs (.head _) "again" none⟩

end Bibstyle
