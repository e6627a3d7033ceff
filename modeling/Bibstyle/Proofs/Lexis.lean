import Bibstyle.Fault
import Bibstyle.Proofs.Spelling
/-!
# Lexis — what a text can be cut into

The lexical grammar is said without the scanner: a text is cut from left to right into pieces, each of them a blank, a
comment, a brace, a string, a number, a quoted name or a name, and runs of name characters are as long as can be.  Where no
piece can be cut off, one has begun that cannot be completed: a string that does not end, a number or a quoted name with
nothing behind its mark, or a number that is none.  The scanner gives the words of all pieces if the text can be cut to its
end, and otherwise the fault of the piece that is broken, at its place.
-/
namespace Bibstyle
namespace Source

/-! ## Places -/

/-- **A line and a column.** -/
structure Spot where
  line : Nat
  col : Nat

namespace Spot

/-- Where a source begins. -/
def start : Spot := ⟨1, 1⟩

/-- The place behind a character. -/
def next (p : Spot) (c : Char) : Spot :=
  if c = '\n' then ⟨p.line + 1, 1⟩ else ⟨p.line, p.col + 1⟩

/-- **The place behind a text.** -/
def after (p : Spot) (s : List Char) : Spot :=
  s.foldl next p

/-- The span of some characters of one line. -/
def span (p : Spot) (path : String) (count : Nat) : Span :=
  ⟨path, p.line, p.col, p.line, p.col + count⟩

theorem after_append (p : Spot) (s t : List Char) : p.after (s ++ t) = (p.after s).after t :=
  List.foldl_append

end Spot

/-! ## Pieces -/

/-- **A run of name characters** that is as long as can be before what follows it. -/
structure IsRun (run rest : List Char) : Prop where
  ne_nil : run ≠ []
  chars : ∀ c ∈ run, IsNameChar c
  maximal : ∀ c ∈ rest.head?, ¬ IsNameChar c

theorem isRun_iff {run rest : List Char} :
    IsRun run rest ↔ run ≠ [] ∧ run.all isNameChar = true ∧ rest.head?.any isNameChar = false := by
  have hchars : run.all isNameChar = true ↔ ∀ c ∈ run, IsNameChar c := by simp only [List.all_eq_true, isNameChar_iff]
  have hmaximal : rest.head?.any isNameChar = false ↔ ∀ c ∈ rest.head?, ¬ IsNameChar c := by
    cases rest.head? <;> simp [← isNameChar_iff]
  rw [hchars, hmaximal]
  exact ⟨fun h => ⟨h.ne_nil, h.chars, h.maximal⟩, fun h => ⟨h.1, h.2.1, h.2.2⟩⟩

/-- **A piece of a text**: its characters, the word it gives if it gives one, and what follows it. -/
inductive Piece : List Char → Option Lexeme → List Char → Prop where
  | blank {c : Char} {rest : List Char} (h : Text.isBlank c = true) : Piece [c] none rest
  | comment {text rest : List Char} (h : '\n' ∉ text) : Piece ('%' :: (text ++ ['\n'])) none rest
  | lastComment {text : List Char} (h : '\n' ∉ text) : Piece ('%' :: text) none []
  | opening {rest : List Char} : Piece ['\x7b'] (some .opening) rest
  | closing {rest : List Char} : Piece ['\x7d'] (some .closing) rest
  | string {text rest : List Char} (h : '"' ∉ text) : Piece ('"' :: (text ++ ['"'])) (some (.string (.ofList text))) rest
  | integer {run rest : List Char} {n : Int32} (h : IsRun run rest) (hn : Decimal.Spells run n) :
    Piece ('#' :: run) (some (.integer n)) rest
  | quoted {run rest : List Char} (h : IsRun run rest) :
    Piece ('\'' :: run) (some (.quoted (.ofList (Text.lower run)))) rest
  | name {run rest : List Char} (h : IsRun run rest) : Piece run (some (.name (.ofList (Text.lower run)))) rest

/-- **A text cut from left to right into pieces**, with the words they give, before what follows the text. -/
inductive Cuts : List Char → List Lexeme → List Char → Prop where
  | nil (rest : List Char) : Cuts [] [] rest
  | cons {text more rest : List Char} {word : Option Lexeme} {words : List Lexeme} (h : Piece text word (more ++ rest))
    (hmore : Cuts more words rest) : Cuts (text ++ more) (word.toList ++ words) rest

/-- **A piece that cannot be completed**, and the fault that it is. -/
inductive Broken (path : String) (p : Spot) : List Char → LexicalFault → Prop where
  | string {text : List Char} (h : '"' ∉ text) : Broken path p ('"' :: text) (.unterminatedString (p.span path 1))
  | digits {rest : List Char} (h : ∀ c ∈ rest.head?, ¬ IsNameChar c) :
    Broken path p ('#' :: rest) (.missingDigits (p.span path 1))
  | integer {run rest : List Char} (h : IsRun run rest) (hn : ∀ n, ¬ Decimal.Spells run n) :
    Broken path p ('#' :: (run ++ rest)) (.badInteger (.ofList (Text.lower run)) (p.span path (1 + run.length)))
  | name {rest : List Char} (h : ∀ c ∈ rest.head?, ¬ IsNameChar c) :
    Broken path p ('\'' :: rest) (.missingName (p.span path 1))

/-! ## Every text has a piece at its front, or a broken one -/

theorem CharClass.of_blank {c : Char} (h : Text.isBlank c = true) : CharClass.of c = .blank := by
  have hmarks : marks.all (fun d => !Text.isBlank d) = true := by decide
  have hne : ∀ d ∈ marks, c ≠ d := by
    rintro d hd rfl
    have hplain := List.all_eq_true.1 hmarks c hd
    rw [h] at hplain
    cases hplain
  unfold CharClass.of
  rw [if_neg (hne '%' (by decide)), if_neg (hne '"' (by decide)), if_neg (hne '#' (by decide)),
    if_neg (hne '\'' (by decide)), if_neg (hne '\x7b' (by decide)), if_neg (hne '\x7d' (by decide)), if_pos h]

theorem CharClass.of_name {c : Char} (h : IsNameChar c) : CharClass.of c = .name := by
  have hne : ∀ d ∈ marks, c ≠ d := fun d hd hc => h.2 (hc ▸ hd)
  unfold CharClass.of
  rw [if_neg (hne '%' (by decide)), if_neg (hne '"' (by decide)), if_neg (hne '#' (by decide)),
    if_neg (hne '\'' (by decide)), if_neg (hne '\x7b' (by decide)), if_neg (hne '\x7d' (by decide)),
    if_neg (Bool.eq_false_iff.1 h.1), if_pos (isNameChar_iff.2 h)]

/-- A text begins with a run of name characters, which may be empty. -/
theorem exists_run (s : List Char) :
    ∃ run rest, s = run ++ rest ∧ (∀ c ∈ run, IsNameChar c) ∧ ∀ c ∈ rest.head?, ¬ IsNameChar c := by
  refine ⟨s.takeWhile isNameChar, s.dropWhile isNameChar, List.takeWhile_append_dropWhile.symm, ?_, ?_⟩
  · intro c hc
    exact isNameChar_iff.1 (List.all_eq_true.1 List.all_takeWhile c hc)
  · intro c hc hname
    have hnot := List.head?_dropWhile_not isNameChar s
    rw [Option.mem_def.1 hc] at hnot
    exact absurd (isNameChar_iff.2 hname) (Bool.eq_false_iff.1 hnot)

/-- **A text that goes on has a piece at its front, or a broken one.** -/
theorem piece_or_broken (path : String) (p : Spot) (c : Char) (s : List Char) :
    (∃ text word rest, c :: s = text ++ rest ∧ text ≠ [] ∧ Piece text word rest) ∨ ∃ e, Broken path p (c :: s) e := by
  have hclass := CharClass.of_cases c
  obtain ⟨run, rest, rfl, hrun, hmax⟩ := exists_run s
  cases hc : CharClass.of c <;> rw [hc] at hclass <;> dsimp only at hclass
  case comment =>
    subst hclass
    left
    by_cases hend : '\n' ∈ run ++ rest
    · obtain ⟨text, more, htext, hfree⟩ := List.eq_append_cons_of_mem hend
      exact ⟨_, _, more, by simp [htext], List.cons_ne_nil _ _, .comment hfree⟩
    · exact ⟨_, _, [], (List.append_nil _).symm, List.cons_ne_nil _ _, .lastComment hend⟩
  case string =>
    subst hclass
    by_cases hend : '"' ∈ run ++ rest
    · obtain ⟨text, more, htext, hfree⟩ := List.eq_append_cons_of_mem hend
      exact .inl ⟨_, _, more, by simp [htext], List.cons_ne_nil _ _, .string hfree⟩
    · exact .inr ⟨_, .string hend⟩
  case integer =>
    subst hclass
    by_cases hne : run = []
    · subst hne
      exact .inr ⟨_, .digits hmax⟩
    by_cases hn : ∃ n, Decimal.Spells run n
    · obtain ⟨n, hn⟩ := hn
      exact .inl ⟨_, _, rest, rfl, List.cons_ne_nil _ _, .integer ⟨hne, hrun, hmax⟩ hn⟩
    · exact .inr ⟨_, .integer ⟨hne, hrun, hmax⟩ (not_exists.1 hn)⟩
  case quoted =>
    subst hclass
    by_cases hne : run = []
    · subst hne
      exact .inr ⟨_, .name hmax⟩
    · exact .inl ⟨_, _, rest, rfl, List.cons_ne_nil _ _, .quoted ⟨hne, hrun, hmax⟩⟩
  case opening =>
    subst hclass
    exact .inl ⟨_, _, _, rfl, List.cons_ne_nil _ _, .opening⟩
  case closing =>
    subst hclass
    exact .inl ⟨_, _, _, rfl, List.cons_ne_nil _ _, .closing⟩
  case blank => exact .inl ⟨_, _, _, rfl, List.cons_ne_nil _ _, .blank hclass⟩
  case name =>
    have hall : ∀ d ∈ c :: run, IsNameChar d := List.forall_mem_cons.2 ⟨isNameChar_iff.1 hclass, hrun⟩
    exact .inl ⟨_, _, rest, rfl, List.cons_ne_nil _ _, .name ⟨List.cons_ne_nil _ _, hall, hmax⟩⟩

/-- **Every text can be cut to its end, or up to a broken piece.** -/
theorem cuts_or_broken (path : String) (p : Spot) (s : List Char) :
    (∃ words, Cuts s words []) ∨
      ∃ done words rest e, s = done ++ rest ∧ Cuts done words rest ∧ Broken path (p.after done) rest e := by
  cases s with
  | nil => exact .inl ⟨[], .nil []⟩
  | cons c s =>
    obtain ⟨text, word, more, htext, hne, hpiece⟩ | ⟨e, hbroken⟩ := piece_or_broken path p c s
    · rw [htext]
      have hshorter : more.length < (c :: s).length := by
        have hpos := List.length_pos_iff.2 hne
        rw [htext, List.length_append]
        omega
      obtain ⟨words, hmore⟩ | ⟨done, words, rest, e, rfl, hdone, hbroken⟩ := cuts_or_broken path (p.after text) more
      · have hpiece' : Piece text word (more ++ []) := by rwa [List.append_nil]
        exact .inl ⟨_, .cons hpiece' hmore⟩
      · refine .inr ⟨text ++ done, _, rest, e, (List.append_assoc _ _ _).symm, .cons hpiece hdone, ?_⟩
        rwa [Spot.after_append]
    · exact .inr ⟨[], [], c :: s, e, rfl, .nil _, hbroken⟩
termination_by s.length
decreasing_by exact hshorter

/-! ## The scanner -/

/-- The characters of a text that begins at a place. -/
def located (path : String) (p : Spot) (s : List Char) : List Located :=
  locateFrom path p.line p.col s

theorem located_nil (path : String) (p : Spot) : located path p [] = [] :=
  rfl

theorem located_cons (path : String) (p : Spot) (c : Char) (s : List Char) :
    located path p (c :: s) = ⟨c, p.span path 1⟩ :: located path (p.next c) s := by
  unfold located Spot.next
  rw [locateFrom]
  split <;> rfl

theorem map_char_located (path : String) : ∀ (p : Spot) (s : List Char), (located path p s).map (·.char) = s
  | _, [] => rfl
  | p, c :: s => by rw [located_cons, List.map_cons, map_char_located path _ s]

/-- What a test lets pass at the front of a text, and what is left. -/
theorem span_located (q : Char → Bool) (path : String) : ∀ (p : Spot) (run rest : List Char), (∀ c ∈ run, q c = true) →
    (∀ c ∈ rest.head?, q c = false) →
    (located path p (run ++ rest)).takeWhile (fun l => q l.char) = located path p run ∧
      (located path p (run ++ rest)).dropWhile (fun l => q l.char) = located path (p.after run) rest
  | p, [], [], _, _ => ⟨rfl, rfl⟩
  | p, [], c :: rest, _, hrest => by
    have hc : q c = false := hrest c rfl
    rw [List.nil_append, located_cons, List.takeWhile_cons_of_neg (by simp [hc]), List.dropWhile_cons_of_neg (by simp [hc])]
    exact ⟨rfl, (located_cons ..).symm⟩
  | p, c :: run, rest, hrun, hrest => by
    rw [List.forall_mem_cons] at hrun
    obtain ⟨htake, hdrop⟩ := span_located q path (p.next c) run rest hrun.2 hrest
    rw [List.cons_append, located_cons, located_cons, List.takeWhile_cons_of_pos (by exact hrun.1),
      List.dropWhile_cons_of_pos (by exact hrun.1), htake, hdrop]
    exact ⟨rfl, rfl⟩

theorem nameRun_located (path : String) (p : Spot) {run rest : List Char} (hrun : ∀ c ∈ run, IsNameChar c)
    (hmax : ∀ c ∈ rest.head?, ¬ IsNameChar c) :
    nameRun (located path p (run ++ rest)) = (located path p run, located path (p.after run) rest) := by
  have hpass : ∀ c ∈ run, isNameChar c = true := fun c hc => isNameChar_iff.2 (hrun c hc)
  have hstop : ∀ c ∈ rest.head?, isNameChar c = false := by
    intro c hc
    rw [← Bool.not_eq_true, isNameChar_iff]
    exact hmax c hc
  obtain ⟨htake, hdrop⟩ := span_located isNameChar path p run rest hpass hstop
  exact Prod.ext htake hdrop

theorem located_ne_nil (path : String) (p : Spot) {s : List Char} (h : s ≠ []) : located path p s ≠ [] := by
  obtain ⟨c, t, rfl⟩ := List.exists_cons_of_ne_nil h
  rw [located_cons]
  exact List.cons_ne_nil _ _

theorem spelling_located (path : String) (p : Spot) (s : List Char) :
    spelling (located path p s) = .ofList (Text.lower s) := by
  rw [spelling, map_char_located]

/-- The span over characters of one line. -/
theorem spanOver_located (path : String) (line first : Nat) : ∀ (col : Nat) {s : List Char}, first ≤ col →
    (∀ c ∈ s, c ≠ '\n') →
      spanOver ⟨path, line, first, line, col⟩ (located path ⟨line, col⟩ s) = ⟨path, line, first, line, col + s.length⟩
  | col, [], _, _ => rfl
  | col, c :: s, hcol, hs => by
    rw [List.forall_mem_cons] at hs
    have hnext : Spot.next ⟨line, col⟩ c = ⟨line, col + 1⟩ := by rw [Spot.next, if_neg hs.1]
    have hcover : Span.cover ⟨path, line, first, line, col⟩ ⟨path, line, col, line, col + 1⟩ =
        ⟨path, line, first, line, col + 1⟩ := by
      simp only [Span.cover, Nat.min_self, Nat.max_self, Nat.min_eq_left hcol, Nat.max_eq_right (Nat.le_succ col)]
    have hrest := spanOver_located path line first (col + 1) (Nat.le_succ_of_le hcol) hs.2
    rw [located_cons, hnext]
    unfold spanOver at hrest ⊢
    rw [List.foldl_cons]
    dsimp only [Spot.span]
    rw [hcover, hrest, List.length_cons]
    congr 1
    omega

theorem scan_of_ok {first : Located} {rest : List Located} {k : Cut} (h : cut first rest = .ok k) :
    scan (first :: rest) = (scan k.rest).map (k.token.toList ++ ·) := by
  rw [scan]
  split
  · rename_i e he
    rw [h] at he
    cases he
  · rename_i k' hk
    rw [h] at hk
    cases hk
    cases scan k.rest <;> rfl

theorem scan_of_error {first : Located} {rest : List Located} {e : LexicalFault} (h : cut first rest = .error e) :
    scan (first :: rest) = .error e := by
  rw [scan]
  split
  · rename_i e' he
    rw [h] at he
    cases he
    rfl
  · rename_i k hk
    rw [h] at hk
    cases hk

theorem bne_of_not_mem {d : Char} {text : List Char} (h : d ∉ text) : ∀ c ∈ text, (c != d) = true := by
  intro c hc
  rw [bne_iff_ne]
  rintro rfl
  exact h hc

/-- What a piece gives is cut off, and what follows it is left. -/
theorem cut_of_piece {text rest : List Char} {word : Option Lexeme} (h : Piece text word rest) (path : String) (p : Spot) :
    ∃ c s k, text ++ rest = c :: s ∧ cut ⟨c, p.span path 1⟩ (located path (p.next c) s) = .ok k ∧
      k.token.map (·.lexeme) = word ∧ k.rest = located path (p.after text) rest := by
  cases h with
  | @blank c _ h =>
    refine ⟨c, rest, ⟨none, located path (p.next c) rest⟩, rfl, ?_, rfl, rfl⟩
    simp only [cut_eq, CharClass.of_blank h]
  | @comment text _ h =>
    obtain ⟨-, hdrop⟩ := span_located (· != '\n') path (p.next '%') text ('\n' :: rest) (bne_of_not_mem h) (by simp)
    refine ⟨'%', text ++ '\n' :: rest, _, by simp, rfl, rfl, ?_⟩
    dsimp only
    rw [hdrop, located_cons, List.drop_one, List.tail_cons]
    simp [Spot.after]
  | @lastComment text h =>
    obtain ⟨-, hdrop⟩ := span_located (· != '\n') path (p.next '%') text [] (bne_of_not_mem h) (by simp)
    refine ⟨'%', text ++ [], _, rfl, rfl, rfl, ?_⟩
    dsimp only
    rw [hdrop]
    rfl
  | opening | closing => exact ⟨_, rest, _, rfl, rfl, rfl, rfl⟩
  | @string text _ h =>
    obtain ⟨htake, hdrop⟩ := span_located (· != '"') path (p.next '"') text ('"' :: rest) (bne_of_not_mem h) (by simp)
    have hafter : ((p.next '"').after text).next '"' = p.after ('"' :: (text ++ ['"'])) := by simp [Spot.after]
    rw [located_cons, hafter] at hdrop
    have hcut : cut ⟨'"', p.span path 1⟩ (located path (p.next '"') (text ++ '"' :: rest)) = .ok ⟨some ⟨.string
        (.ofList text), (spanOver (p.span path 1) (located path (p.next '"') text)).cover
          (((p.next '"').after text).span path 1)⟩, located path (p.after ('"' :: (text ++ ['"']))) rest⟩ := by
      simp only [cut_eq, show CharClass.of '"' = .string from rfl, htake, hdrop, map_char_located]
    exact ⟨'"', text ++ '"' :: rest, _, by simp, hcut, rfl, rfl⟩
  | @integer run _ n h hn =>
    obtain ⟨l, ls, hls⟩ := List.exists_cons_of_ne_nil (located_ne_nil path (p.next '#') h.ne_nil)
    have hread : Decimal.read? (Text.lower ((l :: ls).map (·.char))) = some n := by
      rw [← hls, map_char_located, Decimal.read?_eq_some_iff, Decimal.spells_lower_iff]
      exact hn
    have hcut : cut ⟨'#', p.span path 1⟩ (located path (p.next '#') (run ++ rest)) = .ok ⟨some ⟨.integer n,
        spanOver (p.span path 1) (located path (p.next '#') run)⟩, located path (p.after ('#' :: run)) rest⟩ := by
      simp only [cut_eq, show CharClass.of '#' = .integer from rfl, nameRun_located path _ h.chars h.maximal, hls, hread]
      rfl
    exact ⟨'#', run ++ rest, _, rfl, hcut, rfl, rfl⟩
  | @quoted run _ h =>
    obtain ⟨l, ls, hls⟩ := List.exists_cons_of_ne_nil (located_ne_nil path (p.next '\'') h.ne_nil)
    have hcut : cut ⟨'\'', p.span path 1⟩ (located path (p.next '\'') (run ++ rest)) = .ok ⟨some ⟨.quoted
        (.ofList (Text.lower run)), spanOver (p.span path 1) (located path (p.next '\'') run)⟩,
        located path (p.after ('\'' :: run)) rest⟩ := by
      simp only [cut_eq, show CharClass.of '\'' = .quoted from rfl, nameRun_located path _ h.chars h.maximal, hls]
      rw [← hls, spelling_located]
      rfl
    exact ⟨'\'', run ++ rest, _, rfl, hcut, rfl, rfl⟩
  | name h =>
    obtain ⟨c, run, rfl⟩ := List.exists_cons_of_ne_nil h.ne_nil
    have hchars := List.forall_mem_cons.1 h.chars
    have hcut : cut ⟨c, p.span path 1⟩ (located path (p.next c) (run ++ rest)) = .ok ⟨some ⟨.name
        (.ofList (Text.lower (c :: run))), spanOver (p.span path 1) (located path (p.next c) run)⟩,
        located path (p.after (c :: run)) rest⟩ := by
      simp only [cut_eq, CharClass.of_name hchars.1, nameRun_located path _ hchars.2 h.maximal]
      rw [← located_cons, spelling_located]
      rfl
    exact ⟨c, run ++ rest, _, rfl, hcut, rfl, rfl⟩

/-- **A piece at the front of a text gives its word, and the scan goes on behind it.** -/
theorem scan_of_piece {text rest : List Char} {word : Option Lexeme} (h : Piece text word rest) (path : String) (p : Spot) :
    ∃ ts : List Token, ts.map (·.lexeme) = word.toList ∧
      scan (located path p (text ++ rest)) = (scan (located path (p.after text) rest)).map (ts ++ ·) := by
  obtain ⟨c, s, k, heq, hcut, hword, hrest⟩ := cut_of_piece h path p
  refine ⟨k.token.toList, ?_, ?_⟩
  · rw [← hword]
    cases k.token <;> rfl
  · rw [heq, located_cons, scan_of_ok hcut, hrest]

/-- **A broken piece is the fault it is.** -/
theorem scan_of_broken {path : String} {p : Spot} {s : List Char} {e : LexicalFault} (h : Broken path p s e) :
    scan (located path p s) = .error e := by
  have hnone : ∀ {q : Spot} {rest : List Char}, (∀ c ∈ rest.head?, ¬ IsNameChar c) →
      nameRun (located path q rest) = ([], located path q rest) :=
    fun {q rest} h => nameRun_located path q (List.forall_mem_nil _) h
  cases h with
  | @string text h =>
    obtain ⟨-, hdrop⟩ := span_located (· != '"') path (p.next '"') text [] (bne_of_not_mem h) (by simp)
    rw [List.append_nil, located_nil] at hdrop
    rw [located_cons]
    apply scan_of_error
    simp only [cut_eq, show CharClass.of '"' = .string from rfl, hdrop]
  | @digits rest h =>
    rw [located_cons]
    apply scan_of_error
    simp only [cut_eq, show CharClass.of '#' = .integer from rfl, hnone h]
  | @integer run rest h hn =>
    obtain ⟨l, ls, hls⟩ := List.exists_cons_of_ne_nil (located_ne_nil path (p.next '#') h.ne_nil)
    have hread : Decimal.read? (Text.lower ((l :: ls).map (·.char))) = none := by
      rw [← hls, map_char_located, Option.eq_none_iff_forall_ne_some]
      intro n hread
      exact hn n (Decimal.spells_lower_iff.1 (Decimal.read?_eq_some_iff.1 hread))
    have hspan : spanOver (p.span path 1) (located path (p.next '#') run) = p.span path (1 + run.length) := by
      have hline : ∀ c ∈ run, c ≠ '\n' := by
        rintro c hc rfl
        exact absurd (h.chars _ hc).1 (by decide)
      have hover := spanOver_located path p.line p.col (p.col + 1) (Nat.le_succ p.col) hline
      rw [Nat.add_assoc] at hover
      exact hover
    rw [located_cons]
    apply scan_of_error
    simp only [cut_eq, show CharClass.of '#' = .integer from rfl, nameRun_located path _ h.chars h.maximal, hls, hread]
    rw [← hls, spelling_located, hspan]
  | @name rest h =>
    rw [located_cons]
    apply scan_of_error
    simp only [cut_eq, show CharClass.of '\'' = .quoted from rfl, hnone h]

theorem scan_of_cuts {text rest : List Char} {words : List Lexeme} (h : Cuts text words rest) (path : String) (p : Spot) :
    ∃ ts : List Token, ts.map (·.lexeme) = words ∧
      scan (located path p (text ++ rest)) = (scan (located path (p.after text) rest)).map (ts ++ ·) := by
  induction h generalizing p with
  | nil rest =>
    refine ⟨[], rfl, ?_⟩
    cases hscan : scan (located path p rest) <;> simp [Spot.after, Except.map, hscan]
  | @cons text more rest word words h hmore ih =>
    obtain ⟨first, hfirst, hscan⟩ := scan_of_piece h path p
    obtain ⟨ts, hts, hscan'⟩ := ih (p.after text)
    refine ⟨first ++ ts, by rw [List.map_append, hfirst, hts], ?_⟩
    rw [List.append_assoc, hscan, hscan', Spot.after_append]
    cases scan (located path ((p.after text).after more) rest) <;> simp [Except.map]

/-- **A text that can be cut to its end has the words of its pieces.** -/
theorem tokens_of_cuts {source : String} {words : List Lexeme} (h : Cuts source.toList words []) (path : String) :
    ∃ ts, tokens path source = .ok ts ∧ ts.map (·.lexeme) = words := by
  obtain ⟨ts, hts, hscan⟩ := scan_of_cuts h path .start
  rw [List.append_nil, located_nil, scan] at hscan
  refine ⟨ts, ?_, hts⟩
  have htokens : tokens path source = (Except.ok []).map (ts ++ ·) := hscan
  rw [htokens, Except.map, List.append_nil]

/-- **A text with a broken piece has its fault**, if it can be cut up to there. -/
theorem tokens_of_broken {source path : String} {done rest : List Char} {words : List Lexeme} {e : LexicalFault}
    (hsource : source.toList = done ++ rest) (hdone : Cuts done words rest) (h : Broken path (Spot.start.after done) rest e) :
    tokens path source = .error e := by
  obtain ⟨ts, -, hscan⟩ := scan_of_cuts hdone path .start
  rw [scan_of_broken h, ← hsource] at hscan
  exact hscan

theorem tokens_eq_ok_iff {path source : String} {words : List Lexeme} :
    (∃ ts, tokens path source = .ok ts ∧ ts.map (·.lexeme) = words) ↔ Cuts source.toList words [] := by
  constructor
  · rintro ⟨ts, hts, rfl⟩
    obtain ⟨words, hcuts⟩ | ⟨done, words, rest, e, hs, hdone, hbroken⟩ := cuts_or_broken path .start source.toList
    · obtain ⟨ts', hts', hwords⟩ := tokens_of_cuts hcuts path
      rw [hts] at hts'
      cases hts'
      rwa [hwords]
    · rw [tokens_of_broken hs hdone hbroken] at hts
      cases hts
  · exact fun h => tokens_of_cuts h path

theorem tokens_eq_error_iff {path source : String} {e : LexicalFault} :
    tokens path source = .error e ↔ ∃ done words rest, source.toList = done ++ rest ∧ Cuts done words rest ∧
      Broken path (Spot.start.after done) rest e := by
  constructor
  · intro h
    obtain ⟨words, hcuts⟩ | ⟨done, words, rest, e', hs, hdone, hbroken⟩ := cuts_or_broken path .start source.toList
    · obtain ⟨ts, hts, -⟩ := tokens_of_cuts hcuts path
      rw [h] at hts
      cases hts
    · rw [tokens_of_broken hs hdone hbroken] at h
      cases h
      exact ⟨done, words, rest, hs, hdone, hbroken⟩
  · rintro ⟨done, words, rest, hs, hdone, hbroken⟩
    exact tokens_of_broken hs hdone hbroken

/-- A broken piece is reported where it is, and never as a character that begins nothing. -/
theorem Broken.reports {path : String} {p : Spot} {s : List Char} {e : LexicalFault} (h : Broken path p s e) :
    (∃ span, e.span? = some span) ∧ ∀ c : Char, e.message ≠ "Cannot start token with '" ++ c.toString ++ "'." := by
  have hfirst : ∀ {m : String}, m.toList.head? ≠ some 'C' →
      ∀ c : Char, m ≠ "Cannot start token with '" ++ c.toString ++ "'." := by
    rintro m hm c rfl
    exact hm (by simp)
  cases h with
  | string => exact ⟨⟨_, rfl⟩, hfirst (m := "Expected character '\"'. String literal does not terminate.") (by decide)⟩
  | digits => exact ⟨⟨_, rfl⟩, hfirst (m := "Expected digits after '#'.") (by decide)⟩
  | @integer run =>
    have hm : ("Bad integer literal '#" ++ String.ofList (Text.lower run) ++ "'.").toList.head? ≠ some 'C' := by
      rw [String.toList_append, String.toList_append, List.append_assoc]
      simp
    exact ⟨⟨_, rfl⟩, hfirst hm⟩
  | name => exact ⟨⟨_, rfl⟩, hfirst (m := "Expected a name after '''.") (by decide)⟩

/-- **The scanner follows the lexical grammar.**  A source has words exactly if it can be cut to its end, and they are the
words of its pieces.  It has a fault exactly if it can be cut up to a broken piece: the fault is that piece's, and it has a
place; no character is one that nothing begins with. -/
theorem tokens_iff_cuts (path source : String) :
    (∀ words, (∃ ts, tokens path source = .ok ts ∧ ts.map (·.lexeme) = words) ↔ Cuts source.toList words []) ∧
    (∀ e, tokens path source = .error e ↔ ∃ done words rest, source.toList = done ++ rest ∧ Cuts done words rest ∧
      Broken path (Spot.start.after done) rest e) ∧
    ∀ e, tokens path source = .error e → (∃ span, e.span? = some span) ∧
      ∀ c : Char, e.message ≠ "Cannot start token with '" ++ c.toString ++ "'." := by
  refine ⟨fun words => tokens_eq_ok_iff, fun e => tokens_eq_error_iff, fun e h => ?_⟩
  obtain ⟨done, words, rest, -, -, hbroken⟩ := tokens_eq_error_iff.1 h
  exact hbroken.reports

/-- Names with capitals are given in lower case, and a quote that no name follows is told of in its place. -/
theorem tokens_iff_cuts_capitals :
    (∃ ts, tokens "" "NEW 'Block" = .ok ts ∧ ts.map (·.lexeme) = [.name "new", .quoted "block"]) ∧
    ∃ e, tokens "" "NEW '" = .error e ∧ e = .missingName ⟨"", 1, 5, 1, 6⟩ ∧ ∃ span, e.span? = some span := by
  have hnew : ∀ rest, Piece "NEW".toList (some (.name "new")) (' ' :: rest) := by
    intro rest
    have hrun : IsRun "NEW".toList (' ' :: rest) := isRun_iff.2 ⟨by decide, by decide, rfl⟩
    have hpiece := Piece.name hrun
    rwa [Text.lower_ascii (by simp)] at hpiece
  have hblock : Piece "'Block".toList (some (.quoted "block")) [] := by
    have hrun : IsRun "Block".toList [] := isRun_iff.2 ⟨by decide, by decide, rfl⟩
    have hpiece := Piece.quoted hrun
    rwa [Text.lower_ascii (by simp)] at hpiece
  constructor
  · refine ((tokens_iff_cuts "" "NEW 'Block").1 _).2 ?_
    exact .cons (hnew _) (.cons (.blank rfl) (.cons hblock (.nil [])))
  · have herror : tokens "" "NEW '" = .error (.missingName ⟨"", 1, 5, 1, 6⟩) :=
      ((tokens_iff_cuts "" "NEW '").2.1 _).2 ⟨"NEW ".toList, [.name "new"], ['\''], rfl,
        .cons (hnew _) (.cons (.blank rfl) (.nil _)), .name nofun⟩
    exact ⟨_, herror, rfl, ((tokens_iff_cuts "" "NEW '").2.2 _ herror).1⟩

end Source
end Bibstyle
