import Bibstyle.Proofs.Lexis
/-!
# Positions — where words stand in a text

A span covers every character of its word, lines and columns apart from each other.  So it runs from the line of the first
character to the line of the last, but from the least column of any character to the greatest.  Cutting a text into words
gives every word the span of its own piece, at the place where the piece begins.  Words that follow one another stand in a
stretch of the text, from the first character of the first to the last character of the last.
-/
namespace Bibstyle

/-! ## Places of a text -/

namespace Source
namespace Spot

/-- **The columns of the characters of a text.** -/
def cols (p : Spot) : List Char → List Nat
  | [] => []
  | c :: s => p.col :: (p.next c).cols s

/-- **Where the last character of a text stands.** -/
def last (p : Spot) (s : List Char) : Spot :=
  p.after s.dropLast

/-- **The span from one character to another**, both of them included. -/
def upTo (p q : Spot) (path : String) : Span :=
  ⟨path, p.line, p.col, q.line, q.col + 1⟩

/-- **The span that covers every character of a text.** -/
def box (p : Spot) (path : String) : List Char → Span
  | [] => p.span path 0
  | c :: s => spanOver (p.span path 1) (located path (p.next c) s)

theorem line_le_next (p : Spot) (c : Char) : p.line ≤ (p.next c).line := by
  unfold next
  split
  · exact Nat.le_succ _
  · exact Nat.le_refl _

theorem line_le_after (p : Spot) (s : List Char) : p.line ≤ (p.after s).line := by
  induction s generalizing p with
  | nil => exact Nat.le_refl _
  | cons c s ih => exact Nat.le_trans (p.line_le_next c) (ih (p.next c))

theorem last_append (p : Spot) (s : List Char) {t : List Char} (h : t ≠ []) : p.last (s ++ t) = (p.after s).last t := by
  rw [last, List.dropLast_append_of_ne_nil h, after_append, last]

theorem line_le_last_append (p : Spot) (s t : List Char) : (p.last s).line ≤ (p.last (s ++ t)).line := by
  by_cases ht : t = []
  · rw [ht, List.append_nil]
  rw [last_append p s ht]
  refine Nat.le_trans ?_ (line_le_after _ _)
  by_cases hs : s = []
  · rw [hs]
    exact Nat.le_refl _
  · rw [← List.dropLast_concat_getLast hs, after_append, last, List.dropLast_concat]
    exact line_le_after _ _

theorem cols_append (p : Spot) (s t : List Char) : p.cols (s ++ t) = p.cols s ++ (p.after s).cols t := by
  induction s generalizing p with
  | nil => rfl
  | cons c s ih => exact congrArg (p.col :: ·) (ih (p.next c))

theorem col_mem_cols (p : Spot) {s : List Char} (h : s ≠ []) : p.col ∈ p.cols s := by
  obtain ⟨c, t, rfl⟩ := List.exists_cons_of_ne_nil h
  exact List.mem_cons_self

theorem col_last_mem_cols (p : Spot) {s : List Char} (h : s ≠ []) : (p.last s).col ∈ p.cols s := by
  rw [← List.dropLast_concat_getLast h, cols_append, last, List.dropLast_concat]
  exact List.mem_append_right _ List.mem_cons_self

/-- In a text of one line every column is between the first and the last. -/
theorem cols_between {s : List Char} (h : '\n' ∉ s) (p : Spot) :
    ∀ col ∈ p.cols s, p.col ≤ col ∧ col ≤ (p.last s).col := by
  induction s generalizing p with
  | nil => exact List.forall_mem_nil _
  | cons c s ih =>
    rw [List.mem_cons, not_or] at h
    have hnext : (p.next c).col = p.col + 1 := by rw [next, if_neg (Ne.symm h.1)]
    intro col hcol
    cases s with
    | nil =>
      cases List.mem_singleton.1 hcol
      exact ⟨Nat.le_refl _, Nat.le_refl _⟩
    | cons d s =>
      have hlast : p.last (c :: d :: s) = (p.next c).last (d :: s) := rfl
      have hrest := ih h.2 (p.next c)
      rw [hlast]
      obtain rfl | hcol := List.mem_cons.1 hcol
      · have hfirst := hrest _ List.mem_cons_self
        omega
      · have hcol := hrest col hcol
        omega

end Spot
end Source

/-! ## The columns that a span reaches over -/

open Source (Spot)

/-- **A span reaches over columns**, from the line of one character to the line of another: its own columns are the least of
them and the one behind the greatest. -/
structure Span.Reaches (s : Span) (path : String) (p q : Spot) (cols : List Nat) : Prop where
  path : s.path = path
  startLine : s.startLine = p.line
  endLine : s.endLine = q.line
  startCol : s.startCol ∈ cols
  startCol_le : ∀ col ∈ cols, s.startCol ≤ col
  endCol : ∃ col ∈ cols, s.endCol = col + 1
  lt_endCol : ∀ col ∈ cols, col < s.endCol

namespace Span

theorem reaches_one (p : Spot) (path : String) : (p.span path 1).Reaches path p p [p.col] where
  path := rfl
  startLine := rfl
  endLine := rfl
  startCol := List.mem_singleton_self _
  startCol_le _ hcol := Nat.le_of_eq (List.mem_singleton.1 hcol).symm
  endCol := ⟨p.col, List.mem_singleton_self _, rfl⟩
  lt_endCol _ hcol := Nat.lt_succ_of_le (Nat.le_of_eq (List.mem_singleton.1 hcol))

/-- **A span that covers two reaches over the columns of both**, if the second does not begin or end in an earlier line. -/
theorem Reaches.cover {s t : Span} {path : String} {p q p' q' : Spot} {cols cols' : List Nat} (h : s.Reaches path p q cols)
    (h' : t.Reaches path p' q' cols') (hp : p.line ≤ p'.line) (hq : q.line ≤ q'.line) :
    (s.cover t).Reaches path p q' (cols ++ cols') where
  path := h.path
  startLine := by rw [Span.cover, h.startLine, h'.startLine, Nat.min_eq_left hp]
  endLine := by rw [Span.cover, h.endLine, h'.endLine, Nat.max_eq_right hq]
  startCol := by
    rw [Span.cover, List.mem_append]
    obtain hle | hle := Nat.le_total s.startCol t.startCol
    · exact .inl (by rw [Nat.min_eq_left hle]; exact h.startCol)
    · exact .inr (by rw [Nat.min_eq_right hle]; exact h'.startCol)
  startCol_le := by
    rw [List.forall_mem_append]
    exact ⟨fun col hcol => Nat.le_trans (Nat.min_le_left _ _) (h.startCol_le col hcol),
      fun col hcol => Nat.le_trans (Nat.min_le_right _ _) (h'.startCol_le col hcol)⟩
  endCol := by
    obtain ⟨col, hcol, hend⟩ := h.endCol
    obtain ⟨col', hcol', hend'⟩ := h'.endCol
    obtain hle | hle := Nat.le_total s.endCol t.endCol
    · exact ⟨col', List.mem_append_right _ hcol', (Nat.max_eq_right hle).trans hend'⟩
    · exact ⟨col, List.mem_append_left _ hcol, (Nat.max_eq_left hle).trans hend⟩
  lt_endCol := by
    rw [List.forall_mem_append]
    exact ⟨fun col hcol => Nat.lt_of_lt_of_le (h.lt_endCol col hcol) (Nat.le_max_left _ _),
      fun col hcol => Nat.lt_of_lt_of_le (h'.lt_endCol col hcol) (Nat.le_max_right _ _)⟩

/-- **When a span runs from its first character to its last**: exactly if no column it reaches over is outside theirs. -/
theorem Reaches.eq_upTo_iff {s : Span} {path : String} {p q : Spot} {cols : List Nat} (h : s.Reaches path p q cols)
    (hp : p.col ∈ cols) (hq : q.col ∈ cols) :
    s = p.upTo q path ↔ ∀ col ∈ cols, p.col ≤ col ∧ col ≤ q.col := by
  constructor
  · rintro rfl col hcol
    exact ⟨h.startCol_le col hcol, Nat.le_of_lt_succ (h.lt_endCol col hcol)⟩
  · intro hall
    have hstart : s.startCol = p.col := Nat.le_antisymm (h.startCol_le _ hp) (hall _ h.startCol).1
    have hend : s.endCol = q.col + 1 := by
      obtain ⟨col, hcol, heq⟩ := h.endCol
      have hle := (hall col hcol).2
      have hlt := h.lt_endCol _ hq
      omega
    obtain ⟨spath, startLine, startCol, endLine, endCol⟩ := s
    obtain ⟨rfl, rfl, rfl, -, -, -, -⟩ := h
    rw [Spot.upTo]
    exact congrArg₂ (fun a b => Span.mk spath p.line a q.line b) hstart hend

end Span

namespace Source

/-- What is covered after one character, which stands at `p`, reaches over the columns of the characters that follow it. -/
theorem reaches_spanOver {path : String} {first p : Spot} {cols : List Nat} {a : Span} (ha : a.Reaches path first p cols)
    (hp : first.line ≤ p.line) (c : Char) (s : List Char) :
    (spanOver a (located path (p.next c) s)).Reaches path first (p.last (c :: s)) (cols ++ (p.next c).cols s) := by
  induction s generalizing a p cols c with
  | nil =>
    rw [Spot.cols, List.append_nil]
    exact ha
  | cons d s ih =>
    have hline := p.line_le_next c
    have hnext := ha.cover (Span.reaches_one (p.next c) path) (Nat.le_trans hp hline) hline
    have hrest := ih hnext (Nat.le_trans hp hline) d
    rw [List.append_assoc] at hrest
    rw [located_cons]
    exact hrest

/-- **The span that covers a text reaches over all its columns**, from its first line to its last. -/
theorem reaches_box (p : Spot) (path : String) {s : List Char} (h : s ≠ []) :
    (p.box path s).Reaches path p (p.last s) (p.cols s) := by
  obtain ⟨c, t, rfl⟩ := List.exists_cons_of_ne_nil h
  exact reaches_spanOver (Span.reaches_one p path) (Nat.le_refl _) c t

/-! ## The span of a piece -/

theorem Piece.ne_nil {text rest : List Char} {w : Lexeme} (h : Piece text (some w) rest) : text ≠ [] := by
  cases h with
  | name h => exact h.ne_nil
  | _ => exact List.cons_ne_nil _ _

theorem located_append (path : String) (p : Spot) (s t : List Char) :
    located path p (s ++ t) = located path p s ++ located path (p.after s) t := by
  induction s generalizing p with
  | nil => rfl
  | cons c s ih =>
    rw [List.cons_append, located_cons, located_cons, ih, List.cons_append]
    rfl

/-- What is cut off as a word is covered by its span. -/
theorem spanOver_of_cut {first : Located} {rest : List Located} {k : Cut} (h : cut first rest = .ok k) :
    ∀ t ∈ k.token, ∃ used, rest = used ++ k.rest ∧ t.span = spanOver first.span used := by
  have hrun : ∀ {run after : List Located}, nameRun rest = (run, after) → rest = run ++ after := by
    rintro run after heq
    cases heq
    exact List.takeWhile_append_dropWhile.symm
  rw [cut_eq] at h
  split at h
  · cases h
    rintro t ⟨⟩
  · cases h
    rintro t ⟨⟩
  · cases h
    rintro t ⟨⟩
  · cases h
    rintro t ⟨⟩
    exact ⟨[], rfl, rfl⟩
  · cases h
    rintro t ⟨⟩
    exact ⟨[], rfl, rfl⟩
  · dsimp only at h
    split at h
    · cases h
    · rename_i last after hdrop
      cases h
      rintro t ⟨⟩
      refine ⟨rest.takeWhile (fun l => l.char != '"') ++ [last], ?_, ?_⟩
      · rw [List.append_assoc, List.singleton_append, ← hdrop, List.takeWhile_append_dropWhile]
      · rw [spanOver, spanOver, List.foldl_append]
        rfl
  · split at h
    · cases h
    · rename_i hr
      split at h
      · cases h
        rintro t ⟨⟩
        exact ⟨_, hrun hr, rfl⟩
      · cases h
  · split at h
    · cases h
    · rename_i hr
      cases h
      rintro t ⟨⟩
      exact ⟨_, hrun hr, rfl⟩
  · cases h
    rintro t ⟨⟩
    exact ⟨_, hrun rfl, rfl⟩

/-- **A piece at the front of a text gives its word with the span that covers the piece.** -/
theorem scan_of_word {text rest : List Char} {w : Lexeme} (h : Piece text (some w) rest) (path : String) (p : Spot) :
    scan (located path p (text ++ rest)) = (scan (located path (p.after text) rest)).map (⟨w, p.box path text⟩ :: ·) := by
  obtain ⟨c, s, k, heq, hcut, hword, hrest⟩ := cut_of_piece h path p
  obtain ⟨t, ht, rfl⟩ := Option.map_eq_some_iff.1 hword
  obtain ⟨used, hused, hspan⟩ := spanOver_of_cut hcut t ht
  obtain ⟨d, run, rfl⟩ := List.exists_cons_of_ne_nil h.ne_nil
  obtain ⟨rfl, rfl⟩ := List.cons.inj heq
  -- the span covers what was cut off behind the first character, and that is the rest of the piece
  have happend := located_append path (p.next d) run rest
  rw [hrest] at hused
  have hbox : t.span = p.box path (d :: run) := by
    rw [hspan, ← List.append_cancel_right (happend.symm.trans hused)]
    rfl
  rw [heq, located_cons, scan_of_ok hcut, hrest, ht, ← hbox]
  rfl

theorem scan_of_gap {text rest : List Char} (h : Piece text none rest) (path : String) (p : Spot) :
    scan (located path p (text ++ rest)) = scan (located path (p.after text) rest) := by
  obtain ⟨ts, hts, hscan⟩ := scan_of_piece h path p
  cases List.map_eq_nil_iff.1 hts
  rw [hscan]
  cases scan (located path (p.after text) rest) <;> rfl

/-! ## Words laid out in a text -/

/-- **Words laid out in a text** that begins at a place, before what follows it: every word has the span that covers its own
piece, and between the words there are blanks and comments. -/
inductive Laid (path : String) : Spot → List Char → List Token → List Char → Prop where
  | nil (p : Spot) (rest : List Char) : Laid path p [] [] rest
  | gap {p : Spot} {text more rest : List Char} {ts : List Token} (h : Piece text none (more ++ rest))
    (hmore : Laid path (p.after text) more ts rest) : Laid path p (text ++ more) ts rest
  | word {p : Spot} {text more rest : List Char} {w : Lexeme} {ts : List Token} (h : Piece text (some w) (more ++ rest))
    (hmore : Laid path (p.after text) more ts rest) : Laid path p (text ++ more) (⟨w, p.box path text⟩ :: ts) rest

theorem laid_of_cuts {text rest : List Char} {words : List Lexeme} (h : Cuts text words rest) (path : String) (p : Spot) :
    ∃ ts, Laid path p text ts rest ∧
      scan (located path p (text ++ rest)) = (scan (located path (p.after text) rest)).map (ts ++ ·) := by
  induction h generalizing p with
  | nil rest =>
    refine ⟨[], .nil p rest, ?_⟩
    rw [List.nil_append, Spot.after, List.foldl_nil]
    cases scan (located path p rest) <;> rfl
  | @cons text more rest word words h hmore ih =>
    obtain ⟨ts, hts, hscan⟩ := ih (p.after text)
    rw [List.append_assoc, Spot.after_append]
    cases word with
    | none => exact ⟨ts, .gap h hts, by rw [scan_of_gap h, hscan]⟩
    | some w =>
      refine ⟨_, .word h hts, ?_⟩
      rw [scan_of_word h, hscan]
      cases scan (located path ((p.after text).after more) rest) <;> rfl

/-- **The words of a source are laid out in it.** -/
theorem laid_of_tokens {path source : String} {words : List Token} (h : tokens path source = .ok words) :
    Laid path .start source.toList words [] := by
  have hcuts := tokens_eq_ok_iff.1 ⟨words, h, rfl⟩
  obtain ⟨ts, hts, hscan⟩ := laid_of_cuts hcuts path .start
  rw [List.append_nil, located_nil, scan] at hscan
  have htokens : tokens path source = (Except.ok []).map (ts ++ ·) := hscan
  rw [h, Except.map, List.append_nil] at htokens
  cases htokens
  exact hts

/-- **Where a word stands**: behind the text of the words before it. -/
theorem Laid.at_word {path : String} {p : Spot} {text rest : List Char} {before after : List Token} {t : Token}
    (h : Laid path p text (before ++ t :: after) rest) :
    ∃ front piece more, text = front ++ piece ++ more ∧ Laid path p front before (piece ++ more ++ rest) ∧
      Piece piece (some t.lexeme) (more ++ rest) ∧ t.span = (p.after front).box path piece ∧
      Laid path (p.after (front ++ piece)) more after rest := by
  generalize hwords : before ++ t :: after = words at h
  induction h generalizing before with
  | nil => cases before <;> cases hwords
  | @gap p text more rest ts hpiece hmore ih =>
    obtain ⟨front, piece, more, rfl, hfront, hword, hspan, hrest⟩ := ih hwords
    refine ⟨text ++ front, piece, more, by simp, .gap ?_ hfront, hword, ?_, ?_⟩
    · simpa using hpiece
    · rwa [Spot.after_append]
    · rwa [List.append_assoc, Spot.after_append]
  | @word p text more rest w ts hpiece hmore ih =>
    cases before with
    | nil =>
      cases hwords
      exact ⟨[], text, more, rfl, .nil _ _, hpiece, rfl, hmore⟩
    | cons u before =>
      obtain ⟨rfl, htail⟩ := List.cons.inj hwords
      obtain ⟨front, piece, more, rfl, hfront, hword, hspan, hrest⟩ := ih htail
      refine ⟨text ++ front, piece, more, by simp, .word ?_ hfront, hword, ?_, ?_⟩
      · simpa using hpiece
      · rwa [Spot.after_append]
      · rwa [List.append_assoc, Spot.after_append]

/-! ## Stretches -/

/-- **A stretch of a text** and the words in it, from the first character of the first word to the last of the last. -/
inductive Stretch (path : String) (p : Spot) : List Token → List Char → List Char → Prop where
  | one {t : Token} {text rest : List Char} (h : Piece text (some t.lexeme) rest) (hspan : t.span = p.box path text) :
    Stretch path p [t] text rest
  | more {first last : Token} {ts : List Token} {text mid text' rest : List Char}
    (hfirst : Piece text (some first.lexeme) (mid ++ text' ++ rest)) (hspan : first.span = p.box path text)
    (hmid : Laid path (p.after text) mid ts (text' ++ rest)) (hlast : Piece text' (some last.lexeme) rest)
    (hspan' : last.span = (p.after (text ++ mid)).box path text') :
    Stretch path p (first :: (ts ++ [last])) (text ++ mid ++ text') rest

theorem Stretch.ne_nil {path : String} {p : Spot} {seg : List Token} {text rest : List Char}
    (h : Stretch path p seg text rest) : text ≠ [] := by
  cases h with
  | one h => exact h.ne_nil
  | more _ _ _ hlast => exact List.append_ne_nil_of_right_ne_nil _ hlast.ne_nil

/-- **Words that follow one another stand in a stretch**, behind the text of the words before them. -/
theorem Laid.stretch {path : String} {p : Spot} {text rest : List Char} {before seg after : List Token}
    (h : Laid path p text (before ++ seg ++ after) rest) (hseg : seg ≠ []) :
    ∃ front mid more, text = front ++ mid ++ more ∧ Laid path p front before (mid ++ more ++ rest) ∧
      Stretch path (p.after front) seg mid (more ++ rest) := by
  obtain ⟨first, seg, rfl⟩ := List.exists_cons_of_ne_nil hseg
  rw [List.append_assoc, List.cons_append] at h
  obtain ⟨front, piece, more, rfl, hfront, hword, hspan, hmore⟩ := h.at_word
  obtain rfl | ⟨seg, last, rfl⟩ := List.eq_nil_or_concat seg
  · exact ⟨front, piece, more, rfl, hfront, .one hword hspan⟩
  · rw [List.concat_eq_append, List.append_assoc, List.singleton_append] at hmore
    obtain ⟨mid, piece', more, rfl, hmid, hlast, hspan', -⟩ := hmore.at_word
    refine ⟨front, piece ++ mid ++ piece', more, by simp, by simpa using hfront, ?_⟩
    rw [List.concat_eq_append]
    refine .more (by simpa using hword) hspan ?_ hlast ?_
    · rw [Spot.after_append] at hmid
      simpa using hmid
    · simpa only [Spot.after_append] using hspan'

/-- A stretch with several words begins with its first word and ends with any of the others and what follows that. -/
theorem Stretch.split {path : String} {p : Spot} {first second last : Token} {init inner : List Token} {text rest : List Char}
    (h : Stretch path p (first :: (init ++ second :: (inner ++ [last]))) text rest) :
    ∃ head gap tail, text = head ++ gap ++ tail ∧ Stretch path p [first] head (gap ++ tail ++ rest) ∧
      Stretch path (p.after (head ++ gap)) (second :: (inner ++ [last])) tail rest := by
  generalize hseg : first :: (init ++ second :: (inner ++ [last])) = seg at h
  cases h with
  | one => simp at hseg
  | @more _ _ ts text mid text' rest hfirst hspan hmid hlast hspan' =>
    obtain ⟨rfl, hwords⟩ := List.cons.inj hseg
    rw [← List.cons_append, ← List.append_assoc] at hwords
    obtain ⟨rfl, hend⟩ := List.append_inj' hwords rfl
    cases hend
    obtain ⟨gap, piece, more, rfl, -, hsecond, hspan'', hmore⟩ := hmid.at_word
    rw [← Spot.after_append] at hspan'' hmore
    rw [← List.append_assoc] at hmore
    refine ⟨text, gap, piece ++ more ++ text', by simp, .one (by simpa using hfirst) hspan, ?_⟩
    refine .more (by simpa using hsecond) hspan'' ?_ hlast ?_
    · rwa [← Spot.after_append]
    · rw [← Spot.after_append]
      simpa using hspan'

end Source
end Bibstyle
