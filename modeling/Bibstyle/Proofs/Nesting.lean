import Bibstyle.Proofs.Extents
/-!
# Nesting — lists and commands by their lines

Words follow one another in a source, so none begins in an earlier line than the one before it ends.  A list takes in
the lines of its braces and a command those of its keyword and its last list, which are its first words and its last.  So
whatever is read from words takes in the lines of all of them, at any depth, and of two things read one after the other
the second does not begin in an earlier line than the first ends.
-/
namespace Bibstyle

/-! ## Lines of spans -/

namespace Span

/-- **A span of something**: it does not end in an earlier line than it begins, and it has a column. -/
structure Proper (s : Span) : Prop where
  lines : s.startLine ≤ s.endLine
  cols : s.startCol < s.endCol

/-- **A span behind another**, as far as lines tell. -/
def Before (s t : Span) : Prop :=
  s.endLine ≤ t.startLine

/-- **A span in the lines of another.** -/
structure Within (s t : Span) : Prop where
  start : t.startLine ≤ s.startLine
  stop : s.endLine ≤ t.endLine

theorem Within.trans {s t u : Span} (h : s.Within t) (h' : t.Within u) : s.Within u :=
  ⟨Nat.le_trans h'.start h.start, Nat.le_trans h.stop h'.stop⟩

theorem within_cover_left (s t : Span) : s.Within (s.cover t) :=
  ⟨Nat.min_le_left _ _, Nat.le_max_left _ _⟩

theorem within_cover_right (s t : Span) : t.Within (s.cover t) :=
  ⟨Nat.min_le_right _ _, Nat.le_max_right _ _⟩

end Span

/-- **Words in order.** -/
structure Token.InOrder (ws : List Token) : Prop where
  proper : ∀ w ∈ ws, w.span.Proper
  order : ws.Pairwise (fun a b => a.span.Before b.span)

open Token (InOrder)

theorem Token.InOrder.sublist {us ws : List Token} (h : InOrder ws) (hsub : us.Sublist ws) : InOrder us where
  proper w hw := h.proper w (hsub.subset hw)
  order := h.order.sublist hsub

/-- **The lines of words**: a span that begins where one of them begins, ends where one of them ends, and takes in all. -/
structure Span.Spans (s : Span) (ws : List Token) : Prop where
  first : ∃ w ∈ ws, s.startLine = w.span.startLine
  last : ∃ w ∈ ws, s.endLine = w.span.endLine
  within : ∀ w ∈ ws, w.span.Within s
  cols : s.startCol < s.endCol

namespace Span.Spans

variable {s t : Span} {ws us : List Token}

theorem one {w : Token} (h : w.span.Proper) : w.span.Spans [w] where
  first := ⟨w, List.mem_singleton_self w, rfl⟩
  last := ⟨w, List.mem_singleton_self w, rfl⟩
  within := List.forall_mem_singleton.2 ⟨Nat.le_refl _, Nat.le_refl _⟩
  cols := h.cols

theorem cover (hs : s.Spans ws) (ht : t.Spans us) : (s.cover t).Spans (ws ++ us) where
  first := by
    obtain ⟨w, hw, hstart⟩ := hs.first
    obtain ⟨u, hu, hstart'⟩ := ht.first
    obtain hle | hle := Nat.le_total s.startLine t.startLine
    · exact ⟨w, List.mem_append_left _ hw, (Nat.min_eq_left hle).trans hstart⟩
    · exact ⟨u, List.mem_append_right _ hu, (Nat.min_eq_right hle).trans hstart'⟩
  last := by
    obtain ⟨w, hw, hstop⟩ := hs.last
    obtain ⟨u, hu, hstop'⟩ := ht.last
    obtain hle | hle := Nat.le_total s.endLine t.endLine
    · exact ⟨u, List.mem_append_right _ hu, (Nat.max_eq_right hle).trans hstop'⟩
    · exact ⟨w, List.mem_append_left _ hw, (Nat.max_eq_left hle).trans hstop⟩
  within := List.forall_mem_append.2
    ⟨fun w hw => (hs.within w hw).trans (s.within_cover_left t), fun u hu => (ht.within u hu).trans (s.within_cover_right t)⟩
  cols := Nat.lt_of_le_of_lt (Nat.min_le_left _ _) (Nat.lt_of_lt_of_le hs.cols (Nat.le_max_left _ _))

/-- **What stands between words is in their lines**: the lines of the first and the last words are those of all. -/
theorem fill {front mid back : List Token} (h : s.Spans (front ++ back)) (horder : InOrder (front ++ mid ++ back))
    (hfront : front ≠ []) (hback : back ≠ []) : s.Spans (front ++ mid ++ back) := by
  have hmid : ∀ w ∈ mid, w.span.Within s := by
    intro w hw
    obtain ⟨a, ha⟩ := List.exists_mem_of_ne_nil front hfront
    obtain ⟨b, hb⟩ := List.exists_mem_of_ne_nil back hback
    obtain ⟨hleft, -, hright⟩ := List.pairwise_append.1 horder.order
    have haw := (List.pairwise_append.1 hleft).2.2 a ha w hw
    have hwb := hright w (List.mem_append_right _ hw) b hb
    have hstart := (h.within a (List.mem_append_left _ ha)).start
    have hstop := (h.within b (List.mem_append_right _ hb)).stop
    have hlines := (horder.proper a (by simp [ha])).lines
    have hlines' := (horder.proper b (by simp [hb])).lines
    exact ⟨hstart.trans (hlines.trans haw), hwb.trans (hlines'.trans hstop)⟩
  have hsub : front ++ back ⊆ front ++ mid ++ back := by
    rw [List.append_subset]
    exact ⟨fun w hw => by simp [hw], fun w hw => by simp [hw]⟩
  constructor
  · obtain ⟨w, hw, hstart⟩ := h.first
    exact ⟨w, hsub hw, hstart⟩
  · obtain ⟨w, hw, hstop⟩ := h.last
    exact ⟨w, hsub hw, hstop⟩
  · have hends := List.forall_mem_append.1 h.within
    exact List.forall_mem_append.2 ⟨List.forall_mem_append.2 ⟨hends.1, hmid⟩, hends.2⟩
  · exact h.cols

theorem proper (h : s.Spans ws) (horder : InOrder ws) : s.Proper := by
  obtain ⟨w, hw, hstart⟩ := h.first
  exact ⟨hstart.le.trans ((horder.proper w hw).lines.trans (h.within w hw).stop), h.cols⟩

/-- **Fewer words have fewer lines.** -/
theorem within_of_subset (hs : s.Spans ws) (ht : t.Spans us) (hsub : ws ⊆ us) : s.Within t := by
  obtain ⟨w, hw, hstart⟩ := hs.first
  obtain ⟨u, hu, hstop⟩ := hs.last
  exact ⟨(ht.within w (hsub hw)).start.trans hstart.ge, hstop.le.trans (ht.within u (hsub hu)).stop⟩

/-- **Words behind others have lines behind theirs.** -/
theorem before (hs : s.Spans ws) (ht : t.Spans us) (h : ∀ w ∈ ws, ∀ u ∈ us, w.span.Before u.span) : s.Before t := by
  obtain ⟨w, hw, hstop⟩ := hs.last
  obtain ⟨u, hu, hstart⟩ := ht.first
  exact hstop.le.trans ((h w hw u hu).trans hstart.ge)

end Span.Spans

/-! ## Words of a source -/

namespace Source

theorem Spot.line_last_le_after (p : Spot) {s : List Char} (h : s ≠ []) : (p.last s).line ≤ (p.after s).line := by
  have hsplit : p.after s = (p.last s).after [s.getLast h] := by
    rw [last, ← after_append, List.dropLast_concat_getLast h]
  rw [hsplit]
  exact line_le_after _ _

/-- **The words laid out in a text are in order**, from the line where the text begins. -/
theorem Laid.inOrder {path : String} {p : Spot} {text rest : List Char} {ws : List Token} (h : Laid path p text ws rest) :
    InOrder ws ∧ ∀ w ∈ ws, p.line ≤ w.span.startLine := by
  induction h with
  | nil p rest => exact ⟨⟨List.forall_mem_nil _, .nil⟩, List.forall_mem_nil _⟩
  | @gap p text more rest ts h hmore ih => exact ⟨ih.1, fun w hw => (p.line_le_after text).trans (ih.2 w hw)⟩
  | @word p text more rest w ts h hmore ih =>
    have hreach := reaches_box p path h.ne_nil
    have hlast := p.line_last_le_after h.ne_nil
    have hproper : (p.box path text).Proper :=
      ⟨hreach.startLine.le.trans ((p.line_le_after _).trans hreach.endLine.ge), hreach.lt_endCol _ hreach.startCol⟩
    have hbehind : ∀ u ∈ ts, (p.box path text).Before u.span :=
      fun u hu => hreach.endLine.le.trans (hlast.trans (ih.2 u hu))
    refine ⟨⟨List.forall_mem_cons.2 ⟨hproper, ih.1.proper⟩, List.pairwise_cons.2 ⟨hbehind, ih.1.order⟩⟩, ?_⟩
    exact List.forall_mem_cons.2 ⟨hreach.startLine.ge, fun u hu => (p.line_le_after text).trans (ih.2 u hu)⟩

end Source

/-! ## What is read from words in order -/

/-- **A term has the lines of the words it is read from.** -/
theorem Term.ReadFrom.spans {t : Term} {ws : List Token} (h : t.ReadFrom ws) (horder : InOrder ws) : t.span.Spans ws := by
  cases h with
  | @literal _ w _ hspan =>
    rw [hspan]
    exact .one (horder.proper w (List.mem_singleton_self w))
  | @block ts o c parts _ _ _ =>
    have hproper := horder.proper
    rw [List.forall_mem_cons, List.forall_mem_append, List.forall_mem_singleton] at hproper
    have hbraces : (o.span.cover c.span).Spans ([o] ++ [c]) := .cover (.one hproper.1) (.one hproper.2.2)
    have hall : InOrder ([o] ++ parts.flatten ++ [c]) := horder
    exact hbraces.fill hall (List.cons_ne_nil _ _) (List.cons_ne_nil _ _)

/-- **A command has the lines of the words it is read from.** -/
theorem Command.ReadFrom.spans {c : Command} {key : Token} {gs : List Group} {parts : List (List Token)}
    (h : c.ReadFrom key gs parts) (horder : InOrder (key :: parts.flatten)) : c.span.Spans (key :: parts.flatten) := by
  have hkey : key.span.Spans [key] := .one (horder.proper key List.mem_cons_self)
  obtain ⟨rfl, hspan⟩ | ⟨init, final, g, rfl, hg, hspan⟩ := h.last_list
  · rw [hspan]
    exact hkey
  · rw [List.flatten_append, List.flatten_singleton] at horder ⊢
    have hall : InOrder ([key] ++ init.flatten ++ final) := horder
    have hfinal : InOrder final := hall.sublist (List.sublist_append_right _ _)
    have hne : final ≠ [] := by
      obtain ⟨o, inner, d, rfl, -⟩ := Group.braces_of_readFrom hg
      exact List.cons_ne_nil _ _
    rw [hspan]
    exact (hkey.cover (hg.spans hfinal)).fill hall (List.cons_ne_nil _ _) hne

/-- **What is read from pieces of words in order** has the lines of its pieces, and follows one another. -/
theorem spans_of_forall₂ {α : Type} {span : α → Span} {R : α → List Token → Prop}
    (hR : ∀ a ws, R a ws → InOrder ws → (span a).Spans ws) {as : List α} {pieces : List (List Token)}
    (h : List.Forall₂ R as pieces) (horder : InOrder pieces.flatten) :
    (∀ a ∈ as, ∃ ws ∈ pieces, (span a).Spans ws) ∧ as.Pairwise (fun a b => (span a).Before (span b)) := by
  induction h with
  | nil => exact ⟨List.forall_mem_nil _, .nil⟩
  | @cons a ws as pieces ha h ih =>
    rw [List.flatten_cons] at horder
    obtain ⟨hmore, hpairs⟩ := ih (horder.sublist (List.sublist_append_right _ _))
    have hspan := hR a ws ha (horder.sublist (List.sublist_append_left _ _))
    have hbehind := (List.pairwise_append.1 horder.order).2.2
    refine ⟨List.forall_mem_cons.2 ⟨⟨ws, List.mem_cons_self, hspan⟩, fun b hb => ?_⟩, .cons (fun b hb => ?_) hpairs⟩
    · obtain ⟨us, hus, hb⟩ := hmore b hb
      exact ⟨us, List.mem_cons_of_mem _ hus, hb⟩
    · obtain ⟨us, hus, hb⟩ := hmore b hb
      exact hspan.before hb fun w hw u hu => hbehind w hw u (List.mem_flatten_of_mem hus hu)

/-- **A list by its lines**: it takes in the words it is read from, and its terms lie in it one behind the other. -/
structure Group.Nested (g : Group) (ws : List Token) : Prop where
  read : g.toTerm.ReadFrom ws
  proper : g.span.Proper
  words : ∀ w ∈ ws, w.span.Within g.span
  terms : ∀ t ∈ g.terms, t.span.Within g.span
  order : g.terms.Pairwise (fun t u => t.span.Before u.span)

theorem Group.nested_of_readFrom {g : Group} {ws : List Token} (h : g.toTerm.ReadFrom ws) (horder : InOrder ws) :
    g.Nested ws := by
  have hspan : g.span.Spans ws := h.spans horder
  obtain ⟨ts, span⟩ := g
  have hread := h
  cases h with
  | literal h => simp [Group.toTerm, Term.lexemes] at h
  | @block _ o c parts ho hc h =>
    have hinside : parts.flatten.Sublist (o :: (parts.flatten ++ [c])) := (List.sublist_append_left _ _).cons _
    obtain ⟨hterms, hpairs⟩ := spans_of_forall₂ (fun t ws (ht : Term.ReadFrom t ws) => ht.spans) h (horder.sublist hinside)
    refine ⟨hread, hspan.proper horder, hspan.within, fun t ht => ?_, hpairs⟩
    obtain ⟨us, hus, ht⟩ := hterms t ht
    exact ht.within_of_subset hspan fun u hu => hinside.subset (List.mem_flatten_of_mem hus hu)

/-- **A command by its lines**: it takes in its words and its lists, those included that it does not keep, and every list
at any depth takes in its own words and terms. -/
structure Command.Nested (c : Command) (key : Token) (gs : List Group) (parts : List (List Token)) : Prop where
  read : c.ReadFrom key gs parts
  proper : c.span.Proper
  words : ∀ w ∈ key :: parts.flatten, w.span.Within c.span
  kept : ∀ g ∈ c.lists, g ∈ Term.listsAll (gs.map Group.toTerm)
  lists : ∀ g ∈ Term.listsAll (gs.map Group.toTerm), g.span.Within c.span ∧
    ∃ before part after, parts.flatten = before ++ part ++ after ∧ g.Nested part

theorem Command.nested_of_readFrom {c : Command} {key : Token} {gs : List Group} {parts : List (List Token)}
    (h : c.ReadFrom key gs parts) (horder : InOrder (key :: parts.flatten)) : c.Nested key gs parts := by
  have hspan := h.spans horder
  obtain ⟨k, -, hmade⟩ := h.made
  refine ⟨h, hspan.proper horder, hspan.within, hmade.lists_subset, fun g hg => ?_⟩
  obtain ⟨before, part, after, hparts, hread⟩ := h.withinAll g hg
  have hsub : part.Sublist (key :: parts.flatten) := by
    rw [hparts]
    exact ((List.sublist_append_right _ _).trans (List.sublist_append_left _ _)).cons _
  have hpart := horder.sublist hsub
  exact ⟨(hread.spans hpart).within_of_subset hspan hsub.subset, before, part, after, hparts, g.nested_of_readFrom hread hpart⟩

/-! ## Programs -/

namespace Reader

/-- **The words of a program are those of its commands**, one after the other. -/
theorem commands_pieces {last : Last} {ts : List Token} {cs : List Command} (h : commands last ts = .ok cs) :
    ∃ pieces, ts = pieces.flatten ∧
      List.Forall₂ (fun c ws => ∃ key gs parts, ws = key :: parts.flatten ∧ c.ReadFrom key gs parts) cs pieces := by
  fun_induction commands last ts generalizing cs with
  | case1 =>
    cases h
    exact ⟨[], rfl, .nil⟩
  | case2 => cases h
  | case3 => cases h
  | case4 t ts d rest hd _ ds hmore ih =>
    cases h
    obtain ⟨pieces, rfl, hpieces⟩ := ih hmore
    obtain ⟨gs, parts, rfl, hc⟩ := command_readFrom hd
    exact ⟨(t :: parts.flatten) :: pieces, rfl, .cons ⟨t, gs, parts, rfl, hc⟩ hpieces⟩

end Reader

namespace Source

/-- **A program by its lines.**  Its words are in order and each is the word of one command; each command takes in its words
and its lists, each list what is in it, and the commands are in order again. -/
structure Nested (words : List Token) (cs : List Command) : Prop where
  proper : ∀ w ∈ words, w.span.Proper
  order : words.Pairwise (fun v w => v.span.Before w.span)
  commands : ∃ pieces, words = pieces.flatten ∧ List.Forall₂
    (fun c ws => ∃ key gs parts, ws = key :: parts.flatten ∧ c.Nested key gs parts) cs pieces
  commandOrder : cs.Pairwise (fun c d => c.span.Before d.span)

/-- **What is read nests by its lines and keeps its order.** -/
theorem nested_of_read {path source : String} {words : List Token} {cs : List Command} (hwords : tokens path source = .ok words)
    (hcs : Reader.program words = .ok cs) : Nested words cs := by
  have horder := (laid_of_tokens hwords).inOrder.1
  obtain ⟨pieces, rfl, hpieces⟩ := Reader.commands_pieces hcs
  refine ⟨horder.proper, horder.order, ⟨pieces, rfl, ?_⟩, ?_⟩
  · obtain ⟨hlength, hread⟩ := List.forall₂_iff_zip.1 hpieces
    refine List.forall₂_iff_zip.2 ⟨hlength, fun {c ws} hmem => ?_⟩
    obtain ⟨key, gs, parts, rfl, hc⟩ := hread hmem
    have hin : (key :: parts.flatten).Sublist pieces.flatten := List.sublist_flatten_of_mem (List.of_mem_zip hmem).2
    exact ⟨key, gs, parts, rfl, Command.nested_of_readFrom hc (horder.sublist hin)⟩
  · refine (spans_of_forall₂ ?_ hpieces horder).2
    rintro c ws ⟨key, gs, parts, rfl, hc⟩ hws
    exact hc.spans hws

/-- A list in a list, with a string over two lines whose span begins left of the list. -/
theorem nested_of_read_function :
    let source := "function \x7bf\x7d\n\x7b \x7b \"a\nb\" \x7d\n\x7d\nread"
    let string : Span := ⟨"a.bst", 2, 1, 3, 8⟩
    let words : List Token :=
      [⟨.name "function", ⟨"a.bst", 1, 1, 1, 9⟩⟩, ⟨.opening, ⟨"a.bst", 1, 10, 1, 11⟩⟩, ⟨.name "f", ⟨"a.bst", 1, 11, 1, 12⟩⟩,
       ⟨.closing, ⟨"a.bst", 1, 12, 1, 13⟩⟩, ⟨.opening, ⟨"a.bst", 2, 1, 2, 2⟩⟩, ⟨.opening, ⟨"a.bst", 2, 3, 2, 4⟩⟩,
       ⟨.string "a\nb", string⟩, ⟨.closing, ⟨"a.bst", 3, 4, 3, 5⟩⟩, ⟨.closing, ⟨"a.bst", 4, 1, 4, 2⟩⟩,
       ⟨.name "read", ⟨"a.bst", 5, 1, 5, 5⟩⟩]
    let body : Group := ⟨[.block [.string "a\nb" string] ⟨"a.bst", 2, 3, 3, 5⟩], ⟨"a.bst", 2, 1, 4, 2⟩⟩
    let cs : List Command := [.function "f" body ⟨"a.bst", 1, 1, 4, 9⟩, .read ⟨"a.bst", 5, 1, 5, 5⟩]
    tokens "a.bst" source = .ok words ∧ Reader.program words = .ok cs ∧ Nested words cs := by
  intro source string words body cs
  have hwords : tokens "a.bst" source = .ok words := by decide +kernel
  have hcs : Reader.program words = .ok cs := by decide +kernel
  exact ⟨hwords, hcs, nested_of_read hwords hcs⟩

end Source
end Bibstyle
