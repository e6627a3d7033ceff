import Bibstyle.Proofs.Grammar
import Bibstyle.Proofs.Positions
/-!
# Extents — where words, lists and commands stand in a source

Every term is read from words that follow one another, and so are the lists of a command behind its keyword.  A list covers
its two braces, and a command its keyword and the braces of its last list.  So what is reported of a word, a list or a command
begins in the line of its first character and ends in the line of its last.  On one line it begins and ends where they do, and
over several lines it has the least and the greatest of the columns that are covered, wherever these are.
-/
namespace Bibstyle

/-! ## What is read from which words -/

/-- **A term read from words**: a literal has the place of its word, and a list covers its two braces. -/
inductive Term.ReadFrom : Term → List Token → Prop where
  | literal {t : Term} {w : Token} (h : t.lexemes = [w.lexeme]) (hspan : t.span = w.span) : ReadFrom t [w]
  | block {ts : List Term} {o c : Token} {parts : List (List Token)} (ho : o.lexeme = .opening) (hc : c.lexeme = .closing)
    (h : List.Forall₂ ReadFrom ts parts) : ReadFrom (.block ts (o.span.cover c.span)) (o :: (parts.flatten ++ [c]))

/-- **The lists of a command**, those of names and strings included that it does not keep. -/
inductive Command.MadeOf : Command → Keyword → List Group → Prop where
  | entry {fields ints strs : Group} {span : Span} : MadeOf (.entry fields ints strs span) .entry [fields, ints, strs]
  | function {name : String} {body : Group} {s t span : Span} :
    MadeOf (.function name body span) .function [⟨[.name name s], t⟩, body]
  | integers {names : Group} {span : Span} : MadeOf (.integers names span) .integers [names]
  | strings {names : Group} {span : Span} : MadeOf (.strings names span) .strings [names]
  | abbreviation {name value : String} {s t u v span : Span} :
    MadeOf (.abbreviation name value span) .abbreviation [⟨[.name name s], t⟩, ⟨[.string value u], v⟩]
  | run {mode : RunMode} {name : String} {s t span : Span} : MadeOf (.run mode name span) (.run mode) [⟨[.name name s], t⟩]
  | read {span : Span} : MadeOf (.read span) .read []
  | sort {span : Span} : MadeOf (.sort span) .sort []

/-- **A command read from words**: its keyword, and the words of each list.  It covers the keyword and the last list. -/
structure Command.ReadFrom (c : Command) (key : Token) (gs : List Group) (parts : List (List Token)) : Prop where
  made : ∃ k : Keyword, key.lexeme = .name k.word ∧ c.MadeOf k gs
  lists : List.Forall₂ (fun g part => g.toTerm.ReadFrom part) gs parts
  span : c.span = gs.getLast?.elim key.span (fun g => key.span.cover g.span)

/-! ## Lists at any depth -/

mutual

/-- **The lists in a term**, at any depth. -/
def Term.lists : Term → List Group
  | .block ts s => ⟨ts, s⟩ :: Term.listsAll ts
  | .integer _ _ | .string _ _ | .quoted _ _ | .name _ _ | .field _ _ | .entryInteger _ _ | .entryString _ _ => []

def Term.listsAll : List Term → List Group
  | [] => []
  | t :: ts => t.lists ++ Term.listsAll ts

end

/-- **The lists that a command keeps**, at any depth. -/
def Command.lists : Command → List Group
  | .entry fields ints strs _ => fields.toTerm.lists ++ ints.toTerm.lists ++ strs.toTerm.lists
  | .function _ body _ => body.toTerm.lists
  | .integers names _ | .strings names _ => names.toTerm.lists
  | .abbreviation _ _ _ | .run _ _ _ | .read _ | .sort _ => []

/-- A list of words inside another, with the list read from it. -/
def Group.ReadWithin (g : Group) (words : List Token) : Prop :=
  ∃ before part after, words = before ++ part ++ after ∧ g.toTerm.ReadFrom part

theorem Group.ReadWithin.around {g : Group} {words : List Token} (h : g.ReadWithin words) (front rest : List Token) :
    g.ReadWithin (front ++ words ++ rest) := by
  obtain ⟨before, part, after, rfl, hpart⟩ := h
  exact ⟨front ++ before, part, after ++ rest, by simp, hpart⟩

mutual

theorem Term.ReadFrom.within : ∀ {t : Term} {words : List Token}, t.ReadFrom words → ∀ g ∈ t.lists, g.ReadWithin words
  | .block ts s, words, h, g, hg => by
    cases h with
    | literal h => simp [Term.lexemes] at h
    | @block _ o c parts ho hc h =>
      obtain rfl | hg := List.mem_cons.1 hg
      · exact ⟨[], _, [], by simp, .block ho hc h⟩
      · exact (Term.ReadFrom.withinAll h g hg).around [o] [c]
  | .integer _ _, _, _, _, hg | .string _ _, _, _, _, hg | .quoted _ _, _, _, _, hg | .name _ _, _, _, _, hg
  | .field _ _, _, _, _, hg | .entryInteger _ _, _, _, _, hg | .entryString _ _, _, _, _, hg => by cases hg

theorem Term.ReadFrom.withinAll : ∀ {ts : List Term} {parts : List (List Token)}, List.Forall₂ Term.ReadFrom ts parts →
    ∀ g ∈ Term.listsAll ts, g.ReadWithin parts.flatten
  | [], _, _, _, hg => by cases hg
  | t :: ts, _, h, g, hg => by
    cases h with
    | @cons _ part _ parts ht hts =>
      rw [List.flatten_cons]
      obtain hg | hg := List.mem_append.1 hg
      · exact (ht.within g hg).around [] parts.flatten
      · simpa using (Term.ReadFrom.withinAll hts g hg).around part []

end

/-- **Every list of a command, at any depth, is read from words behind its keyword.** -/
theorem Command.ReadFrom.withinAll {c : Command} {key : Token} {gs : List Group} {parts : List (List Token)}
    (h : c.ReadFrom key gs parts) : ∀ g ∈ Term.listsAll (gs.map Group.toTerm), g.ReadWithin parts.flatten := by
  refine Term.ReadFrom.withinAll ?_
  rw [List.forall₂_map_left_iff]
  exact h.lists

theorem Command.MadeOf.lists_subset {c : Command} {k : Keyword} {gs : List Group} (h : c.MadeOf k gs) :
    ∀ g ∈ c.lists, g ∈ Term.listsAll (gs.map Group.toTerm) := by
  intro g hg
  cases h with
  | entry => simpa [Command.lists, Term.listsAll] using hg
  | function => simp_all [Command.lists, Term.listsAll]
  | integers | strings => simpa [Command.lists, Term.listsAll] using hg
  | abbreviation | run | read | sort => cases hg

/-- **Every list that a command keeps is read from words of the command.** -/
theorem Command.ReadFrom.within {c : Command} {key : Token} {gs : List Group} {parts : List (List Token)}
    (h : c.ReadFrom key gs parts) : ∀ g ∈ c.lists, g.ReadWithin (key :: parts.flatten) := by
  intro g hg
  obtain ⟨k, -, hmade⟩ := h.made
  simpa using (h.withinAll g (hmade.lists_subset g hg)).around [key] []

/-- A list is read from its braces and what stands between them. -/
theorem Group.braces_of_readFrom {g : Group} {words : List Token} (h : g.toTerm.ReadFrom words) :
    ∃ o inner c, words = o :: (inner ++ [c]) ∧ o.lexeme = .opening ∧ c.lexeme = .closing ∧ g.span = o.span.cover c.span := by
  obtain ⟨ts, span⟩ := g
  cases h with
  | literal h => simp [Group.toTerm, Term.lexemes] at h
  | block ho hc h => exact ⟨_, _, _, rfl, ho, hc, rfl⟩

/-- A command has no lists, or a last one. -/
theorem Command.ReadFrom.last_list {c : Command} {key : Token} {gs : List Group} {parts : List (List Token)}
    (h : c.ReadFrom key gs parts) : (parts = [] ∧ c.span = key.span) ∨
      ∃ (init : List (List Token)) (final : List Token) (g : Group), parts = init ++ [final] ∧ g.toTerm.ReadFrom final ∧
        c.span = key.span.cover g.span := by
  have hspan := h.span
  have hlists := List.forall₂_reverse_iff.2 h.lists
  rw [← List.reverse_reverse gs, List.getLast?_reverse] at hspan
  rw [← List.reverse_reverse parts]
  generalize gs.reverse = gs', parts.reverse = parts' at hlists hspan
  cases hlists with
  | nil => exact .inl ⟨rfl, hspan⟩
  | cons hg _ => exact .inr ⟨_, _, _, List.reverse_cons, hg, hspan⟩

/-! ## The readers -/

namespace Reader

variable {last : Last} {place : Place}

theorem opening_ok {ts rest : List Token} {s : Span} (h : opening last place ts = .ok (s, rest)) :
    ∃ o, ts = o :: rest ∧ o.lexeme = .opening ∧ s = o.span := by
  cases ts with
  | nil => cases h
  | cons o ts =>
    simp only [opening] at h
    split at h
    · rename_i ho
      cases h
      exact ⟨o, rfl, ho, rfl⟩
    · cases h

section Names

variable {make : String → Span → Term} (hmake : ∀ n s, (make n s).lexemes = [.name n] ∧ (make n s).span = s)
include hmake

theorem namesToClose_readFrom {ts rest : List Token} {r : List Term × Span}
    (h : namesToClose last place make ts = .ok (r, rest)) :
    ∃ parts c, ts = parts.flatten ++ c :: rest ∧ c.lexeme = .closing ∧ r.2 = c.span ∧
      List.Forall₂ Term.ReadFrom r.1 parts := by
  induction ts generalizing r with
  | nil => cases h
  | cons t ts ih =>
    simp only [namesToClose] at h
    split at h
    · rename_i ht
      cases h
      exact ⟨[], t, rfl, ht, rfl, .nil⟩
    · rename_i n ht
      split at h
      · cases h
      · rename_i names close rest' hmore
        cases h
        obtain ⟨parts, c, rfl, hc, hclose, hnames⟩ := ih hmore
        have hname : (make n t.span).ReadFrom [t] := .literal (by rw [(hmake n t.span).1, ht]) (hmake n t.span).2
        exact ⟨[t] :: parts, c, by simp, hc, hclose, .cons hname hnames⟩
    · cases h

theorem nameList_readFrom {ts rest : List Token} {g : Group} (h : nameList last place make ts = .ok (g, rest)) :
    ∃ front, ts = front ++ rest ∧ g.toTerm.ReadFrom front := by
  unfold nameList at h
  split at h
  · cases h
  · rename_i start ts' hopen
    obtain ⟨o, rfl, ho, rfl⟩ := opening_ok hopen
    split at h
    · cases h
    · rename_i names close rest' hnames
      obtain ⟨parts, c, rfl, hc, hclose, hterms⟩ := namesToClose_readFrom hmake hnames
      cases h
      cases hclose
      exact ⟨o :: (parts.flatten ++ [c]), by simp, .block ho hc hterms⟩

end Names

theorem singleName_readFrom {ts rest : List Token} {r : String × Span} (h : singleName last place ts = .ok (r, rest)) :
    ∃ front s, ts = front ++ rest ∧ (Group.mk [.name r.1 s] r.2).toTerm.ReadFrom front := by
  unfold singleName at h
  split at h
  · cases h
  · rename_i n s span rest' hlist
    obtain ⟨front, rfl, hfront⟩ := nameList_readFrom (fun _ _ => ⟨rfl, rfl⟩) hlist
    cases h
    exact ⟨front, s, rfl, hfront⟩
  · cases h

theorem singleString_readFrom {ts rest : List Token} {r : String × Span} (h : singleString last place ts = .ok (r, rest)) :
    ∃ front s, ts = front ++ rest ∧ (Group.mk [.string r.1 s] r.2).toTerm.ReadFrom front := by
  unfold singleString at h
  split at h
  · cases h
  · cases h
  · rename_i start t ts' hopen
    obtain ⟨o, rfl, ho, rfl⟩ := opening_ok hopen
    split at h
    · rename_i value ht
      split at h
      · cases h
      · rename_i u rest'
        split at h
        · rename_i hu
          cases h
          have hvalue : (Term.string value t.span).ReadFrom [t] := .literal (by rw [Term.lexemes, ht]) rfl
          exact ⟨o :: ([[t]].flatten ++ [u]), t.span, by simp, .block ho hu (.cons hvalue .nil)⟩
        · cases h
    · cases h

/-- **A block that is still open, read from words**: its brace, and the words of its terms. -/
def Open.ReadFrom (b : Open) (words : List Token) : Prop :=
  ∃ o parts, words = o :: parts.flatten ∧ o.lexeme = .opening ∧ b.start = o.span ∧
    List.Forall₂ Term.ReadFrom b.done.reverse parts

theorem Open.ReadFrom.add {b : Open} {words part : List Token} {t : Term} (h : b.ReadFrom words) (ht : t.ReadFrom part) :
    (b.add t).ReadFrom (words ++ part) := by
  obtain ⟨o, parts, rfl, ho, hstart, hdone⟩ := h
  refine ⟨o, parts ++ [part], by simp, ho, hstart, ?_⟩
  rw [Open.add, List.reverse_cons]
  exact List.rel_append hdone (.cons ht .nil)

theorem Open.ReadFrom.close {b : Open} {words : List Token} {c : Token} (h : b.ReadFrom words) (hc : c.lexeme = .closing) :
    (b.close c.span).toTerm.ReadFrom (words ++ [c]) := by
  obtain ⟨o, parts, rfl, ho, hstart, hdone⟩ := h
  rw [Open.close, Group.toTerm, hstart]
  exact .block ho hc hdone

/-- **The rest of a body is read from the words that follow**, behind those of the blocks that are open. -/
theorem blocksToClose_readFrom : ∀ {ts rest : List Token} {inner : Open} {outer : List Open} {g : Group}
    {words : List Token} {around : List (List Token)}, blocksToClose last inner outer ts = .ok (g, rest) →
      inner.ReadFrom words → List.Forall₂ Open.ReadFrom outer around →
        ∃ front, ts = front ++ rest ∧ g.toTerm.ReadFrom (around.reverse.flatten ++ words ++ front)
  | [], _, _, _, _, _, _, h, _, _ => by simp [blocksToClose] at h
  | t :: ts, rest, inner, outer, g, words, around, h, hinner, houter => by
    -- a literal is added to the innermost block, and its word is the last of the words so far
    have hadd : ∀ {u : Term}, u.lexemes = [t.lexeme] → u.span = t.span →
        blocksToClose last (inner.add u) outer ts = .ok (g, rest) →
          ∃ front, t :: ts = front ++ rest ∧ g.toTerm.ReadFrom (around.reverse.flatten ++ words ++ front) := by
      intro u hu hspan h
      obtain ⟨front, rfl, hg⟩ := blocksToClose_readFrom h (hinner.add (.literal hu hspan)) houter
      exact ⟨t :: front, rfl, by simpa using hg⟩
    unfold blocksToClose at h
    split at h <;> rename_i ht
    · split at h
      · cases h
        cases houter
        exact ⟨[t], rfl, hinner.close ht⟩
      · cases houter with
        | cons haround houter =>
          obtain ⟨front, rfl, hg⟩ := blocksToClose_readFrom h (haround.add (hinner.close ht)) houter
          exact ⟨t :: front, rfl, by simpa using hg⟩
    · have hopen : (Open.mk t.span []).ReadFrom [t] := ⟨t, [], rfl, ht, rfl, .nil⟩
      obtain ⟨front, rfl, hg⟩ := blocksToClose_readFrom h hopen (.cons hinner houter)
      exact ⟨t :: front, rfl, by simpa using hg⟩
    all_goals exact hadd (by rw [ht]; rfl) rfl h

theorem body_readFrom {ts rest : List Token} {g : Group} (h : body last ts = .ok (g, rest)) :
    ∃ front, ts = front ++ rest ∧ g.toTerm.ReadFrom front := by
  unfold body at h
  split at h
  · cases h
  · rename_i start ts' hopen
    obtain ⟨o, rfl, ho, rfl⟩ := opening_ok hopen
    obtain ⟨front, rfl, hg⟩ := blocksToClose_readFrom h ⟨o, [], rfl, ho, rfl, .nil⟩ .nil
    exact ⟨o :: front, rfl, hg⟩

section Commands

variable {key : Token} {ts rest : List Token} {c : Command}

theorem entryLists_readFrom (hkey : key.lexeme = .name Keyword.entry.word)
    (h : entryLists last key.span ts = .ok (c, rest)) :
    ∃ gs parts, ts = parts.flatten ++ rest ∧ c.ReadFrom key gs parts := by
  unfold entryLists at h
  split at h
  · cases h
  · rename_i fields ts' hfields
    obtain ⟨a, rfl, ha⟩ := nameList_readFrom (fun _ _ => ⟨rfl, rfl⟩) hfields
    split at h
    · cases h
    · rename_i ints ts' hints
      obtain ⟨b, rfl, hb⟩ := nameList_readFrom (fun _ _ => ⟨rfl, rfl⟩) hints
      split at h
      · cases h
      · rename_i strs ts' hstrs
        obtain ⟨d, rfl, hd⟩ := nameList_readFrom (fun _ _ => ⟨rfl, rfl⟩) hstrs
        cases h
        exact ⟨[fields, ints, strs], [a, b, d], by simp, ⟨.entry, hkey, .entry⟩, .cons ha (.cons hb (.cons hd .nil)), rfl⟩

theorem functionParts_readFrom (hkey : key.lexeme = .name Keyword.function.word)
    (h : functionParts last key.span ts = .ok (c, rest)) :
    ∃ gs parts, ts = parts.flatten ++ rest ∧ c.ReadFrom key gs parts := by
  unfold functionParts at h
  split at h
  · cases h
  · rename_i name span ts' hname
    obtain ⟨a, s, rfl, ha⟩ := singleName_readFrom hname
    split at h
    · cases h
    · rename_i g ts' hbody
      obtain ⟨b, rfl, hb⟩ := body_readFrom hbody
      cases h
      exact ⟨_, [a, b], by simp, ⟨.function, hkey, .function⟩, .cons ha (.cons hb .nil), rfl⟩

theorem abbreviationParts_readFrom (hkey : key.lexeme = .name Keyword.abbreviation.word)
    (h : abbreviationParts last key.span ts = .ok (c, rest)) :
    ∃ gs parts, ts = parts.flatten ++ rest ∧ c.ReadFrom key gs parts := by
  unfold abbreviationParts at h
  split at h
  · cases h
  · rename_i name span ts' hname
    obtain ⟨a, s, rfl, ha⟩ := singleName_readFrom hname
    split at h
    · cases h
    · rename_i value span' ts' hvalue
      obtain ⟨b, u, rfl, hb⟩ := singleString_readFrom hvalue
      cases h
      exact ⟨_, [a, b], by simp, ⟨.abbreviation, hkey, .abbreviation⟩, .cons ha (.cons hb .nil), rfl⟩

theorem declaration_readFrom {make : Group → Span → Command} {k : Keyword} (hkey : key.lexeme = .name k.word)
    (hmade : ∀ g s, (make g s).MadeOf k [g]) (hspan : ∀ g s, (make g s).span = s)
    (h : declaration last place make key.span ts = .ok (c, rest)) :
    ∃ gs parts, ts = parts.flatten ++ rest ∧ c.ReadFrom key gs parts := by
  unfold declaration at h
  split at h
  · cases h
  · rename_i names ts' hnames
    obtain ⟨a, rfl, ha⟩ := nameList_readFrom (fun _ _ => ⟨rfl, rfl⟩) hnames
    cases h
    exact ⟨[names], [a], by simp, ⟨k, hkey, hmade _ _⟩, .cons ha .nil, hspan _ _⟩

theorem runTarget_readFrom {mode : RunMode} (hkey : key.lexeme = .name (Keyword.run mode).word)
    (h : runTarget last mode key.span ts = .ok (c, rest)) :
    ∃ gs parts, ts = parts.flatten ++ rest ∧ c.ReadFrom key gs parts := by
  unfold runTarget at h
  split at h
  · cases h
  · rename_i name span ts' hname
    obtain ⟨a, s, rfl, ha⟩ := singleName_readFrom hname
    cases h
    exact ⟨_, [a], by simp, ⟨.run mode, hkey, .run⟩, .cons ha .nil, rfl⟩

theorem afterKeyword_readFrom {k : Keyword} (hkey : key.lexeme = .name k.word)
    (h : afterKeyword last key.span ts k = .ok (c, rest)) :
    ∃ gs parts, ts = parts.flatten ++ rest ∧ c.ReadFrom key gs parts := by
  cases k with
  | entry => exact entryLists_readFrom hkey h
  | function => exact functionParts_readFrom hkey h
  | integers => exact declaration_readFrom hkey (fun _ _ => .integers) (fun _ _ => rfl) h
  | strings => exact declaration_readFrom hkey (fun _ _ => .strings) (fun _ _ => rfl) h
  | abbreviation => exact abbreviationParts_readFrom hkey h
  | run mode => exact runTarget_readFrom hkey h
  | read =>
    cases h
    exact ⟨[], [], rfl, ⟨.read, hkey, .read⟩, .nil, rfl⟩
  | sort =>
    cases h
    exact ⟨[], [], rfl, ⟨.sort, hkey, .sort⟩, .nil, rfl⟩

theorem command_readFrom (h : command last key ts = .ok (c, rest)) :
    ∃ gs parts, ts = parts.flatten ++ rest ∧ c.ReadFrom key gs parts := by
  unfold command at h
  split at h
  · rename_i w hkey
    split at h
    · rename_i k hk
      rw [← keyword_of?_iff.1 hk] at hkey
      exact afterKeyword_readFrom hkey h
    · cases h
  · cases h

end Commands

/-- **Every command is read from words of its own**, behind the words of the commands before it. -/
theorem commands_readFrom {ts : List Token} {cs : List Command} (h : commands last ts = .ok cs) {done todo : List Command}
    {c : Command} (hcs : cs = done ++ c :: todo) :
    ∃ before key gs parts after, ts = before ++ (key :: parts.flatten) ++ after ∧
      before.map (·.lexeme) = done.flatMap Command.lexemes ∧ c.ReadFrom key gs parts := by
  fun_induction commands last ts generalizing cs done with
  | case1 =>
    cases h
    cases done <;> cases hcs
  | case2 => cases h
  | case3 => cases h
  | case4 t ts d rest hd _ ds hmore ih =>
    cases h
    cases done with
    | nil =>
      cases hcs
      obtain ⟨gs, parts, rfl, hc⟩ := command_readFrom hd
      exact ⟨[], t, gs, parts, rest, rfl, rfl, hc⟩
    | cons d' done =>
      obtain ⟨rfl, hrest⟩ := List.cons.inj hcs
      obtain ⟨before, key, gs, parts, after, rfl, hbefore, hc⟩ := ih hmore hrest
      obtain ⟨front, hts, -, hfront⟩ := command_sound hd
      refine ⟨front ++ before, key, gs, parts, after, by simpa using hts, ?_, hc⟩
      rw [List.map_append, hbefore, List.flatMap_cons, hfront]

end Reader

/-! ## Extents -/

namespace Source

/-- **The extent of a span of some words**, behind the words before them: they stand in a stretch of the source, and the span
reaches over some columns of the stretch, from its first line to its last.  It runs from the first character to the last
exactly if none of these columns is outside theirs, and always if the stretch is of one line. -/
structure Extent (path : String) (source : List Char) (before words : List Token) (front text rest : List Char) (span : Span)
    (cols : List Nat) : Prop where
  source_eq : source = front ++ text ++ rest
  laid : Laid path .start front before (text ++ rest)
  stretch : Stretch path (Spot.start.after front) words text rest
  reaches : span.Reaches path (Spot.start.after front) ((Spot.start.after front).last text) cols
  right_iff : span = (Spot.start.after front).upTo ((Spot.start.after front).last text) path ↔
    ∀ col ∈ cols, (Spot.start.after front).col ≤ col ∧ col ≤ ((Spot.start.after front).last text).col
  right_of_line : '\n' ∉ text → span = (Spot.start.after front).upTo ((Spot.start.after front).last text) path

section Extents

variable {path : String} {source : List Char} {before words : List Token} {front text rest : List Char}

theorem Extent.of_reaches {span : Span} {cols : List Nat} (hsource : source = front ++ text ++ rest)
    (hlaid : Laid path .start front before (text ++ rest)) (hstretch : Stretch path (Spot.start.after front) words text rest)
    (h : span.Reaches path (Spot.start.after front) ((Spot.start.after front).last text) cols)
    (hcols : ∀ col ∈ cols, col ∈ (Spot.start.after front).cols text) (hfirst : (Spot.start.after front).col ∈ cols)
    (hlast : ((Spot.start.after front).last text).col ∈ cols) :
    Extent path source before words front text rest span cols where
  source_eq := hsource
  laid := hlaid
  stretch := hstretch
  reaches := h
  right_iff := h.eq_upTo_iff hfirst hlast
  right_of_line hline :=
    (h.eq_upTo_iff hfirst hlast).2 fun col hcol => Spot.cols_between hline _ col (hcols col hcol)

theorem Stretch.reaches_one {p : Spot} {t : Token} (h : Stretch path p [t] text rest) :
    t.span.Reaches path p (p.last text) (p.cols text) := by
  generalize hwords : [t] = words at h
  cases h with
  | one hpiece hspan =>
    cases hwords
    rw [hspan]
    exact reaches_box p path hpiece.ne_nil
  | more => simp at hwords

/-- **A list reaches over the columns of its braces.** -/
theorem Stretch.reaches_braces {p : Spot} {o c : Token} {inner : List Token} (ho : o.lexeme = .opening)
    (hc : c.lexeme = .closing) (h : Stretch path p (o :: (inner ++ [c])) text rest) :
    (o.span.cover c.span).Reaches path p (p.last text) [p.col, (p.last text).col] := by
  generalize hwords : o :: (inner ++ [c]) = words at h
  cases h with
  | one => simp at hwords
  | @more _ _ ts text mid text' rest hfirst hspan _ hlast hspan' =>
    obtain ⟨rfl, hend⟩ := List.cons.inj hwords
    cases (List.append_inj' hend rfl).2
    rw [ho] at hfirst
    rw [hc] at hlast
    cases hfirst
    cases hlast
    have hbrace : p.last (['\x7b'] ++ mid ++ ['\x7d']) = p.after (['\x7b'] ++ mid) := by rw [Spot.last, List.dropLast_concat]
    rw [hspan, hspan', hbrace]
    exact (Span.reaches_one p path).cover (Span.reaches_one _ path) (p.line_le_after _) (p.line_le_after _)

/-- **The columns that a command reaches over**: those of its keyword and, if it has lists, of the braces of the last. -/
inductive CommandCols (path : String) (p : Spot) (key : Token) (text rest : List Char) :
    List (List Token) → List Nat → Prop where
  | keyword : CommandCols path p key text rest [] (p.cols text)
  | lists {init : List (List Token)} {final : List Token} {keyword gap list : List Char}
    (htext : text = keyword ++ gap ++ list) (hkey : Stretch path p [key] keyword (gap ++ list ++ rest))
    (hlist : Stretch path (p.after (keyword ++ gap)) final list rest) :
    CommandCols path p key text rest (init ++ [final])
      (p.cols keyword ++ [(p.after (keyword ++ gap)).col, (p.last text).col])

theorem Stretch.reaches_list {p : Spot} {g : Group} (hg : g.toTerm.ReadFrom words) (h : Stretch path p words text rest) :
    g.span.Reaches path p (p.last text) [p.col, (p.last text).col] := by
  obtain ⟨o, inner, c, rfl, ho, hc, hspan⟩ := Group.braces_of_readFrom hg
  rw [hspan]
  exact h.reaches_braces ho hc

/-- **A command reaches over the columns of its keyword and of the braces of its last list.** -/
theorem Stretch.reaches_command {p : Spot} {c : Command} {key : Token} {gs : List Group} {parts : List (List Token)}
    (hc : c.ReadFrom key gs parts) (h : Stretch path p (key :: parts.flatten) text rest) :
    ∃ cols, CommandCols path p key text rest parts cols ∧ c.span.Reaches path p (p.last text) cols ∧
      (∀ col ∈ cols, col ∈ p.cols text) ∧ p.col ∈ cols ∧ (p.last text).col ∈ cols := by
  obtain ⟨rfl, hspan⟩ | ⟨init, final, g, rfl, hg, hspan⟩ := hc.last_list
  · rw [hspan]
    exact ⟨p.cols text, .keyword, h.reaches_one, fun _ hcol => hcol, p.col_mem_cols h.ne_nil, p.col_last_mem_cols h.ne_nil⟩
  · obtain ⟨o, inner, d, rfl, -⟩ := Group.braces_of_readFrom hg
    rw [List.flatten_append, List.flatten_singleton] at h
    obtain ⟨keyword, gap, list, rfl, hkey, hlist⟩ := h.split
    have hlast : p.last (keyword ++ gap ++ list) = (p.after (keyword ++ gap)).last list := p.last_append _ hlist.ne_nil
    have hline : (p.last keyword).line ≤ (p.last (keyword ++ gap ++ list)).line := by
      rw [List.append_assoc]
      exact p.line_le_last_append _ _
    have hreach := hlist.reaches_list hg
    rw [← hlast] at hreach
    refine ⟨_, .lists rfl hkey hlist, ?_, ?_, ?_, ?_⟩
    · rw [hspan]
      exact hkey.reaches_one.cover hreach (p.line_le_after _) hline
    · rw [List.forall_mem_append, List.forall_mem_cons, List.forall_mem_singleton, p.cols_append, p.cols_append]
      refine ⟨fun col hcol => ?_, ?_, ?_⟩
      · exact List.mem_append_left _ (List.mem_append_left _ hcol)
      · exact List.mem_append_right _ (Spot.col_mem_cols _ hlist.ne_nil)
      · rw [hlast]
        exact List.mem_append_right _ (Spot.col_last_mem_cols _ hlist.ne_nil)
    · exact List.mem_append_left _ (p.col_mem_cols hkey.ne_nil)
    · simp

variable {after : List Token}

theorem stretch_of_laid (h : Laid path .start source (before ++ words ++ after) []) (hne : words ≠ []) :
    ∃ front text rest, source = front ++ text ++ rest ∧ Laid path .start front before (text ++ rest) ∧
      Stretch path (Spot.start.after front) words text rest := by
  obtain ⟨front, text, rest, hsource, hfront, hstretch⟩ := h.stretch hne
  rw [List.append_nil] at hfront hstretch
  exact ⟨front, text, rest, hsource, hfront, hstretch⟩

/-- **The extent of a word**, over all its columns. -/
theorem extent_of_word {t : Token} (h : Laid path .start source (before ++ [t] ++ after) []) :
    ∃ front text rest, Extent path source before [t] front text rest t.span ((Spot.start.after front).cols text) := by
  obtain ⟨front, text, rest, hsource, hfront, hstretch⟩ := stretch_of_laid h (List.cons_ne_nil _ _)
  exact ⟨front, text, rest, .of_reaches hsource hfront hstretch hstretch.reaches_one (fun _ hcol => hcol)
    (Spot.col_mem_cols _ hstretch.ne_nil) (Spot.col_last_mem_cols _ hstretch.ne_nil)⟩

/-- **The extent of a list**, over the columns of its braces. -/
theorem extent_of_list {g : Group} (h : Laid path .start source (before ++ words ++ after) [])
    (hg : g.toTerm.ReadFrom words) :
    ∃ front text rest, Extent path source before words front text rest g.span
      [(Spot.start.after front).col, ((Spot.start.after front).last text).col] := by
  have hne : words ≠ [] := by
    obtain ⟨o, inner, c, rfl, -⟩ := Group.braces_of_readFrom hg
    exact List.cons_ne_nil _ _
  obtain ⟨front, text, rest, hsource, hfront, hstretch⟩ := stretch_of_laid h hne
  refine ⟨front, text, rest, .of_reaches hsource hfront hstretch (hstretch.reaches_list hg) ?_ (by simp) (by simp)⟩
  rw [List.forall_mem_cons, List.forall_mem_singleton]
  exact ⟨Spot.col_mem_cols _ hstretch.ne_nil, Spot.col_last_mem_cols _ hstretch.ne_nil⟩

/-- **The extent of a command**, over the columns of its keyword and of the braces of its last list. -/
theorem extent_of_command {c : Command} {key : Token} {gs : List Group} {parts : List (List Token)}
    (h : Laid path .start source (before ++ (key :: parts.flatten) ++ after) []) (hc : c.ReadFrom key gs parts) :
    ∃ front text rest cols, Extent path source before (key :: parts.flatten) front text rest c.span cols ∧
      CommandCols path (Spot.start.after front) key text rest parts cols := by
  obtain ⟨front, text, rest, hsource, hfront, hstretch⟩ := stretch_of_laid h (List.cons_ne_nil _ _)
  obtain ⟨cols, hcols, hreaches, hsub, hfirst, hlast⟩ := hstretch.reaches_command hc
  exact ⟨front, text, rest, cols, .of_reaches hsource hfront hstretch hreaches hsub hfirst hlast, hcols⟩

end Extents

/-- **What is reported of a source that can be read.**  Every word has its extent and reaches over all its columns.  Every
command is read from words of its own, behind those of the commands before it, and reaches over the columns of its keyword and
of the braces of its last list.  Every list in it, at any depth, reaches over the columns of its braces. -/
structure Placed (path : String) (source : List Char) (words : List Token) (cs : List Command) : Prop where
  word : ∀ before t after, words = before ++ t :: after → ∃ front text rest,
    Extent path source before [t] front text rest t.span ((Spot.start.after front).cols text)
  command : ∀ done c todo, cs = done ++ c :: todo → ∃ before key gs parts after,
    words = before ++ (key :: parts.flatten) ++ after ∧ before.map (·.lexeme) = done.flatMap Command.lexemes ∧
    c.ReadFrom key gs parts ∧
    (∃ front text rest cols, Extent path source before (key :: parts.flatten) front text rest c.span cols ∧
      CommandCols path (Spot.start.after front) key text rest parts cols) ∧
    ∀ g ∈ c.lists, ∃ inside part outside front text rest, key :: parts.flatten = inside ++ part ++ outside ∧
      g.toTerm.ReadFrom part ∧ Extent path source (before ++ inside) part front text rest g.span
        [(Spot.start.after front).col, ((Spot.start.after front).last text).col]

/-- **Every word, list and command of a source that can be read is reported in its own lines**, and on one line at its own
columns.  Over several lines its columns are its own exactly if it covers none to the left of its first character or to the
right of its last. -/
theorem placed_of_read {path source : String} {words : List Token} {cs : List Command}
    (hwords : tokens path source = .ok words) (hcs : Reader.program words = .ok cs) : Placed path source.toList words cs := by
  have hlaid := laid_of_tokens hwords
  constructor
  · rintro before t after rfl
    rw [List.append_cons] at hlaid
    exact extent_of_word hlaid
  · intro done c todo hsplit
    obtain ⟨before, key, gs, parts, after, rfl, hbefore, hc⟩ := Reader.commands_readFrom hcs hsplit
    refine ⟨before, key, gs, parts, after, rfl, hbefore, hc, extent_of_command hlaid hc, ?_⟩
    intro g hg
    obtain ⟨inside, part, outside, hinside, hread⟩ := hc.within g hg
    have hwhole : before ++ (key :: parts.flatten) ++ after = (before ++ inside) ++ part ++ (outside ++ after) := by
      rw [hinside]
      simp
    rw [hwhole] at hlaid
    obtain ⟨front, text, rest, hextent⟩ := extent_of_list hlaid hread
    exact ⟨inside, part, outside, front, text, rest, hinside, hread, hextent⟩

theorem placed_of_read_function :
    ∃ words cs, tokens "a.bst" "function \x7bf\x7d\n  \x7b \"b\nc\" \x7d" = .ok words ∧ Reader.program words = .ok cs ∧
      Placed "a.bst" "function \x7bf\x7d\n  \x7b \"b\nc\" \x7d".toList words cs := by
  have hwords : tokens "a.bst" "function \x7bf\x7d\n  \x7b \"b\nc\" \x7d" = .ok [⟨.name "function", ⟨"a.bst", 1, 1, 1, 9⟩⟩,
      ⟨.opening, ⟨"a.bst", 1, 10, 1, 11⟩⟩, ⟨.name "f", ⟨"a.bst", 1, 11, 1, 12⟩⟩, ⟨.closing, ⟨"a.bst", 1, 12, 1, 13⟩⟩,
      ⟨.opening, ⟨"a.bst", 2, 3, 2, 4⟩⟩, ⟨.string "b\nc", ⟨"a.bst", 2, 1, 3, 8⟩⟩, ⟨.closing, ⟨"a.bst", 3, 4, 3, 5⟩⟩] := by
    decide +kernel
  have hcs : Reader.program [⟨.name "function", ⟨"a.bst", 1, 1, 1, 9⟩⟩, ⟨.opening, ⟨"a.bst", 1, 10, 1, 11⟩⟩,
      ⟨.name "f", ⟨"a.bst", 1, 11, 1, 12⟩⟩, ⟨.closing, ⟨"a.bst", 1, 12, 1, 13⟩⟩, ⟨.opening, ⟨"a.bst", 2, 3, 2, 4⟩⟩,
      ⟨.string "b\nc", ⟨"a.bst", 2, 1, 3, 8⟩⟩, ⟨.closing, ⟨"a.bst", 3, 4, 3, 5⟩⟩] =
      .ok [.function "f" ⟨[.string "b\nc" ⟨"a.bst", 2, 1, 3, 8⟩], ⟨"a.bst", 2, 3, 3, 5⟩⟩ ⟨"a.bst", 1, 1, 3, 9⟩] := by
    decide +kernel
  exact ⟨_, _, hwords, hcs, placed_of_read hwords hcs⟩

/-- A list whose closing brace stands to the left of its opening one is not reported at the columns of its braces, and neither
is the command that ends with it. -/
theorem list_beyond_braces :
    let p := Spot.start.after "INTEGERS\n  ".toList
    let q := p.last "\x7b a\n\x7d".toList
    ∃ words names span, tokens "a.bst" ("INTEGERS\n  " ++ "\x7b a\n\x7d") = .ok words ∧
      Reader.program words = .ok [.integers names span] ∧
      names.span = ⟨"a.bst", 2, 1, 3, 4⟩ ∧ p.upTo q "a.bst" = ⟨"a.bst", 2, 3, 3, 2⟩ ∧
      span = ⟨"a.bst", 1, 1, 3, 9⟩ ∧ Spot.start.upTo q "a.bst" = ⟨"a.bst", 1, 1, 3, 2⟩ :=
  ⟨[⟨.name "integers", ⟨"a.bst", 1, 1, 1, 9⟩⟩, ⟨.opening, ⟨"a.bst", 2, 3, 2, 4⟩⟩, ⟨.name "a", ⟨"a.bst", 2, 5, 2, 6⟩⟩,
      ⟨.closing, ⟨"a.bst", 3, 1, 3, 2⟩⟩], ⟨[.name "a" ⟨"a.bst", 2, 5, 2, 6⟩], ⟨"a.bst", 2, 1, 3, 4⟩⟩, ⟨"a.bst", 1, 1, 3, 9⟩,
    by decide +kernel, by decide +kernel, rfl, by decide +kernel, rfl, by decide +kernel⟩

end Source
end Bibstyle
