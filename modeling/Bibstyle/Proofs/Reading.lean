import Bibstyle.Fault
/-!
# Reading — what a source can be read as

Every word is cut out of the source, and its span covers the characters it was cut from; the span of a list in braces covers
its braces, and that of a command reaches from its keyword to its end.  So whatever holds of the characters' spans, and of the
cover of two spans if it holds of both, holds of every span that is ever reported or kept.  The grammar decides which kinds of
terms stand where: a list of names holds names of its own kind, and a body holds none that belong to entries.
-/
namespace Bibstyle

/-! ## Spans -/

namespace Span

theorem coverAll?_pair {a b : Span} (h : a.path = b.path) : coverAll? [a, b] = some (a.cover b) := by
  simp [coverAll?, h]

/-- **A span made of others**: one of them, or the cover of two that are of one source. -/
inductive Drawn (base : List Span) : Span → Prop where
  | one {s : Span} (h : s ∈ base) : Drawn base s
  | cover {a b s : Span} (ha : Drawn base a) (hb : Drawn base b) (h : coverAll? [a, b] = some s) : Drawn base s

theorem Drawn.path {base : List Span} {path : String} (hbase : ∀ b ∈ base, b.path = path) {s : Span} (h : Drawn base s) :
    s.path = path := by
  induction h with
  | one h => exact hbase _ h
  | @cover a b s _ _ h iha ihb =>
    rw [coverAll?_pair (iha.trans ihb.symm)] at h
    cases h
    exact iha

/-- Of one source, any two spans have a cover. -/
theorem Drawn.both {base : List Span} {path : String} (hbase : ∀ b ∈ base, b.path = path) {a b : Span} (ha : Drawn base a)
    (hb : Drawn base b) : Drawn base (a.cover b) :=
  .cover ha hb (coverAll?_pair ((ha.path hbase).trans (hb.path hbase).symm))

end Span

/-! ## Words -/

namespace Source

theorem path_locateFrom (path : String) : ∀ (s : List Char) (line col : Nat), ∀ l ∈ locateFrom path line col s, l.span.path = path
  | [], _, _ => nofun
  | c :: s, line, col => by
    unfold locateFrom
    refine List.forall_mem_cons.2 ⟨rfl, ?_⟩
    split
    · exact path_locateFrom path s _ _
    · exact path_locateFrom path s _ _

section Spans

variable {P : Span → Prop} (hcover : ∀ a b, P a → P b → P (a.cover b))
include hcover

theorem spanOver_at : ∀ (ls : List Located) {first : Span}, P first → (∀ l ∈ ls, P l.span) → P (spanOver first ls)
  | [], _, hfirst, _ => hfirst
  | l :: ls, first, hfirst, hls => by
    rw [List.forall_mem_cons] at hls
    have hboth : P (first.cover l.span) := hcover _ _ hfirst hls.1
    exact spanOver_at ls hboth hls.2

/-- **A step reports and keeps only spans of its characters.** -/
theorem cut_at {first : Located} {rest : List Located} (hfirst : P first.span) (hrest : ∀ l ∈ rest, P l.span) :
    match cut first rest with
    | .ok k => (∀ t ∈ k.token, P t.span) ∧ ∀ l ∈ k.rest, P l.span
    | .error e => ∃ s, e.span? = some s ∧ P s := by
  have htake : ∀ p, ∀ l ∈ rest.takeWhile p, P l.span := fun p l hl => hrest l ((List.takeWhile_sublist p).subset hl)
  have hdrop : ∀ p, ∀ l ∈ rest.dropWhile p, P l.span := fun p l hl => hrest l ((List.dropWhile_sublist p).subset hl)
  have hword : ∀ {lexeme : Lexeme} {span : Span}, P span → ∀ t ∈ some (Token.mk lexeme span), P t.span := by
    intro lexeme span hspan t ht
    cases ht
    exact hspan
  have hrun : P (spanOver first.span (nameRun rest).1) := spanOver_at hcover _ hfirst (htake _)
  have hafter : ∀ l ∈ (nameRun rest).2, P l.span := hdrop _
  cases hclass : CharClass.of first.char with
  | comment =>
    simp only [cut_eq, hclass]
    exact ⟨nofun, fun l hl => hdrop _ l (List.mem_of_mem_drop hl)⟩
  | blank | other =>
    simp only [cut_eq, hclass]
    exact ⟨nofun, hrest⟩
  | opening | closing =>
    simp only [cut_eq, hclass]
    exact ⟨hword hfirst, hrest⟩
  | string =>
    simp only [cut_eq, hclass]
    cases hend : rest.dropWhile (fun l => l.char != '"') with
    | nil => exact ⟨_, rfl, hfirst⟩
    | cons last after =>
      have hlast := hdrop (fun l => l.char != '"')
      rw [hend, List.forall_mem_cons] at hlast
      exact ⟨hword (hcover _ _ (spanOver_at hcover _ hfirst (htake _)) hlast.1), hlast.2⟩
  | integer =>
    simp only [cut_eq, hclass]
    rcases hname : nameRun rest with ⟨run, after⟩
    rw [hname] at hrun hafter
    cases run with
    | nil => exact ⟨_, rfl, hfirst⟩
    | cons l ls =>
      dsimp only
      cases Decimal.read? (Text.lower ((l :: ls).map (·.char))) with
      | none => exact ⟨_, rfl, hrun⟩
      | some n => exact ⟨hword hrun, hafter⟩
  | quoted =>
    simp only [cut_eq, hclass]
    rcases hname : nameRun rest with ⟨run, after⟩
    rw [hname] at hrun hafter
    cases run with
    | nil => exact ⟨_, rfl, hfirst⟩
    | cons l ls => exact ⟨hword hrun, hafter⟩
  | name =>
    simp only [cut_eq, hclass]
    exact ⟨hword hrun, hafter⟩

theorem scan_at (ls : List Located) (hls : ∀ l ∈ ls, P l.span) :
    match scan ls with
    | .ok ts => ∀ t ∈ ts, P t.span
    | .error e => ∃ s, e.span? = some s ∧ P s := by
  fun_induction scan ls with
  | case1 => exact nofun
  | case2 first rest e hcut =>
    rw [List.forall_mem_cons] at hls
    have hstep := cut_at hcover hls.1 hls.2
    rw [hcut] at hstep
    exact hstep
  | case3 first rest k hcut _ e hscan ih =>
    rw [List.forall_mem_cons] at hls
    have hstep := cut_at hcover hls.1 hls.2
    rw [hcut] at hstep
    have hrest := ih hstep.2
    rw [hscan] at hrest
    exact hrest
  | case4 first rest k hcut _ ts hscan ih =>
    rw [List.forall_mem_cons] at hls
    have hstep := cut_at hcover hls.1 hls.2
    rw [hcut] at hstep
    have hrest := ih hstep.2
    rw [hscan] at hrest
    exact List.forall_mem_append.2 ⟨fun t ht => hstep.1 t (by simpa using ht), hrest⟩

end Spans

/-- The spans of the characters of a source. -/
def places (path source : String) : List Span :=
  (locate path source.toList).map (·.span)

theorem path_places (path source : String) : ∀ s ∈ places path source, s.path = path := by
  intro s hs
  obtain ⟨l, hl, rfl⟩ := List.mem_map.1 hs
  exact path_locateFrom path source.toList 1 1 l hl

/-- **Every word and every lexical fault has a place in the source.** -/
theorem tokens_drawn (path source : String) :
    match tokens path source with
    | .ok ts => ∀ t ∈ ts, t.span.Drawn (places path source)
    | .error e => ∃ s, e.span? = some s ∧ s.Drawn (places path source) :=
  scan_at (fun _ _ => Span.Drawn.both (path_places path source)) _
    (fun l hl => .one (List.mem_map.2 ⟨l, hl, rfl⟩))

end Source

/-! ## Commands -/

/-- **A term that may stand in a body**, at any depth, with its places. -/
inductive Term.InBody (P : Span → Prop) : Term → Prop where
  | block {ts : List Term} {span : Span} (hts : ∀ t ∈ ts, InBody P t) (h : P span) : InBody P (.block ts span)
  | integer {n : Int32} {span : Span} (h : P span) : InBody P (.integer n span)
  | string {v : String} {span : Span} (h : P span) : InBody P (.string v span)
  | quoted {n : String} {span : Span} (h : P span) : InBody P (.quoted n span)
  | name {n : String} {span : Span} (h : P span) : InBody P (.name n span)

/-- **A list of names**, all of one kind. -/
structure Group.Lists (P : Span → Prop) (make : String → Span → Term) (g : Group) : Prop where
  terms : ∀ t ∈ g.terms, ∃ n s, t = make n s ∧ P s
  span : P g.span

/-- **A command as the grammar has it.** -/
def Command.Grammatical (P : Span → Prop) : Command → Prop
  | .entry fields ints strs span => fields.Lists P .field ∧ ints.Lists P .entryInteger ∧ strs.Lists P .entryString ∧ P span
  | .function _ body span => body.toTerm.InBody P ∧ P span
  | .integers names span | .strings names span => names.Lists P .name ∧ P span
  | .abbreviation _ _ span | .run _ _ span | .read span | .sort span => P span

/-- **A grammar fault that has its places.** -/
def GrammarFault.At (P : Span → Prop) : GrammarFault → Prop
  | .unexpected _ t => P t.span
  | .endOfInput _ last => ∀ s ∈ last, P s
  | .notOneName _ s | .unknownCommand _ s => P s
  | .remark _ => False

namespace Reader

section Spans

variable {α : Type} {P : Span → Prop} {Q : α → Prop}

/-- **What comes of reading**: a value as wanted, and words that have their places; or a fault that has. -/
def Reads (P : Span → Prop) (Q : α → Prop) : Outcome α → Prop
  | .ok (a, rest) => Q a ∧ ∀ t ∈ rest, P t.span
  | .error e => e.At P

theorem Reads.cases {x : Outcome α} (h : Reads P Q x) :
    (∃ e, x = .error e ∧ e.At P) ∨ ∃ a rest, x = .ok (a, rest) ∧ Q a ∧ ∀ t ∈ rest, P t.span := by
  cases x with
  | error e => exact .inl ⟨e, rfl, h⟩
  | ok r => exact .inr ⟨r.1, r.2, rfl, h⟩

variable {last : Last} {ts : List Token} (hlast : ∀ s ∈ last, P s)
include hlast

theorem reads_opening (place : Place) (hts : ∀ t ∈ ts, P t.span) : Reads P P (opening last place ts) := by
  cases ts with
  | nil => exact hlast
  | cons t ts =>
    rw [List.forall_mem_cons] at hts
    simp only [opening]
    split
    · exact hts
    · exact hts.1

theorem reads_namesToClose (place : Place) (make : String → Span → Term) : ∀ {ts : List Token}, (∀ t ∈ ts, P t.span) →
    Reads P (fun r => (∀ t ∈ r.1, ∃ n s, t = make n s ∧ P s) ∧ P r.2) (namesToClose last place make ts)
  | [], _ => hlast
  | t :: ts, hts => by
    rw [List.forall_mem_cons] at hts
    unfold namesToClose
    split
    · exact ⟨⟨nofun, hts.1⟩, hts.2⟩
    · obtain ⟨e, h, he⟩ | ⟨r, rest, h, hr, hrest⟩ := (reads_namesToClose place make hts.2).cases
      · simp only [h]
        exact he
      simp only [h]
      exact ⟨⟨List.forall_mem_cons.2 ⟨⟨_, _, rfl, hts.1⟩, hr.1⟩, hr.2⟩, hrest⟩
    · exact hts.1

variable (hcover : ∀ a b, P a → P b → P (a.cover b))
include hcover

theorem reads_nameList (place : Place) (make : String → Span → Term) (hts : ∀ t ∈ ts, P t.span) :
    Reads P (Group.Lists P make) (nameList last place make ts) := by
  unfold nameList
  obtain ⟨e, h, he⟩ | ⟨start, ts, h, hstart, hts⟩ := (reads_opening hlast place hts).cases
  · simp only [h]
    exact he
  simp only [h]
  obtain ⟨e, h, he⟩ | ⟨r, ts, h, hr, hts⟩ := (reads_namesToClose hlast place make hts).cases
  · simp only [h]
    exact he
  simp only [h]
  exact ⟨⟨hr.1, hcover _ _ hstart hr.2⟩, hts⟩

theorem reads_singleName (place : Place) (hts : ∀ t ∈ ts, P t.span) : Reads P (fun r => P r.2) (singleName last place ts) := by
  unfold singleName
  obtain ⟨e, h, he⟩ | ⟨g, ts, h, hg, hts⟩ := (reads_nameList hlast hcover place .name hts).cases
  · simp only [h]
    exact he
  simp only [h]
  split
  · rename_i heq
    cases heq
  · rename_i heq
    cases heq
    exact ⟨hg.span, hts⟩
  · rename_i heq
    cases heq
    exact hg.span

theorem reads_singleString (place : Place) (hts : ∀ t ∈ ts, P t.span) :
    Reads P (fun r => P r.2) (singleString last place ts) := by
  unfold singleString
  obtain ⟨e, h, he⟩ | ⟨start, ts, h, hstart, hts⟩ := (reads_opening hlast place hts).cases
  · simp only [h]
    exact he
  simp only [h]
  cases ts with
  | nil => exact hlast
  | cons t ts =>
    rw [List.forall_mem_cons] at hts
    dsimp only
    split
    · cases ts with
      | nil => exact hlast
      | cons u rest =>
        rw [List.forall_mem_cons] at hts
        dsimp only
        split
        · exact ⟨hcover _ _ hstart hts.2.1, hts.2.2⟩
        · exact hts.2.1
    · exact hts.1

/-- A block that is still open, in a body. -/
structure Open.InBody (P : Span → Prop) (b : Open) : Prop where
  start : P b.start
  done : ∀ t ∈ b.done, t.InBody P

omit hlast hcover in
theorem Open.InBody.add {b : Open} {t : Term} (h : b.InBody P) (ht : t.InBody P) : (b.add t).InBody P :=
  ⟨h.start, List.forall_mem_cons.2 ⟨ht, h.done⟩⟩

omit hlast in
theorem Open.InBody.close {b : Open} {close : Span} (h : b.InBody P) (hclose : P close) :
    (b.close close).toTerm.InBody P :=
  .block (fun t ht => h.done t (List.mem_reverse.1 ht)) (hcover _ _ h.start hclose)

/-- **A body holds only what may stand in one**; so do the blocks that are still open, all along. -/
theorem reads_blocksToClose : ∀ {ts : List Token} {inner : Open} {outer : List Open}, (∀ t ∈ ts, P t.span) →
    inner.InBody P → (∀ b ∈ outer, b.InBody P) → Reads P (fun g => g.toTerm.InBody P) (blocksToClose last inner outer ts)
  | [], _, _, _, _, _ => by
    unfold blocksToClose
    exact hlast
  | t :: ts, inner, outer, hts, hinner, houter => by
    rw [List.forall_mem_cons] at hts
    unfold blocksToClose
    split
    · have hclosed := hinner.close hcover hts.1
      split
      · exact ⟨hclosed, hts.2⟩
      · rw [List.forall_mem_cons] at houter
        exact reads_blocksToClose hts.2 (houter.1.add hclosed) houter.2
    · exact reads_blocksToClose hts.2 ⟨hts.1, List.forall_mem_nil _⟩ (List.forall_mem_cons.2 ⟨hinner, houter⟩)
    · exact reads_blocksToClose hts.2 (hinner.add (.name hts.1)) houter
    · exact reads_blocksToClose hts.2 (hinner.add (.quoted hts.1)) houter
    · exact reads_blocksToClose hts.2 (hinner.add (.string hts.1)) houter
    · exact reads_blocksToClose hts.2 (hinner.add (.integer hts.1)) houter

theorem reads_body (hts : ∀ t ∈ ts, P t.span) : Reads P (fun g => g.toTerm.InBody P) (body last ts) := by
  unfold body
  obtain ⟨e, h, he⟩ | ⟨start, ts, h, hstart, hts⟩ := (reads_opening hlast .functionBody hts).cases
  · simp only [h]
    exact he
  simp only [h]
  exact reads_blocksToClose hlast hcover hts ⟨hstart, List.forall_mem_nil _⟩ (List.forall_mem_nil _)

theorem reads_declaration (place : Place) {make : Group → Span → Command} {key : Span}
    (hmake : ∀ g s, g.Lists P .name → P s → (make g s).Grammatical P) (hkey : P key) (hts : ∀ t ∈ ts, P t.span) :
    Reads P (Command.Grammatical P) (declaration last place make key ts) := by
  unfold declaration
  obtain ⟨e, h, he⟩ | ⟨g, ts, h, hg, hts⟩ := (reads_nameList hlast hcover place .name hts).cases
  · simp only [h]
    exact he
  simp only [h]
  exact ⟨hmake _ _ hg (hcover _ _ hkey hg.span), hts⟩

theorem reads_entryLists {key : Span} (hkey : P key) (hts : ∀ t ∈ ts, P t.span) :
    Reads P (Command.Grammatical P) (entryLists last key ts) := by
  unfold entryLists
  obtain ⟨e, h, he⟩ | ⟨fields, ts, h, hfields, hts⟩ := (reads_nameList hlast hcover .entryFields .field hts).cases
  · simp only [h]
    exact he
  simp only [h]
  obtain ⟨e, h, he⟩ | ⟨ints, ts, h, hints, hts⟩ := (reads_nameList hlast hcover .entryIntegers .entryInteger hts).cases
  · simp only [h]
    exact he
  simp only [h]
  obtain ⟨e, h, he⟩ | ⟨strs, ts, h, hstrs, hts⟩ := (reads_nameList hlast hcover .entryStrings .entryString hts).cases
  · simp only [h]
    exact he
  simp only [h]
  exact ⟨⟨hfields, hints, hstrs, hcover _ _ hkey hstrs.span⟩, hts⟩

theorem reads_functionParts {key : Span} (hkey : P key) (hts : ∀ t ∈ ts, P t.span) :
    Reads P (Command.Grammatical P) (functionParts last key ts) := by
  unfold functionParts
  obtain ⟨e, h, he⟩ | ⟨n, ts, h, -, hts⟩ := (reads_singleName hlast hcover .functionName hts).cases
  · simp only [h]
    exact he
  simp only [h]
  obtain ⟨e, h, he⟩ | ⟨g, ts, h, hg, hts⟩ := (reads_body hlast hcover hts).cases
  · simp only [h]
    exact he
  simp only [h]
  refine ⟨⟨hg, ?_⟩, hts⟩
  cases hg with
  | block _ hspan => exact hcover _ _ hkey hspan

theorem reads_abbreviationParts {key : Span} (hkey : P key) (hts : ∀ t ∈ ts, P t.span) :
    Reads P (Command.Grammatical P) (abbreviationParts last key ts) := by
  unfold abbreviationParts
  obtain ⟨e, h, he⟩ | ⟨n, ts, h, -, hts⟩ := (reads_singleName hlast hcover .abbreviationName hts).cases
  · simp only [h]
    exact he
  simp only [h]
  obtain ⟨e, h, he⟩ | ⟨v, ts, h, hv, hts⟩ := (reads_singleString hlast hcover .abbreviationValue hts).cases
  · simp only [h]
    exact he
  simp only [h]
  exact ⟨hcover _ _ hkey hv, hts⟩

theorem reads_runTarget (mode : RunMode) {key : Span} (hkey : P key) (hts : ∀ t ∈ ts, P t.span) :
    Reads P (Command.Grammatical P) (runTarget last mode key ts) := by
  unfold runTarget
  obtain ⟨e, h, he⟩ | ⟨n, ts, h, hn, hts⟩ := (reads_singleName hlast hcover (.target mode) hts).cases
  · simp only [h]
    exact he
  simp only [h]
  exact ⟨hcover _ _ hkey hn, hts⟩

theorem reads_command {t : Token} (ht : P t.span) (hts : ∀ t ∈ ts, P t.span) :
    Reads P (Command.Grammatical P) (command last t ts) := by
  unfold command
  split
  · split
    · rename_i k _
      cases k with
      | entry => exact reads_entryLists hlast hcover ht hts
      | function => exact reads_functionParts hlast hcover ht hts
      | integers => exact reads_declaration hlast hcover .integers (fun _ _ hg hs => And.intro hg hs) ht hts
      | strings => exact reads_declaration hlast hcover .strings (fun _ _ hg hs => And.intro hg hs) ht hts
      | abbreviation => exact reads_abbreviationParts hlast hcover ht hts
      | run mode => exact reads_runTarget hlast hcover mode ht hts
      | read | sort => exact ⟨ht, hts⟩
    · exact ht
  · exact ht

theorem commands_at (hts : ∀ t ∈ ts, P t.span) :
    match commands last ts with
    | .ok cs => ∀ c ∈ cs, c.Grammatical P
    | .error e => e.At P := by
  fun_induction commands last ts with
  | case1 => exact nofun
  | case2 t ts e hc =>
    rw [List.forall_mem_cons] at hts
    have hfirst := reads_command hlast hcover hts.1 hts.2
    rw [hc] at hfirst
    exact hfirst
  | case3 t ts c rest hc _ e hmore ih =>
    rw [List.forall_mem_cons] at hts
    have hfirst := reads_command hlast hcover hts.1 hts.2
    rw [hc] at hfirst
    have hrest := ih hfirst.2
    rw [hmore] at hrest
    exact hrest
  | case4 t ts c rest hc _ cs hmore ih =>
    rw [List.forall_mem_cons] at hts
    have hfirst := reads_command hlast hcover hts.1 hts.2
    rw [hc] at hfirst
    have hrest := ih hfirst.2
    rw [hmore] at hrest
    exact List.forall_mem_cons.2 ⟨hfirst.1, hrest⟩

end Spans

/-- **Every command of a source is as the grammar has it**, and every span in it, or in the fault that there is instead, has a
place in the source. -/
theorem program_drawn {path source : String} {words : List Token} (hwords : Source.tokens path source = .ok words) :
    match program words with
    | .ok cs => ∀ c ∈ cs, c.Grammatical (Span.Drawn (Source.places path source))
    | .error e => e.At (Span.Drawn (Source.places path source)) := by
  have hdrawn := Source.tokens_drawn path source
  rw [hwords] at hdrawn
  refine commands_at ?_ (fun _ _ => Span.Drawn.both (Source.path_places path source)) hdrawn
  intro s hs
  obtain ⟨t, ht, rfl⟩ := Option.map_eq_some_iff.1 hs
  exact hdrawn t (List.mem_of_getLast? ht)

end Reader
end Bibstyle
