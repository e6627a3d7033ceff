import Bibstyle.Proofs.Braces
import Bibstyle.Proofs.Faults
import Bibstyle.Proofs.Lexis
/-!
# Header — the comments that a script opens with

The comments at the top of a style are cut at line feeds, and each is written as one comment of the script.  To the script a
carriage return ends a line as well.  So a comment stays a comment as long as whatever follows a carriage return in it looks
like one.  A style whose lines end in line feeds, with or without carriage returns before them, is safe.
-/
namespace Bibstyle

/-! ## Comments at the top of a source -/

namespace Text

theorem splitLines_head : ∀ {s l : List Char} {ls : List (List Char)}, splitLines s = l :: ls → l <+: s
  | [], l, ls, h => by
    cases h
    exact List.prefix_rfl
  | c :: s, l, ls, h => by
    rw [splitLines] at h
    split at h
    · cases h
      exact List.nil_prefix
    · split at h
      · cases h
        exact List.cons_prefix_cons.2 ⟨rfl, List.nil_prefix⟩
      · rename_i m ms hs
        cases h
        exact List.cons_prefix_cons.2 ⟨rfl, splitLines_head hs⟩

/-- The pieces between line feeds have none, and each stands somewhere in the text. -/
theorem splitLines_spec : ∀ {s l : List Char}, l ∈ splitLines s → '\n' ∉ l ∧ l <:+: s
  | [], l, h => by
    rw [List.mem_singleton.1 h]
    exact ⟨List.not_mem_nil, List.infix_rfl⟩
  | c :: s, l, h => by
    have hlater : l ∈ splitLines s → '\n' ∉ l ∧ l <:+: c :: s :=
      fun hl => ⟨(splitLines_spec hl).1, List.infix_cons (splitLines_spec hl).2⟩
    rw [splitLines] at h
    split at h
    · rcases List.mem_cons.1 h with rfl | h
      · exact ⟨List.not_mem_nil, List.nil_infix⟩
      · exact hlater h
    · rename_i hc
      split at h
      · rw [List.mem_singleton.1 h]
        exact ⟨fun hfeed => hc (List.mem_singleton.1 hfeed).symm, [], s, rfl⟩
      · rename_i m ms hs
        rcases List.mem_cons.1 h with rfl | h
        · have hm : m ∈ splitLines s := by rw [hs]; exact List.mem_cons_self
          refine ⟨fun hfeed => ?_, (List.cons_prefix_cons.2 ⟨rfl, splitLines_head hs⟩).isInfix⟩
          rcases List.mem_cons.1 hfeed with hfeed | hfeed
          · exact hc hfeed.symm
          · exact (splitLines_spec hm).1 hfeed
        · exact hlater (by rw [hs]; exact List.mem_cons_of_mem m h)

theorem isPrefix_trimEnd (s : List Char) : trimEnd s <+: s := by
  obtain ⟨t, ht⟩ := List.dropWhile_suffix isBlank (l := s.reverse)
  refine ⟨t.reverse, ?_⟩
  rw [trimEnd, ← List.reverse_append, ht, List.reverse_reverse]

/-- A carriage return that ends a text is taken away with the blanks at its end. -/
theorem return_not_mem_trimEnd {s : List Char} (h : ∀ before after, s = before ++ '\r' :: after → after = []) :
    '\r' ∉ trimEnd s := by
  intro hmem
  obtain ⟨before, after, hsplit⟩ := List.append_of_mem hmem
  obtain ⟨rest, hrest⟩ := isPrefix_trimEnd s
  have hafter : after ++ rest = [] := by
    refine h before (after ++ rest) ?_
    rw [← hrest, hsplit, List.append_assoc, List.cons_append]
  obtain ⟨rfl, rfl⟩ := List.append_eq_nil_iff.1 hafter
  -- then the text ends in the carriage return, which is blank
  have hlast : (s.reverse.dropWhile isBlank) = '\r' :: before.reverse := by
    have hreversed := congrArg List.reverse hsplit
    rwa [trimEnd, List.reverse_reverse, List.reverse_append] at hreversed
  have hblank := List.head?_dropWhile_not isBlank s.reverse
  rw [hlast] at hblank
  have hreturn : isBlank '\r' = false := hblank
  exact absurd hreturn (by decide)

end Text

namespace Source

variable {source : String}

theorem isInfix_commentText (line : List Char) : commentText line <:+: line := by
  have hbody : line.dropWhile (· == '%') <:+ line := List.dropWhile_suffix _
  unfold commentText
  dsimp only
  split
  · rename_i text htext
    exact (Text.isPrefix_trimEnd text).isInfix.trans ((List.suffix_cons ' ' text).trans (htext ▸ hbody)).isInfix
  · exact (Text.isPrefix_trimEnd _).isInfix.trans hbody.isInfix

/-- What a comment at the top says stands in some line of the source, without the blanks around it. -/
theorem mem_preface {c : String} (h : c ∈ preface source) : ∃ l ∈ Text.splitLines source.toList, c.toList <:+: Text.trim l := by
  unfold preface at h
  obtain ⟨text, htext, rfl⟩ := List.mem_map.1 h
  have htexts := (List.dropWhile_sublist _).mem (List.mem_reverse.1 htext)
  obtain ⟨line, hline, rfl⟩ := List.mem_map.1 (List.mem_reverse.1 htexts)
  have hblock := (List.takeWhile_sublist _).mem ((List.dropWhile_sublist _).mem hline)
  obtain ⟨l, hl, rfl⟩ := List.mem_map.1 hblock
  refine ⟨l, hl, ?_⟩
  rw [String.toList_ofList]
  exact isInfix_commentText _

theorem isInfix_trim (l : List Char) : Text.trim l <:+: l :=
  (Text.isPrefix_trimEnd _).isInfix.trans (List.dropWhile_suffix Text.isBlank).isInfix

theorem feed_not_mem_preface {c : String} (h : c ∈ preface source) : '\n' ∉ c.toList := by
  obtain ⟨l, hl, hc⟩ := mem_preface h
  intro hfeed
  exact (Text.splitLines_spec hl).1 ((hc.trans (isInfix_trim l)).subset hfeed)

/-- **A carriage return that stands before a line feed, or at the end, is in no comment.** -/
theorem return_not_mem_preface (hsource : source.toList.IsChain (fun a b => a = '\r' → b = '\n')) {c : String}
    (h : c ∈ preface source) : '\r' ∉ c.toList := by
  obtain ⟨l, hl, hc⟩ := mem_preface h
  obtain ⟨hfeed, start, rest, hl⟩ := Text.splitLines_spec hl
  intro hreturn
  refine Text.return_not_mem_trimEnd ?_ (hc.subset hreturn)
  intro before after hsplit
  obtain ⟨blanks, hblanks⟩ := List.dropWhile_suffix Text.isBlank (l := l)
  have hbefore : source.toList = (start ++ blanks ++ before) ++ '\r' :: (after ++ rest) := by
    rw [← hl, ← hblanks, show l.dropWhile Text.isBlank = _ from hsplit]
    simp
  have hafter : '\n' ∉ after := by
    intro hmem
    refine hfeed ?_
    rw [← hblanks, show l.dropWhile Text.isBlank = _ from hsplit]
    simp [hmem]
  cases after with
  | nil => rfl
  | cons x after =>
    rw [hbefore, List.isChain_append, List.cons_append, List.isChain_cons_cons] at hsource
    exact absurd List.mem_cons_self (hsource.2.1.1 rfl ▸ hafter)

end Source

/-! ## Commands leave the comments alone -/

/-- Two sessions come from one source: their scripts open alike. -/
structure Session.SameTop (s s' : Session) : Prop where
  sourceName : s'.sourceName = s.sourceName
  comments : s'.comments = s.comments

namespace Session.SameTop

theorem refl (s : Session) : s.SameTop s :=
  ⟨rfl, rfl⟩

theorem trans {s s₁ s₂ : Session} (h : s.SameTop s₁) (h' : s₁.SameTop s₂) : s.SameTop s₂ :=
  ⟨h'.sourceName.trans h.sourceName, h'.comments.trans h.comments⟩

end Session.SameTop

namespace Step

open Session (after)

/-- **A step that leaves the top of the script alone**, whether it fails or not. -/
def KeepsTop {α : Type} (x : Step α) : Prop :=
  ∀ s : Session, s.SameTop (after (x s))

theorem KeepsTop.bind {α β : Type} {x : Step α} {f : α → Step β} (hx : KeepsTop x) (hf : ∀ a, KeepsTop (f a)) :
    KeepsTop (x >>= f) := by
  intro s
  have hfirst := hx s
  simp only [Bind.bind, EStateM.bind]
  cases hresult : x s with
  | ok a s' =>
    rw [hresult] at hfirst
    exact hfirst.trans (hf a s')
  | error e s' =>
    rw [hresult] at hfirst
    exact hfirst

theorem KeepsTop.ok {α : Type} {x : Step α} (h : KeepsTop x) {s s' : Session} {a : α} (hx : x s = .ok a s') : s.SameTop s' := by
  have htop := h s
  rw [hx] at htop
  exact htop

theorem keepsTop_requireNew (n : String) : KeepsTop (requireNew n) := by
  intro s
  rw [requireNew_apply]
  split <;> exact .refl s

theorem keepsTop_declare (n : String) (m : Meaning) : KeepsTop (declare n m) := by
  intro s
  rw [declare_apply]
  split <;> exact ⟨rfl, rfl⟩

theorem keepsTop_declareAll {make : String → Step Meaning} (hmake : ∀ n, KeepsTop (make n)) :
    ∀ ts : List Term, KeepsTop (declareAll make ts)
  | [] => Session.SameTop.refl
  | t :: ts => by
    unfold declareAll
    cases t.name? with
    | none => exact Session.SameTop.refl
    | some n =>
      refine .bind (keepsTop_requireNew n) (fun _ => .bind (hmake n) (fun m => ?_))
      exact .bind (keepsTop_declare n m) (fun _ => keepsTop_declareAll hmake ts)

theorem keepsTop_command (c : Command) : KeepsTop (command c) := by
  have hplain : ∀ (m : Meaning) (ts : List Term), KeepsTop (declareAll (fun _ => return m) ts) :=
    fun m ts => keepsTop_declareAll (fun _ _ => ⟨rfl, rfl⟩) ts
  have hglobals : ∀ (t : Ty) (make : String → Meaning) (ts : List Term),
      KeepsTop (declareAll (fun n => return make (← newGlobal t n)) ts) :=
    fun t make ts => keepsTop_declareAll (fun _ _ => ⟨rfl, rfl⟩) ts
  cases c with
  | entry fields integers strings =>
    exact .bind (fun _ => ⟨rfl, rfl⟩) (fun _ => .bind (hplain _ _) (fun _ => .bind (hplain _ _) (fun _ => hplain _ _)))
  | function n body =>
    intro s
    change s.SameTop (after (function n body s))
    rw [function_apply]
    split
    · exact .refl s
    · dsimp only
      split <;> exact ⟨rfl, rfl⟩
  | integers names => exact hglobals _ _ _
  | strings names => exact hglobals _ _ _
  | run mode f span =>
    intro s
    change s.SameTop (after (run mode f span s))
    rw [run_apply]
    split <;> exact ⟨rfl, rfl⟩
  | abbreviation | read | sort => exact fun _ => ⟨rfl, rfl⟩

theorem keepsTop_commands : ∀ cs : List Command, KeepsTop (commands cs)
  | [] => Session.SameTop.refl
  | c :: cs => .bind (keepsTop_command c) (fun _ => keepsTop_commands cs)

end Step

/-- Reading a source keeps its name, and its comments are those at the top. -/
theorem Session.readSource_top {source : String} {s s' : Session} {u : Unit} (h : readSource source s = .ok u s') :
    s'.sourceName = s.sourceName ∧ s'.comments = Source.preface source := by
  rw [readSource_apply] at h
  dsimp only at h
  split at h
  · cases h
  · split at h
    · cases h
    · rename_i cs _
      split at h
      · rename_i hcommands
        cases h
        obtain ⟨hname, hcomments⟩ := (Step.keepsTop_commands cs).ok hcommands
        dsimp only at hname hcomments
        exact ⟨hname, hcomments⟩
      · cases h

/-- **What is known of the session that a script is written from.** -/
theorem compileString_session {source script : String} {o : Options} (h : compileString source o = .ok script) :
    ∃ s : Session, s.script = script ∧ s.sourceName = "<input>" ∧ s.comments = Source.preface source := by
  unfold compileString at h
  rw [Session.compile_apply] at h
  have hname : (Session.new "<input>" o).sourceName = "<input>" := rfl
  generalize Session.new "<input>" o = start at h hname
  cases hread : Session.readSource source start with
  | error e s =>
    rw [hread] at h
    cases h
  | ok u s =>
    rw [hread] at h
    obtain ⟨hsource, hcomments⟩ := Session.readSource_top hread
    exact ⟨s, Except.ok.inj h, hsource.trans hname, hcomments⟩

/-! ## The header -/

/-- **A header of comments**, where some characters end a line: comments, and then one blank line. -/
def IsHeader (endsLine : Char → Bool) (header : List Char) : Prop :=
  ∃ lines, header.splitOnP endsLine = lines ++ [[], []] ∧ ∀ l ∈ lines, "//".toList <+: l

namespace Line

theorem toList_renderAll_cons (l : Line) (ls : List Line) (h : l.depth = 0) :
    (renderAll "" (l :: ls)).toList = l.text.toList ++ '\n' :: (renderAll "" ls).toList := by
  simp [renderAll, render, String.toList_join, String.toList_append, h, indentation]

theorem toList_renderAll_append (ls ms : List Line) :
    (renderAll "" (ls ++ ms)).toList = (renderAll "" ls).toList ++ (renderAll "" ms).toList := by
  simp [renderAll, String.toList_join]

theorem splitOnP_renderAll {p : Char → Bool} (hp : p '\n' = true) : ∀ {ls : List Line}, (∀ l ∈ ls, l.depth = 0) →
    (renderAll "" ls).toList.splitOnP p = ls.flatMap (fun l => l.text.toList.splitOnP p) ++ [[]]
  | [], _ => rfl
  | l :: ls, h => by
    obtain ⟨hl, hls⟩ := List.forall_mem_cons.1 h
    rw [toList_renderAll_cons l ls hl, List.splitOnP_append_cons _ _ hp, splitOnP_renderAll hp hls, List.flatMap_cons,
      List.append_assoc]

end Line

namespace Session

/-- The lines of the header but for the blank one. -/
def topLines (s : Session) : List Line :=
  ⟨0, "// Generated by bstgroovy from " ++ s.sourceName⟩ ::
    if s.comments.isEmpty then [] else ⟨0, "//"⟩ :: s.comments.map commentLine

theorem headerLines_eq (s : Session) : s.headerLines = s.topLines ++ [.blank] := by
  rw [headerLines, topLines]

theorem depth_topLines (s : Session) : ∀ l ∈ s.topLines, l.depth = 0 := by
  rw [topLines, List.forall_mem_cons]
  refine ⟨rfl, ?_⟩
  split
  · exact List.forall_mem_nil _
  · refine List.forall_mem_cons.2 ⟨rfl, fun l hl => ?_⟩
    obtain ⟨c, -, rfl⟩ := List.mem_map.1 hl
    rfl

section Breaks

variable {p : Char → Bool} (hfeed : p '\n' = true)

include hfeed in
theorem isHeader_iff_topLines (s : Session) :
    IsHeader p (Line.renderAll "" s.headerLines).toList ↔
      ∀ l ∈ s.topLines, ∀ piece ∈ l.text.toList.splitOnP p, "//".toList <+: piece := by
  have hflat : ∀ l ∈ s.topLines ++ [.blank], l.depth = 0 :=
    List.forall_mem_append.2 ⟨s.depth_topLines, List.forall_mem_singleton.2 rfl⟩
  have hpieces : (Line.renderAll "" s.headerLines).toList.splitOnP p =
      s.topLines.flatMap (fun l => l.text.toList.splitOnP p) ++ [[], []] := by
    rw [headerLines_eq, Line.splitOnP_renderAll hfeed hflat, List.flatMap_append, List.append_assoc]
    rfl
  constructor
  · rintro ⟨lines, hlines, hcomments⟩ l hl piece hpiece
    rw [hpieces] at hlines
    rw [← List.append_cancel_right hlines] at hcomments
    exact hcomments piece (List.mem_flatMap.2 ⟨l, hl, hpiece⟩)
  · intro h
    refine ⟨_, hpieces, fun piece hpiece => ?_⟩
    obtain ⟨l, hl, hpiece⟩ := List.mem_flatMap.1 hpiece
    exact h l hl piece hpiece

variable (hmark : p '/' = false) (hblank : p ' ' = false)

include hmark hblank in
/-- A comment of the script is comments only, if what follows a break in it is. -/
theorem commentLine_pieces (c : String) :
    (∀ piece ∈ (commentLine c).text.toList.splitOnP p, "//".toList <+: piece) ↔
      ∀ l ∈ (c.toList.splitOnP p).tail, "//".toList <+: l := by
  obtain ⟨first, rest, hsplit⟩ := List.exists_cons_of_ne_nil (List.splitOnP_ne_nil p c.toList)
  have hpieces : ∃ head, "//".toList <+: head ∧ (commentLine c).text.toList.splitOnP p = head :: rest := by
    unfold commentLine
    dsimp only
    split
    · rename_i hc
      rw [String.isEmpty_iff.1 hc] at hsplit
      cases hsplit
      exact ⟨"//".toList, List.prefix_rfl, by simp [List.splitOnP_cons_eq_if_modifyHead, hmark]⟩
    · refine ⟨"// ".toList ++ first, by simp, ?_⟩
      simp [String.toList_append, List.splitOnP_cons_eq_if_modifyHead, hmark, hblank, hsplit]
  obtain ⟨head, hhead, hpieces⟩ := hpieces
  rw [hpieces, hsplit, List.forall_mem_cons, List.tail_cons]
  exact and_iff_right hhead

end Breaks

/-- **The header is comments exactly if what follows a break in a comment is a comment.** -/
theorem isHeader_iff {p : Char → Bool} (hfeed : p '\n' = true) {s : Session}
    (hplain : ∀ c ∈ ("// Generated by bstgroovy from " ++ s.sourceName).toList, p c = false) :
    IsHeader p (Line.renderAll "" s.headerLines).toList ↔
      ∀ c ∈ s.comments, ∀ l ∈ (c.toList.splitOnP p).tail, "//".toList <+: l := by
  have hmark : p '/' = false := hplain '/' (by simp)
  have hblank : p ' ' = false := hplain ' ' (by simp)
  rw [isHeader_iff_topLines hfeed, topLines, List.forall_mem_cons, List.splitOnP_eq_singleton hplain]
  refine (and_iff_right (List.forall_mem_singleton.2 ?_)).trans ?_
  · simp
  · split
    · rename_i hnone
      rw [List.isEmpty_iff.1 hnone]
      exact ⟨fun _ => List.forall_mem_nil _, fun _ => List.forall_mem_nil _⟩
    · rw [List.forall_mem_cons, List.forall_mem_map]
      refine (and_iff_right ?_).trans (forall₂_congr fun c _ => commentLine_pieces hmark hblank c)
      rw [List.splitOnP_eq_singleton (by simp [hmark])]
      simp

/-- The line on top holds no line end, if the source has no name of its own. -/
theorem topLine_plain {s : Session} (h : s.sourceName = "<input>") :
    ∀ c ∈ ("// Generated by bstgroovy from " ++ s.sourceName).toList, Phrase.endsLine c = false := by
  have hall : ("// Generated by bstgroovy from " ++ "<input>").toList.all (fun c => !Phrase.endsLine c) = true := by decide
  intro c hc
  rw [h] at hc
  exact Bool.not_eq_true' _ ▸ List.all_eq_true.1 hall c hc

/-- **A script is its header and then an import or the class.** -/
theorem script_eq (s : Session) : ∃ body, s.script.toList = (Line.renderAll "" s.headerLines).toList ++ body ∧
    ("import ".toList <+: body ∨ "class ".toList <+: body) := by
  obtain ⟨rest, hlines⟩ : ∃ rest, s.lines = s.headerLines ++
      (s.importLines ++ ⟨0, "class " ++ s.options.className ++ " \x7b"⟩ :: rest) := by
    simp only [lines, List.append_assoc, List.cons_append]
    exact ⟨_, rfl⟩
  refine ⟨_, by rw [script, hlines, Line.toList_renderAll_append], ?_⟩
  unfold importLines
  cases s.linkage.imports with
  | nil =>
    right
    rw [List.isEmpty_nil, if_pos rfl, List.nil_append, Line.toList_renderAll_cons _ _ rfl]
    simp [String.toList_append]
  | cons first more =>
    left
    rw [List.isEmpty_cons, if_neg Bool.false_ne_true, List.map_cons, List.cons_append, List.cons_append,
      Line.toList_renderAll_cons _ _ rfl]
    simp [String.toList_append]

end Session

/-- **Comments of a style stay in the header of the script, but for carriage returns.**  A script that is compiled from a source
opens with lines of comment and a blank line, if lines end at line feeds alone.  If they end at carriage returns as well, that
holds exactly if all that follows a carriage return in some comment at the top of the source, up to the next one, begins with
two slashes; so it does where carriage returns stand only before line feeds or at the end of the source. -/
theorem header_confined_iff {source script : String} {o : Options} (h : compileString source o = .ok script) :
    ∃ header body, script.toList = header ++ body ∧ ("import ".toList <+: body ∨ "class ".toList <+: body) ∧
      IsHeader (· == '\n') header ∧
      (IsHeader Phrase.endsLine header ↔
        ∀ c ∈ Source.preface source, ∀ l ∈ (c.toList.splitOnP Phrase.endsLine).tail, "//".toList <+: l) ∧
      (source.toList.IsChain (fun a b => a = '\r' → b = '\n') → IsHeader Phrase.endsLine header) := by
  obtain ⟨s, rfl, hname, hcomments⟩ := compileString_session h
  obtain ⟨body, hscript, hbody⟩ := s.script_eq
  have hlines : IsHeader Phrase.endsLine (Line.renderAll "" s.headerLines).toList ↔
      ∀ c ∈ Source.preface source, ∀ l ∈ (c.toList.splitOnP Phrase.endsLine).tail, "//".toList <+: l := by
    rw [← hcomments]
    exact Session.isHeader_iff rfl (Session.topLine_plain hname)
  -- a comment without breaks has nothing after one
  have hwhole : ∀ {p : Char → Bool} {c : String}, (∀ x ∈ c.toList, p x = false) →
      ∀ l ∈ (c.toList.splitOnP p).tail, "//".toList <+: l := by
    intro p c hc
    rw [List.splitOnP_eq_singleton hc]
    exact List.forall_mem_nil _
  have hfeeds : ∀ c ∈ ("// Generated by bstgroovy from " ++ s.sourceName).toList, (c == '\n') = false :=
    fun c hc => (Bool.or_eq_false_iff.1 (Session.topLine_plain hname c hc)).1
  refine ⟨_, body, hscript, hbody, (Session.isHeader_iff rfl hfeeds).2 ?_, hlines, fun hreturns => hlines.2 ?_⟩
  · rw [hcomments]
    intro c hc
    refine hwhole (fun x hx => ?_)
    rw [beq_eq_false_iff_ne]
    rintro rfl
    exact Source.feed_not_mem_preface hc hx
  · intro c hc
    refine hwhole (fun x hx => ?_)
    simp only [Phrase.endsLine, Bool.or_eq_false_iff, beq_eq_false_iff_ne]
    refine ⟨?_, ?_⟩
    · rintro rfl
      exact Source.feed_not_mem_preface hc hx
    · rintro rfl
      exact Source.return_not_mem_preface hreturns hc hx

/-- A source without words is compiled. -/
theorem compileString_of_no_words {source : String} (h : Source.Cuts source.toList [] []) (o : Options) :
    ∃ script, compileString source o = .ok script := by
  obtain ⟨ts, hts, hnone⟩ := Source.tokens_of_cuts h "<input>"
  obtain rfl := List.map_eq_nil_iff.1 hnone
  have hprogram : Reader.program [] = .ok [] := by rw [Reader.program, Reader.commands]
  have hname : (Session.new "<input>" o).sourceName = "<input>" := rfl
  unfold compileString
  rw [Session.compile_apply, Session.readSource_apply, hname, hts]
  dsimp only
  rw [hprogram]
  exact ⟨_, rfl⟩

theorem header_confined_iff_lines :
    ∃ script, compileString "% a style\r\n% of its own" {} = .ok script ∧
      ∃ header body, script.toList = header ++ body ∧ ("import ".toList <+: body ∨ "class ".toList <+: body) ∧
        IsHeader Phrase.endsLine header := by
  have hcuts : Source.Cuts "% a style\r\n% of its own".toList [] [] :=
    .cons (@Source.Piece.comment " a style\r".toList _ (by decide))
      (.cons (@Source.Piece.lastComment " of its own".toList (by decide)) (.nil []))
  obtain ⟨script, hscript⟩ := compileString_of_no_words hcuts {}
  obtain ⟨header, body, hsplit, hbody, -, -, hsafe⟩ := header_confined_iff hscript
  refine ⟨script, hscript, header, body, hsplit, hbody, hsafe (by decide)⟩

/-- **A comment leaves the header after a carriage return.** -/
theorem header_left_after_return :
    ∃ script header body, compileString "% a style\rSystem.exit(1)" {} = .ok script ∧ script.toList = header ++ body ∧
      header = "// Generated by bstgroovy from <input>\n//\n// a style\rSystem.exit(1)\n\n".toList ∧
      ("import ".toList <+: body ∨ "class ".toList <+: body) ∧ "System.exit(1)".toList ∈ header.splitOnP Phrase.endsLine ∧
      ¬ IsHeader Phrase.endsLine header := by
  have hcuts : Source.Cuts "% a style\rSystem.exit(1)".toList [] [] :=
    .cons (@Source.Piece.lastComment " a style\rSystem.exit(1)".toList (by decide)) (.nil [])
  obtain ⟨script, hscript⟩ := compileString_of_no_words hcuts {}
  obtain ⟨s, rfl, hname, hcomments⟩ := compileString_session hscript
  obtain ⟨body, hsplit, hbody⟩ := s.script_eq
  have hpreface : Source.preface "% a style\rSystem.exit(1)" = ["a style\rSystem.exit(1)"] := by decide +kernel
  have hheader : (Line.renderAll "" s.headerLines).toList =
      "// Generated by bstgroovy from <input>\n//\n// a style\rSystem.exit(1)\n\n".toList := by
    rw [Session.headerLines, hname, hcomments, hpreface]
    decide +kernel
  refine ⟨_, _, body, hscript, hsplit, hheader, hbody, ?_, ?_⟩
  · rw [hheader]
    decide +kernel
  · rw [Session.isHeader_iff rfl (Session.topLine_plain hname), hcomments, hpreface]
    decide +kernel

end Bibstyle
