import Mathlib.Data.List.Nodup
import Bibstyle.Code.Listing
import Bibstyle.Proofs.Acts
import Bibstyle.Proofs.Braces
import Bibstyle.Proofs.Reduction
/-!
# Layout — printed statements read as the code they are

Statements are printed with the opposite condition where there is nothing to do otherwise, with branches chained, and
with a loop left from within where its test needs statements first.  Read with the grammar of braces the text is one
piece of code, and what that code does is what the statements do.  Texts of expressions are not looked into here.
-/
namespace Bibstyle

/-! ## Lines of a listing -/

namespace Line

/-- What a line says, its indentation taken away. -/
def phrase (l : Line) : Phrase :=
  Phrase.ofLine l.text.toList

theorem indents_indentation : ∀ n, ∀ c ∈ (indentation n).toList, Phrase.indents c = true
  | 0, _, hc => absurd hc List.not_mem_nil
  | n + 1, c, hc => by
    rw [indentation, String.toList_append, List.mem_append] at hc
    rcases hc with hc | hc
    · exact List.all_eq_true.1 (by decide : indent.toList.all Phrase.indents = true) c hc
    · exact indents_indentation n c hc

theorem not_endsLine_of_indents {c : Char} (h : Phrase.indents c = true) : Phrase.endsLine c = false := by
  simp only [Phrase.indents, Bool.or_eq_true, beq_iff_eq] at h
  rcases h with rfl | rfl <;> rfl

theorem toList_renderAll (margin : String) (l : Line) (ls : List Line) : (renderAll margin (l :: ls)).toList =
    (margin.toList ++ (indentation l.depth).toList ++ l.text.toList) ++ '\n' :: (renderAll margin ls).toList := by
  simp [renderAll, render, String.toList_join, String.toList_append]

/-- **Printed lines are read line by line**, at every depth and behind every margin of blanks. -/
theorem ofText_renderAll {margin : String} (hmargin : ∀ c ∈ margin.toList, Phrase.indents c = true) :
    ∀ {ls : List Line}, (∀ l ∈ ls, Phrase.isFlush l.text = true) → Phrase.ofText (renderAll margin ls) = ls.map phrase
  | [], _ => rfl
  | l :: ls, h => by
    obtain ⟨hl, hls⟩ := List.forall_mem_cons.1 h
    have hblanks : ∀ c ∈ margin.toList ++ (indentation l.depth).toList, Phrase.indents c = true := by
      intro c hc
      exact (List.mem_append.1 hc).elim (hmargin c) (indents_indentation l.depth c)
    have hrow : ∀ c ∈ margin.toList ++ (indentation l.depth).toList ++ l.text.toList, Phrase.endsLine c = false := by
      intro c hc
      rcases List.mem_append.1 hc with hc | hc
      · exact not_endsLine_of_indents (hblanks c hc)
      · rw [Phrase.isFlush, Bool.and_eq_true] at hl
        simpa using List.all_eq_true.1 hl.1 c hc
    rw [Phrase.ofText, toList_renderAll, List.splitOnP_append_cons_of_forall_mem hrow _ rfl,
      List.filterMap_cons_some (Phrase.ofRow_of_isFlush hblanks hl)]
    exact congrArg (l.phrase :: ·) (ofText_renderAll hmargin hls)

end Line

/-! ## Statements as clauses -/

namespace Stmt

/-- What is written for a statement that is one step. -/
def step? (s : Scope) : Stmt → Option String
  | eval e => some (e.render s)
  | declare v init => some (declaration s v init)
  | assign t e => some (assignment s (e.render s) t)
  | branch _ _ _ | loop _ _ _ | each _ _ | comment _ => none

def test? : Stmt → Option Expr
  | branch c _ _ | loop _ c _ => some c
  | eval _ | declare _ _ | assign _ _ | each _ _ | comment _ => none

/-- **What is written for the statement alone fits where it stands**: a step is a line by itself, and a condition or a
comment fits into one. -/
def isLegible (s : Scope) : Stmt → Bool
  | comment text => Phrase.isOneLine text
  | t => (t.step? s).all Phrase.isStep &&
    t.test?.all (fun c => Phrase.isOneLine (c.condition s false) && Phrase.isOneLine (c.condition s true))

mutual

/-- **The code that is written for a statement.** -/
def clause (s : Scope) : Stmt → Clause
  | eval e => .step (e.render s)
  | declare v init => .step (declaration s v init)
  | assign t e => .step (assignment s (e.render s) t)
  | comment _ => .remark
  | each reverse body => .forEach reverse (clauses s body)
  | loop [] c body => .repeated (c.condition s false) (clauses s body)
  | loop setup c body =>
    .repeated "true" (clauses s setup ++ .choose (c.condition s true) [.leave] [] :: clauses s body)
  | branch c yes no =>
    if yes.isEmpty && !no.isEmpty then .choose (c.condition s true) (clauses s no) []
    else .choose (c.condition s false) (clauses s yes) (clauses s no)

def clauses (s : Scope) : List Stmt → List Clause
  | [] => []
  | t :: ts => clause s t :: clauses s ts

end

end Stmt

namespace Line

open Clause (Part)

/-- **Lines are laid out as code**: each of them is one line, and they are read as that code. -/
structure Lays (p : Part) (ls : List Line) (cs : List Clause) : Prop where
  flush : ∀ l ∈ ls, Phrase.isFlush l.text = true
  reads : Clause.Reads p (ls.map phrase) cs

namespace Lays

variable {d : Nat} {t : String} {xs ys : List Line} {as bs : List Clause}

theorem nil : Lays .code [] [] := ⟨List.forall_mem_nil _, .nil⟩

theorem append (ha : Lays .code xs as) (hb : Lays .code ys bs) : Lays .code (xs ++ ys) (as ++ bs) where
  flush := List.forall_mem_append.2 ⟨ha.flush, hb.flush⟩
  reads := by
    rw [List.map_append]
    exact ha.reads.append hb.reads

theorem code {c : Clause} (h : Lays .clause xs [c]) : Lays .code xs [c] := ⟨h.flush, h.reads.single⟩

theorem step (h : Phrase.isStep t = true) : Lays .clause [⟨d, t⟩] [.step t] where
  flush := List.forall_mem_singleton.2 (Phrase.isFlush_of_isStep h)
  reads := by
    rw [List.map_singleton, phrase, Phrase.ofLine_of_isStep h]
    exact .step

theorem remark (h : Phrase.isOneLine t = true) : Lays .clause [⟨d, "// " ++ t⟩] [.remark] where
  flush := by
    have hflush : Phrase.isFlush ("// " ++ t ++ "") = true := Phrase.isFlush_between (by decide) h (by decide)
    rw [String.append_empty] at hflush
    exact List.forall_mem_singleton.2 hflush
  reads := by
    rw [List.map_singleton, phrase, Phrase.ofLine_remark]
    exact .remark

theorem leave : Lays .code [⟨d, "break"⟩] [.leave] where
  flush := List.forall_mem_singleton.2 (by decide : Phrase.isFlush "break" = true)
  reads := by
    rw [List.map_singleton, phrase, (by decide : Phrase.ofLine "break".toList = .leave)]
    exact Clause.Reads.leave.single

/-- A line that opens braces, what stands inside them, and what ends them. -/
theorem flush_braces {head : String} (hhead : Phrase.isFlush head = true) (hx : Lays .code xs as)
    (hy : ∀ l ∈ ys, Phrase.isFlush l.text = true) :
    ∀ l ∈ (⟨d, head⟩ : Line) :: (xs ++ ys), Phrase.isFlush l.text = true :=
  List.forall_mem_cons.2 ⟨hhead, List.forall_mem_append.2 ⟨hx.flush, hy⟩⟩

theorem flush_close : ∀ l ∈ [(⟨d, "\x7d"⟩ : Line)], Phrase.isFlush l.text = true :=
  List.forall_mem_singleton.2 (by decide : Phrase.isFlush "\x7d" = true)

theorem phrase_close : [(⟨d, "\x7d"⟩ : Line)].map phrase = [.close] :=
  congrArg (fun x => [x]) (by decide : Phrase.ofLine "\x7d".toList = .close)

theorem choose (ht : Phrase.isOneLine t = true) (hyes : Lays .code xs as) (hno : Lays .ending ys bs) :
    Lays .clause (⟨d, "if (" ++ t ++ ") \x7b"⟩ :: (xs ++ ys)) [.choose t as bs] where
  flush := flush_braces (Phrase.isFlush_between (by decide) ht (by decide)) hyes hno.flush
  reads := by
    rw [List.map_cons, List.map_append, phrase, Phrase.ofLine_ask]
    exact .choose hyes.reads hno.reads

theorem close : Lays .ending [⟨d, "\x7d"⟩] [] := ⟨flush_close, phrase_close ▸ .close⟩

theorem otherwise (h : Lays .code xs as) : Lays .ending (Stmt.braced d "\x7d else" xs) as where
  flush := flush_braces (by decide) h flush_close
  reads := by
    have hhead : Phrase.ofLine ("\x7d else" ++ " \x7b").toList = .otherwise := by decide
    rw [Stmt.braced, List.map_cons, List.map_append, phrase, hhead, phrase_close]
    exact .otherwise h.reads

/-- **A branch can follow `else` on the line that closes the braces before it.** -/
theorem chained {c : Clause} (ht : Phrase.isOneLine t = true)
    (h : Lays .clause (⟨d, "if (" ++ t ++ ") \x7b"⟩ :: xs) [c]) :
    Lays .ending (lead "\x7d else " (⟨d, "if (" ++ t ++ ") \x7b"⟩ :: xs)) [c] := by
  have hhead : "\x7d else " ++ ("if (" ++ t ++ ") \x7b") = "\x7d else if (" ++ t ++ ") \x7b" := by
    rw [← String.append_assoc, ← String.append_assoc]
    rfl
  have hreads := h.reads
  rw [List.map_cons, phrase, Phrase.ofLine_ask] at hreads
  rw [lead, hhead]
  refine ⟨List.forall_mem_cons.2 ⟨Phrase.isFlush_between (by decide) ht (by decide), (List.forall_mem_cons.1 h.flush).2⟩, ?_⟩
  rw [List.map_cons, phrase, Phrase.ofLine_elseAsk]
  exact hreads.chained

theorem repeated (ht : Phrase.isOneLine t = true) (h : Lays .code xs as) :
    Lays .clause (Stmt.braced d ("while (" ++ t ++ ")") xs) [.repeated t as] := by
  have hhead : "while (" ++ t ++ ")" ++ " \x7b" = "while (" ++ t ++ ") \x7b" := String.append_assoc
  rw [Stmt.braced, hhead]
  refine ⟨flush_braces (Phrase.isFlush_between (by decide) ht (by decide)) h flush_close, ?_⟩
  rw [List.map_cons, List.map_append, phrase, Phrase.ofLine_repeated, phrase_close]
  exact .repeated h.reads

theorem forEach (reverse : Bool) (h : Lays .code xs as) :
    Lays .clause (⟨d, "bibDB." ++ (if reverse then "reverseEach" else "each") ++ " \x7b entry ->"⟩ ::
      (xs ++ [⟨d, "\x7d"⟩])) [.forEach reverse as] where
  flush := flush_braces (by cases reverse <;> decide) h flush_close
  reads := by
    have hhead : Phrase.ofLine ("bibDB." ++ (if reverse then "reverseEach" else "each") ++ " \x7b entry ->").toList =
        .forEach reverse := by cases reverse <;> decide
    rw [List.map_cons, List.map_append, phrase, hhead, phrase_close]
    exact .forEach h.reads

/-- Braces behind a condition, with nothing to do otherwise. -/
theorem chooseOnly (ht : Phrase.isOneLine t = true) (h : Lays .code xs as) :
    Lays .clause (Stmt.braced d ("if (" ++ t ++ ")") xs) [.choose t as []] := by
  have hhead : "if (" ++ t ++ ")" ++ " \x7b" = "if (" ++ t ++ ") \x7b" := String.append_assoc
  rw [Stmt.braced, hhead]
  exact choose ht h close

end Lays
end Line

namespace Stmt

theorem isOneLine_condition {s : Scope} {t : Stmt} {c : Expr} (hc : t.test? = some c) (h : t.isLegible s = true)
    (negate : Bool) : Phrase.isOneLine (c.condition s negate) = true := by
  cases t with
  | comment text => cases hc
  | _ =>
    simp only [isLegible, hc, Option.all_some, Bool.and_eq_true] at h
    cases negate
    · exact h.2.1
    · exact h.2.2

theorem isStep_of_isLegible {s : Scope} {t : Stmt} {text : String} (ht : t.step? s = some text)
    (h : t.isLegible s = true) : Phrase.isStep text = true := by
  cases t with
  | comment text => cases ht
  | _ =>
    simp only [isLegible, ht, Option.all_some, Bool.and_eq_true] at h
    exact h.1

theorem mem_parts_self (t : Stmt) : t ∈ parts t := by
  cases t <;> exact List.mem_cons_self

theorem lays_chained {s : Scope} {d : Nat} {t : Stmt} (hchains : t.chains = true) (hlegible : t.isLegible s = true)
    (h : Line.Lays .clause (lines s d t) [clause s t]) :
    Line.Lays .ending (Line.lead "\x7d else " (lines s d t)) [clause s t] := by
  cases t with
  | branch c yes no =>
    cases yes with
    | nil => cases hchains
    | cons y ys =>
      rw [lines] at h ⊢
      exact .chained (isOneLine_condition rfl hlegible false) h
  | _ => cases hchains

mutual

theorem lays_lines (s : Scope) (d : Nat) : ∀ t : Stmt, (∀ x ∈ parts t, x.isLegible s = true) →
    Line.Lays .clause (lines s d t) [clause s t]
  | eval e, h => .step (isStep_of_isLegible (t := eval e) rfl (h _ (mem_parts_self _)))
  | declare v init, h => .step (isStep_of_isLegible (t := declare v init) rfl (h _ (mem_parts_self _)))
  | assign x e, h => .step (isStep_of_isLegible (t := assign x e) rfl (h _ (mem_parts_self _)))
  | comment text, h => .remark (h (comment text) (mem_parts_self _))
  | each reverse body, h => by
    rw [lines, clause]
    exact .forEach reverse (lays_linesAll s (d + 1) body (List.forall_mem_cons.1 h).2)
  | loop [] c body, h => by
    rw [parts, List.forall_mem_cons, List.forall_mem_append] at h
    rw [lines, clause]
    exact .repeated (isOneLine_condition rfl h.1 false) (lays_linesAll s (d + 1) body h.2.2)
  | loop (t :: ts) c body, h => by
    rw [parts, List.forall_mem_cons, List.forall_mem_append] at h
    have hsetup := lays_linesAll s (d + 1) (t :: ts) h.2.1
    have htest := (Line.Lays.chooseOnly (d := d + 1) (isOneLine_condition rfl h.1 true)
      (.leave (d := d + 2))).code
    have hall := (hsetup.append htest).append (lays_linesAll s (d + 1) body h.2.2)
    rw [List.append_assoc (clauses s (t :: ts))] at hall
    exact Line.Lays.repeated (t := "true") rfl hall
  | branch c yes no, h => by
    rw [parts, List.forall_mem_cons, List.forall_mem_append] at h
    rw [lines, clause]
    split
    · exact .chooseOnly (isOneLine_condition rfl h.1 true) (lays_linesAll s (d + 1) no h.2.2)
    · exact .choose (isOneLine_condition rfl h.1 false) (lays_linesAll s (d + 1) yes h.2.1)
        (lays_linesElse s d no h.2.2)

theorem lays_linesElse (s : Scope) (d : Nat) : ∀ ts : List Stmt, (∀ x ∈ partsAll ts, x.isLegible s = true) →
    Line.Lays .ending (linesElse s d ts) (clauses s ts)
  | [], _ => .close
  | [t], h => by
    rw [partsAll, partsAll, List.append_nil] at h
    rw [linesElse]
    split
    · rename_i hchains
      exact lays_chained hchains (h t (mem_parts_self t)) (lays_lines s d t h)
    · exact .otherwise (lays_lines s (d + 1) t h).code
  | t :: u :: ts, h => by
    rw [partsAll, List.forall_mem_append] at h
    rw [linesElse, clauses]
    · exact .otherwise ((lays_lines s (d + 1) t h.1).code.append (lays_linesAll s (d + 1) (u :: ts) h.2))
    · exact fun h => by cases h

theorem lays_linesAll (s : Scope) (d : Nat) : ∀ ts : List Stmt, (∀ x ∈ partsAll ts, x.isLegible s = true) →
    Line.Lays .code (linesAll s d ts) (clauses s ts)
  | [], _ => .nil
  | t :: ts, h => by
    rw [partsAll, List.forall_mem_append] at h
    rw [linesAll, clauses]
    exact (lays_lines s d t h.1).code.append (lays_linesAll s d ts h.2)

end

end Stmt

/-! ## What is done -/

/-- **A condition is tested**: it holds if it is more than zero. -/
def Expr.Tests (rt : Runtime) (c : Expr) (ent : Option Entry) (s : Store) (holds : Bool) (s' : Store) : Prop :=
  ∃ n w, c.Gives rt ent s.locals s.world (.int n) w ∧ holds = decide (0 < n) ∧ s' = { s with world := w }

/-- **A loop as its rounds**: each of them says whether it was the last. -/
inductive Rounds (round : Store → Bool → Store → Prop) : Store → Store → Prop where
  | last {s s'} (h : round s true s') : Rounds round s s'
  | more {s s₁ s'} (h : round s false s₁) (hr : Rounds round s₁ s') : Rounds round s s'

theorem Rounds.congr {R R' : Store → Bool → Store → Prop} (h : ∀ s last s', R s last s' ↔ R' s last s') {s s' : Store} :
    Rounds R s s' ↔ Rounds R' s s' := by
  have heq : R = R' := by
    funext s last s'
    exact propext (h s last s')
  rw [heq]

section Statements

variable {rt : Runtime} {ent : Option Entry} {c : Expr} {yes no setup body : Block} {s s' : Store}

theorem runs_branch_iff : Runs rt (.stmt (.branch c yes no)) ent s s' ↔
    ∃ holds s₁, c.Tests rt ent s holds s₁ ∧ Runs rt (.block (if holds then yes else no)) ent s₁ s' := by
  constructor
  · intro h
    cases h with
    | yes h hn hb => exact ⟨true, _, ⟨_, _, h, (decide_eq_true hn).symm, rfl⟩, hb⟩
    | no h hn hb => exact ⟨false, _, ⟨_, _, h, (decide_eq_false hn).symm, rfl⟩, hb⟩
  · rintro ⟨holds, s₁, ⟨n, w, h, rfl, rfl⟩, hb⟩
    by_cases hn : 0 < n
    · exact .yes h hn (by simpa [hn] using hb)
    · exact .no h hn (by simpa [hn] using hb)

theorem runs_nil_iff : Runs rt (.block []) ent s s' ↔ s' = s := by
  constructor
  · intro h
    cases h
    rfl
  · rintro rfl
    exact .nil

theorem runs_cons_iff {t : Stmt} {ts : Block} :
    Runs rt (.block (t :: ts)) ent s s' ↔ ∃ s₁, Runs rt (.stmt t) ent s s₁ ∧ Runs rt (.block ts) ent s₁ s' := by
  constructor
  · intro h
    cases h with
    | cons h hs => exact ⟨_, h, hs⟩
  · rintro ⟨s₁, h, hs⟩
    exact .cons h hs

/-- A round of a loop: the setup, the test, and the body unless the test fails. -/
def LoopRound (rt : Runtime) (setup : Block) (c : Expr) (body : Block) (ent : Option Entry) (s : Store) (last : Bool)
    (s' : Store) : Prop :=
  ∃ s₁ s₂, Runs rt (.block setup) ent s s₁ ∧ c.Tests rt ent s₁ (!last) s₂ ∧
    if last then s' = s₂ else Runs rt (.block body) ent s₂ s'

theorem runs_loop_iff : Runs rt (.stmt (.loop setup c body)) ent s s' ↔
    Rounds (LoopRound rt setup c body ent) s s' := by
  constructor
  · intro h
    generalize hjob : Job.stmt (.loop setup c body) = job at h
    induction h with
    | done hs h hn =>
      cases hjob
      exact .last ⟨_, _, hs, ⟨_, _, h, (decide_eq_false hn).symm, rfl⟩, rfl⟩
    | again hs h hn hb _ _ _ ih =>
      cases hjob
      exact .more ⟨_, _, hs, ⟨_, _, h, (decide_eq_true hn).symm, rfl⟩, hb⟩ (ih rfl)
    | _ => cases hjob
  · intro h
    induction h with
    | last h =>
      obtain ⟨s₁, s₂, hs, ⟨n, w, h, hn, rfl⟩, rfl⟩ := h
      exact .done hs h (of_decide_eq_false hn.symm)
    | more h _ ih =>
      obtain ⟨s₁, s₂, hs, ⟨n, w, h, hn, rfl⟩, hb⟩ := h
      exact .again hs h (of_decide_eq_true hn.symm) hb ih

end Statements

namespace Clause

variable {G : Gloss} {ent : Option Entry} {t : String} {yes no body as bs : List Clause} {s s' : Store} {left : Bool}

theorem does_choose_iff : Does G (.one (.choose t yes no)) ent s left s' ↔
    ∃ holds s₁, G.test t ent s holds s₁ ∧ Does G (.all (if holds then yes else no)) ent s₁ left s' := by
  constructor
  · intro h
    cases h with
    | yes h hb => exact ⟨true, _, h, hb⟩
    | no h hb => exact ⟨false, _, h, hb⟩
  · rintro ⟨_ | _, s₁, h, hb⟩
    · exact .no h hb
    · exact .yes h hb

theorem does_nil_iff : Does G (.all []) ent s left s' ↔ left = false ∧ s' = s := by
  constructor
  · intro h
    cases h
    exact ⟨rfl, rfl⟩
  · rintro ⟨rfl, rfl⟩
    exact .nil

theorem does_cons_iff {c : Clause} : Does G (.all (c :: bs)) ent s left s' ↔
    (∃ s₁, Does G (.one c) ent s false s₁ ∧ Does G (.all bs) ent s₁ left s') ∨
      (left = true ∧ Does G (.one c) ent s true s') := by
  constructor
  · intro h
    cases h with
    | cons h hs => exact .inl ⟨_, h, hs⟩
    | skip h => exact .inr ⟨rfl, h⟩
  · rintro (⟨s₁, h, hs⟩ | ⟨rfl, h⟩)
    · exact .cons h hs
    · exact .skip h

theorem does_append_iff : Does G (.all (as ++ bs)) ent s left s' ↔
    (∃ s₁, Does G (.all as) ent s false s₁ ∧ Does G (.all bs) ent s₁ left s') ∨
      (left = true ∧ Does G (.all as) ent s true s') := by
  induction as generalizing s with
  | nil => simp [does_nil_iff]
  | cons c cs ih =>
    simp only [List.cons_append, does_cons_iff, ih]
    grind

theorem does_leave_iff : Does G (.one .leave) ent s left s' ↔ left = true ∧ s' = s := by
  constructor
  · intro h
    cases h
    exact ⟨rfl, rfl⟩
  · rintro ⟨rfl, rfl⟩
    exact .leave

theorem does_step_iff : Does G (.one (.step t)) ent s left s' ↔ left = false ∧ G.does t ent s s' := by
  constructor
  · intro h
    cases h with
    | step h => exact ⟨rfl, h⟩
  · rintro ⟨rfl, h⟩
    exact .step h

/-- A round of a loop, which the test or the body may make the last. -/
def RepeatedRound (G : Gloss) (t : String) (body : List Clause) (ent : Option Entry) (s : Store) (last : Bool)
    (s' : Store) : Prop :=
  (last = true ∧ G.test t ent s false s') ∨ ∃ s₁, G.test t ent s true s₁ ∧ Does G (.all body) ent s₁ last s'

theorem does_repeated_iff : Does G (.one (.repeated t body)) ent s left s' ↔
    left = false ∧ Rounds (RepeatedRound G t body ent) s s' := by
  constructor
  · intro h
    generalize htask : Task.one (.repeated t body) = task at h
    induction h with
    | done h =>
      cases htask
      exact ⟨rfl, .last (.inl ⟨rfl, h⟩)⟩
    | again h hb _ _ ih =>
      cases htask
      exact ⟨rfl, .more (.inr ⟨_, h, hb⟩) (ih rfl).2⟩
    | left h hb =>
      cases htask
      exact ⟨rfl, .last (.inr ⟨_, h, hb⟩)⟩
    | _ => cases htask
  · rintro ⟨rfl, h⟩
    induction h with
    | last h =>
      obtain ⟨-, h⟩ | ⟨s₁, h, hb⟩ := h
      · exact .done h
      · exact .left h hb
    | more h _ ih =>
      obtain ⟨h, -⟩ | ⟨s₁, h, hb⟩ := h
      · cases h
      · exact .again h hb ih

end Clause

namespace Gloss

/-- **The texts of a statement are taken for what it does**: its step for the step, and its condition and the opposite
condition for its test. -/
structure Explains (G : Gloss) (rt : Runtime) (sc : Scope) (t : Stmt) : Prop where
  step : ∀ text, t.step? sc = some text → ∀ ent s s', G.does text ent s s' ↔ Runs rt (.stmt t) ent s s'
  test : ∀ c, t.test? = some c → ∀ negate ent s holds s',
    G.test (c.condition sc negate) ent s holds s' ↔ c.Tests rt ent s (negate ^^ holds) s'

/-- The word `true` as a condition holds and changes nothing. -/
def KnowsTrue (G : Gloss) : Prop :=
  ∀ ent s holds s', G.test "true" ent s holds s' ↔ holds = true ∧ s' = s

end Gloss

namespace Stmt

variable {G : Gloss} {rt : Runtime} {sc : Scope} {ent : Option Entry}

/-- **A branch, written with its condition or with its sides exchanged and the opposite condition.** -/
theorem does_chosen_iff {c : Expr} {yes no : Block} {as bs : List Clause} {negate : Bool}
    (hc : ∀ s holds s', G.test (c.condition sc negate) ent s holds s' ↔ c.Tests rt ent s (negate ^^ holds) s')
    (has : ∀ s left s', Clause.Does G (.all as) ent s left s' ↔
      left = false ∧ Runs rt (.block (if negate then no else yes)) ent s s')
    (hbs : ∀ s left s', Clause.Does G (.all bs) ent s left s' ↔
      left = false ∧ Runs rt (.block (if negate then yes else no)) ent s s')
    (s : Store) (left : Bool) (s' : Store) :
    Clause.Does G (.one (.choose (c.condition sc negate) as bs)) ent s left s' ↔
      left = false ∧ Runs rt (.stmt (.branch c yes no)) ent s s' := by
  rw [Clause.does_choose_iff, runs_branch_iff]
  cases left <;> cases negate <;> simp_all [or_comm]

/-- **The test at the head of a loop without setup.** -/
theorem plainRound_iff {c : Expr} {body : Block} {cs : List Clause}
    (hc : ∀ s holds s', G.test (c.condition sc false) ent s holds s' ↔ c.Tests rt ent s holds s')
    (hbody : ∀ s left s', Clause.Does G (.all cs) ent s left s' ↔ left = false ∧ Runs rt (.block body) ent s s')
    (s : Store) (last : Bool) (s' : Store) :
    Clause.RepeatedRound G (c.condition sc false) cs ent s last s' ↔ LoopRound rt [] c body ent s last s' := by
  cases last <;> simp [Clause.RepeatedRound, LoopRound, hc, hbody, runs_nil_iff]

/-- **The test that leaves an endless loop behind its setup.** -/
theorem leftRound_iff (hG : G.KnowsTrue) {c : Expr} {setup body : Block} {as bs : List Clause}
    (hc : ∀ s holds s', G.test (c.condition sc true) ent s holds s' ↔ c.Tests rt ent s (!holds) s')
    (hsetup : ∀ s left s', Clause.Does G (.all as) ent s left s' ↔ left = false ∧ Runs rt (.block setup) ent s s')
    (hbody : ∀ s left s', Clause.Does G (.all bs) ent s left s' ↔ left = false ∧ Runs rt (.block body) ent s s')
    (s : Store) (last : Bool) (s' : Store) :
    Clause.RepeatedRound G "true" (as ++ .choose (c.condition sc true) [.leave] [] :: bs) ent s last s' ↔
      LoopRound rt setup c body ent s last s' := by
  cases last <;>
    simp [Clause.RepeatedRound, LoopRound, hG ent, Clause.does_append_iff, Clause.does_cons_iff,
      Clause.does_choose_iff, Clause.does_leave_iff, Clause.does_nil_iff, hc, hsetup, hbody]

theorem does_entries_iff {body : Block} {cs : List Clause}
    (hbody : ∀ ent s left s', Clause.Does G (.all cs) ent s left s' ↔ left = false ∧ Runs rt (.block body) ent s s')
    (es : List Entry) (s : Store) (left : Bool) (s' : Store) :
    Clause.Does G (.entries es cs) ent s left s' ↔ left = false ∧ Runs rt (.entries es body) ent s s' := by
  induction es generalizing s with
  | nil =>
    constructor
    · intro h
      cases h
      exact ⟨rfl, .noEntry⟩
    · rintro ⟨rfl, h⟩
      cases h
      exact .noEntry
  | cons e es ih =>
    constructor
    · intro h
      cases h with
      | nextEntry h hs => exact ⟨rfl, .nextEntry ((hbody _ _ _ _).1 h).2 ((ih _).1 hs).2⟩
    · rintro ⟨rfl, h⟩
      cases h with
      | nextEntry h hs => exact .nextEntry ((hbody _ _ _ _).2 ⟨rfl, h⟩) ((ih _).2 ⟨rfl, hs⟩)

theorem does_forEach_iff {reverse : Bool} {body : Block} {cs : List Clause}
    (hbody : ∀ ent s left s', Clause.Does G (.all cs) ent s left s' ↔ left = false ∧ Runs rt (.block body) ent s s')
    (s : Store) (left : Bool) (s' : Store) :
    Clause.Does G (.one (.forEach reverse cs)) ent s left s' ↔
      left = false ∧ Runs rt (.stmt (.each reverse body)) ent s s' := by
  constructor
  · intro h
    cases h with
    | forEach h => exact ⟨rfl, .each ((does_entries_iff hbody _ _ _ _).1 h).2⟩
  · rintro ⟨rfl, h⟩
    cases h with
    | each h => exact .forEach ((does_entries_iff hbody _ _ _ _).2 ⟨rfl, h⟩)

mutual

/-- **The code written for a statement does what the statement does**, and is never left before its end. -/
theorem does_clause_iff (hG : G.KnowsTrue) : ∀ t : Stmt, (∀ x ∈ parts t, G.Explains rt sc x) →
    ∀ ent s left s', Clause.Does G (.one (clause sc t)) ent s left s' ↔ left = false ∧ Runs rt (.stmt t) ent s s'
  | eval e, h, ent, s, left, s' => by
    rw [clause, Clause.does_step_iff, (h (eval e) (mem_parts_self _)).step _ rfl]
  | declare v init, h, ent, s, left, s' => by
    rw [clause, Clause.does_step_iff, (h (declare v init) (mem_parts_self _)).step _ rfl]
  | assign t e, h, ent, s, left, s' => by
    rw [clause, Clause.does_step_iff, (h (assign t e) (mem_parts_self _)).step _ rfl]
  | comment text, _, ent, s, left, s' => by
    rw [clause]
    constructor
    · intro h
      cases h
      exact ⟨rfl, .comment⟩
    · rintro ⟨rfl, h⟩
      cases h
      exact .remark
  | each reverse body, h, ent, s, left, s' => by
    rw [clause]
    exact does_forEach_iff (does_clauses_iff hG body (List.forall_mem_cons.1 h).2) s left s'
  | loop [] c body, h, ent, s, left, s' => by
    rw [parts, List.forall_mem_cons, List.forall_mem_append] at h
    have hc : ∀ s holds s', G.test (c.condition sc false) ent s holds s' ↔ c.Tests rt ent s holds s' := by
      intro s holds s'
      rw [h.1.test c rfl false, Bool.false_xor]
    rw [clause, Clause.does_repeated_iff, runs_loop_iff,
      Rounds.congr (plainRound_iff hc (does_clauses_iff hG body h.2.2 ent))]
  | loop (t :: ts) c body, h, ent, s, left, s' => by
    rw [parts, List.forall_mem_cons, List.forall_mem_append] at h
    have hc : ∀ s holds s', G.test (c.condition sc true) ent s holds s' ↔ c.Tests rt ent s (!holds) s' := by
      intro s holds s'
      rw [h.1.test c rfl true, Bool.true_xor]
    rw [clause, Clause.does_repeated_iff, runs_loop_iff,
      Rounds.congr (leftRound_iff hG hc (does_clauses_iff hG (t :: ts) h.2.1 ent) (does_clauses_iff hG body h.2.2 ent))]
    exact fun h => by cases h
  | branch c yes no, h, ent, s, left, s' => by
    rw [parts, List.forall_mem_cons, List.forall_mem_append] at h
    have hyes := does_clauses_iff hG yes h.2.1 ent
    have hno := does_clauses_iff hG no h.2.2 ent
    rw [clause]
    split
    · rename_i hempty
      obtain rfl : yes = [] := List.isEmpty_iff.1 (Bool.and_eq_true_iff.1 hempty).1
      exact does_chosen_iff (fun s holds s' => h.1.test c rfl true ent s holds s') hno hyes s left s'
    · exact does_chosen_iff (fun s holds s' => h.1.test c rfl false ent s holds s') hyes hno s left s'

theorem does_clauses_iff (hG : G.KnowsTrue) : ∀ b : List Stmt, (∀ x ∈ partsAll b, G.Explains rt sc x) →
    ∀ ent s left s', Clause.Does G (.all (clauses sc b)) ent s left s' ↔ left = false ∧ Runs rt (.block b) ent s s'
  | [], _, ent, s, left, s' => by rw [clauses, Clause.does_nil_iff, runs_nil_iff]
  | t :: ts, h, ent, s, left, s' => by
    rw [partsAll, List.forall_mem_append] at h
    simp only [clauses, Clause.does_cons_iff, does_clause_iff hG t h.1, does_clauses_iff hG ts h.2, runs_cons_iff]
    cases left <;> simp

end

end Stmt

/-! ## Texts that tell statements apart -/

namespace Block

/-- The steps of a block at any depth, with what is written for them. -/
def steps (sc : Scope) (b : Block) : List (Stmt × String) :=
  (Stmt.partsAll b).filterMap (fun t => (t.step? sc).map (t, ·))

/-- The conditions of a block at any depth, each for itself and as its opposite. -/
def tests (b : Block) : List (Expr × Bool) :=
  ((Stmt.partsAll b).filterMap Stmt.test?).flatMap (fun c => [(c, false), (c, true)])

/-- **What is written tells the steps of a block apart, and its conditions.** -/
structure Distinct (sc : Scope) (b : Block) : Prop where
  steps : ((b.steps sc).map Prod.snd).Nodup
  tests : ("true" :: b.tests.map (fun q => q.1.condition sc q.2)).Nodup

theorem mem_steps {sc : Scope} {b : Block} {t : Stmt} {text : String} :
    (t, text) ∈ b.steps sc ↔ t ∈ Stmt.partsAll b ∧ t.step? sc = some text := by
  simp [steps]

theorem mem_tests {b : Block} {c : Expr} {negate : Bool} :
    (c, negate) ∈ b.tests ↔ ∃ t ∈ Stmt.partsAll b, t.test? = some c := by
  cases negate <;> simp [tests]

end Block

/-- **The meaning that the statements of a block give to what is written for them.** -/
def Gloss.ofBlock (rt : Runtime) (sc : Scope) (b : Block) : Gloss where
  does text ent s s' := ∃ t, (t, text) ∈ b.steps sc ∧ Runs rt (.stmt t) ent s s'
  test text ent s holds s' := (text = "true" ∧ holds = true ∧ s' = s) ∨
    ∃ q ∈ b.tests, q.1.condition sc q.2 = text ∧ q.1.Tests rt ent s (q.2 ^^ holds) s'

namespace Gloss

variable {rt : Runtime} {sc : Scope} {b : Block}

theorem ofBlock_knowsTrue (h : b.Distinct sc) : (ofBlock rt sc b).KnowsTrue := by
  intro ent s holds s'
  constructor
  · rintro (⟨-, hs⟩ | ⟨q, hq, htext, -⟩)
    · exact hs
    · exact absurd (List.mem_map.2 ⟨q, hq, htext⟩) (List.nodup_cons.1 h.tests).1
  · exact fun hs => .inl ⟨rfl, hs⟩

/-- **Where texts tell statements apart there is a meaning for them**, the statements' own. -/
theorem ofBlock_explains (h : b.Distinct sc) : ∀ t ∈ Stmt.partsAll b, (ofBlock rt sc b).Explains rt sc t := by
  intro t ht
  refine ⟨fun text htext ent s s' => ⟨?_, ?_⟩, fun c hc negate ent s holds s' => ⟨?_, ?_⟩⟩
  · rintro ⟨u, hu, hs⟩
    have hsame := List.inj_on_of_nodup_map h.steps hu (Block.mem_steps.2 ⟨ht, htext⟩) rfl
    cases hsame
    exact hs
  · exact fun hs => ⟨t, Block.mem_steps.2 ⟨ht, htext⟩, hs⟩
  · have hq : (c, negate) ∈ b.tests := Block.mem_tests.2 ⟨t, ht, hc⟩
    obtain ⟨htrue, hnodup⟩ := List.nodup_cons.1 h.tests
    rintro (⟨htext, -⟩ | ⟨q, hq', htext, hs⟩)
    · exact absurd (List.mem_map.2 ⟨_, hq, htext⟩) htrue
    · cases List.inj_on_of_nodup_map hnodup hq' hq htext
      exact hs
  · exact fun hs => .inr ⟨(c, negate), Block.mem_tests.2 ⟨t, ht, hc⟩, rfl, hs⟩

end Gloss

/-! ## Printed statements -/

namespace Block

/-- **Printed statements mean what the statements mean.**  At every depth and behind every margin of blanks the text
of statements is read as one piece of code and no other.  From every state that code ends where the statements end,
and nowhere else, and it is never left before its end: however branches and loops are nested, every `else` goes with the
branch it was written for, and every loop runs its setup before each of its tests. -/
theorem text_reads_as_code {rt : Runtime} {sc : Scope} {b : Block} {G : Gloss} {margin : String}
    (hmargin : ∀ c ∈ margin.toList, Phrase.indents c = true)
    (hlegible : ∀ t ∈ Stmt.partsAll b, t.isLegible sc = true)
    (hexplains : ∀ t ∈ Stmt.partsAll b, G.Explains rt sc t) (htrue : G.KnowsTrue) (d : Nat) :
    ∃ code, (∀ cs, Clause.Reads .code (Phrase.ofText (Line.renderAll margin (b.lines sc d))) cs ↔ cs = code) ∧
      ∀ ent s left s', Clause.Does G (.all code) ent s left s' ↔ left = false ∧ Runs rt (.block b) ent s s' := by
  have hlays := Stmt.lays_linesAll sc d b hlegible
  have hreads := hlays.reads
  rw [← Line.ofText_renderAll hmargin hlays.flush] at hreads
  refine ⟨Stmt.clauses sc b, fun cs => ⟨fun h => h.unique hreads, ?_⟩, Stmt.does_clauses_iff htrue b hexplains⟩
  rintro rfl
  exact hreads

/-- Branches with nothing to do if their conditions hold, each alone in one side of a branch that has another side; and a
loop with a setup. -/
theorem text_reads_as_code_nested :
    let sc : Scope := ⟨#[⟨.local, .int, some "v1"⟩]⟩
    let b : Block :=
      [.branch (.compare .lt (.var 0) (.int 3))
        [.branch (.global "a" .int) [] [.assign (.var 0) (.int 1)]]
        [.branch (.global "b" .int) [.branch (.global "c" .int) [] [.assign (.var 0) (.int 2)]]
          [.assign (.var 0) (.int 3), .comment "else \x7b"]],
       .loop [.declare 0 (some (.int 4))] (.var 0) [.each true [.assign (.var 0) (.int 5)]]]
    let text := Line.renderAll "\t" (b.lines sc 0)
    text = String.join
      ["\tif (v1 < 3) \x7b\n",
       "\t    if (a <= 0) \x7b\n", "\t        v1 = 1\n", "\t    \x7d\n",
       "\t\x7d else if (b > 0) \x7b\n",
       "\t    if (c <= 0) \x7b\n", "\t        v1 = 2\n", "\t    \x7d\n",
       "\t\x7d else \x7b\n", "\t    v1 = 3\n", "\t    // else \x7b\n", "\t\x7d\n",
       "\twhile (true) \x7b\n", "\t    int v1 = 4\n",
       "\t    if (v1 <= 0) \x7b\n", "\t        break\n", "\t    \x7d\n",
       "\t    bibDB.reverseEach \x7b entry ->\n", "\t        v1 = 5\n", "\t    \x7d\n", "\t\x7d\n"] ∧
    ∃ code, (∀ cs, Clause.Reads .code (Phrase.ofText text) cs ↔ cs = code) ∧
      ∀ ent s left s', Clause.Does (Gloss.ofBlock .recording sc b) (.all code) ent s left s' ↔
        left = false ∧ Runs .recording (.block b) ent s s' := by
  intro sc b text
  have hdistinct : b.Distinct sc := ⟨by decide +kernel, by decide +kernel⟩
  exact ⟨by decide +kernel, text_reads_as_code (List.all_eq_true.1 (by decide)) (List.all_eq_true.1 (by decide +kernel))
    (Gloss.ofBlock_explains hdistinct) (Gloss.ofBlock_knowsTrue hdistinct) 0⟩

end Block
end Bibstyle
