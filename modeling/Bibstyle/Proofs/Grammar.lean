import Mathlib.Computability.Language
import Bibstyle.Proofs.Reading
/-!
# Grammar — which words are a style

The grammar is a language over words, and says nothing of spans or of how a style is read: a command is a keyword and its
lists in braces, a body is balanced, and a style is commands one after the other.  Every reader takes a phrase of the grammar
off the front, and gives back something that is written with just that phrase; and whatever follows, it takes every phrase of
its kind.
-/
namespace Bibstyle

open Computability

/-! ## Phrases -/

namespace Grammar

/-- A name that is given, such as a keyword. -/
def word (w : String) : Language Lexeme :=
  {[.name w]}

def braced (phrase : Language Lexeme) : Language Lexeme :=
  {[.opening]} * phrase * {[.closing]}

/-- Any number of names. -/
def names : Language Lexeme :=
  {ls | ∃ ns : List String, ls = ns.map .name}

def nameList : Language Lexeme :=
  braced names

def oneName : Language Lexeme :=
  braced {ls | ∃ n, ls = [.name n]}

def oneString : Language Lexeme :=
  braced {ls | ∃ s, ls = [.string s]}

/-- **Words whose braces pair up**: literals of any kind, and blocks of such words. -/
inductive Balanced : List Lexeme → Prop where
  | nil : Balanced []
  | literal {l : Lexeme} {ls : List Lexeme} (hl : l ≠ .opening ∧ l ≠ .closing) (h : Balanced ls) : Balanced (l :: ls)
  | block {inner ls : List Lexeme} (hinner : Balanced inner) (h : Balanced ls) :
    Balanced (.opening :: (inner ++ .closing :: ls))

def body : Language Lexeme :=
  braced {ls | Balanced ls}

/-- **The ten commands.** -/
def command : Language Lexeme :=
  word "entry" * nameList * nameList * nameList + word "function" * oneName * body +
  word "integers" * nameList + word "strings" * nameList + word "macro" * oneName * oneString +
  (word "execute" + word "iterate" + word "reverse") * oneName + word "read" + word "sort"

/-- **A style**: commands, one after the other. -/
def style : Language Lexeme :=
  command∗

theorem mem_braced {phrase : Language Lexeme} {ls : List Lexeme} :
    ls ∈ braced phrase ↔ ∃ inner ∈ phrase, ls = .opening :: (inner ++ [.closing]) := by
  simp only [braced, Language.mem_mul]
  constructor
  · rintro ⟨_, ⟨_, rfl, inner, hinner, rfl⟩, _, rfl, rfl⟩
    exact ⟨inner, hinner, rfl⟩
  · rintro ⟨inner, hinner, rfl⟩
    exact ⟨_, ⟨_, rfl, inner, hinner, rfl⟩, _, rfl, rfl⟩

end Grammar

/-! ## Writing -/

mutual

/-- **The words a term is written with.** -/
def Term.lexemes : Term → List Lexeme
  | .block ts _ => .opening :: (Term.lexemesAll ts ++ [.closing])
  | .integer n _ => [.integer n]
  | .string s _ => [.string s]
  | .quoted n _ => [.quoted n]
  | .name n _ | .field n _ | .entryInteger n _ | .entryString n _ => [.name n]

def Term.lexemesAll : List Term → List Lexeme
  | [] => []
  | t :: ts => t.lexemes ++ Term.lexemesAll ts

end

def Group.lexemes (g : Group) : List Lexeme :=
  g.toTerm.lexemes

/-- **The words a command is written with.** -/
def Command.lexemes : Command → List Lexeme
  | .entry fields ints strs _ => .name "entry" :: (fields.lexemes ++ ints.lexemes ++ strs.lexemes)
  | .function name body _ => .name "function" :: .opening :: .name name :: .closing :: body.lexemes
  | .integers names _ => .name "integers" :: names.lexemes
  | .strings names _ => .name "strings" :: names.lexemes
  | .abbreviation name value _ => [.name "macro", .opening, .name name, .closing, .opening, .string value, .closing]
  | .run .execute f _ => [.name "execute", .opening, .name f, .closing]
  | .run .iterate f _ => [.name "iterate", .opening, .name f, .closing]
  | .run .reverse f _ => [.name "reverse", .opening, .name f, .closing]
  | .read _ => [.name "read"]
  | .sort _ => [.name "sort"]

/-- **Two terms that may stand in a body and differ at most in their places.** -/
inductive Term.Alike : Term → Term → Prop where
  | block {ts us : List Term} {s u : Span} (h : List.Forall₂ Alike ts us) : Alike (.block ts s) (.block us u)
  | integer {n : Int32} {s u : Span} : Alike (.integer n s) (.integer n u)
  | string {v : String} {s u : Span} : Alike (.string v s) (.string v u)
  | quoted {n : String} {s u : Span} : Alike (.quoted n s) (.quoted n u)
  | name {n : String} {s u : Span} : Alike (.name n s) (.name n u)

theorem Term.lexemesAll_append (ts us : List Term) :
    Term.lexemesAll (ts ++ us) = Term.lexemesAll ts ++ Term.lexemesAll us := by
  induction ts with
  | nil => rfl
  | cons t ts ih => rw [List.cons_append, Term.lexemesAll, ih, Term.lexemesAll, List.append_assoc]

theorem Group.lexemes_eq (g : Group) : g.lexemes = .opening :: (Term.lexemesAll g.terms ++ [.closing]) := by
  rw [Group.lexemes, Group.toTerm, Term.lexemes]

theorem Grammar.balanced_lexemesAll {ts : List Term}
    (h : ∀ t ∈ ts, ∀ {ls : List Lexeme}, Balanced ls → Balanced (t.lexemes ++ ls)) : Balanced (Term.lexemesAll ts) := by
  induction ts with
  | nil => exact .nil
  | cons t ts ih =>
    rw [List.forall_mem_cons] at h
    exact h.1 (ih h.2)

/-- What may stand in a body is balanced, whatever balanced words follow. -/
theorem Term.InBody.balanced {P : Span → Prop} {t : Term} (h : t.InBody P) :
    ∀ {ls : List Lexeme}, Grammar.Balanced ls → Grammar.Balanced (t.lexemes ++ ls) := by
  induction h with
  | block _ _ ih =>
    intro ls hls
    rw [Term.lexemes, List.cons_append, List.append_assoc]
    exact .block (Grammar.balanced_lexemesAll ih) hls
  | integer | string | quoted | name =>
    intro ls hls
    exact .literal (by simp) hls

theorem Group.lexemes_mem_body {P : Span → Prop} {g : Group} (h : g.toTerm.InBody P) : g.lexemes ∈ Grammar.body := by
  cases h with
  | block hts _ =>
    have hinner := Grammar.balanced_lexemesAll fun t ht => (hts t ht).balanced
    exact Grammar.mem_braced.2 ⟨_, hinner, g.lexemes_eq⟩

/-- Balanced words are the words of terms that may stand in a body, wherever these are. -/
theorem Grammar.Balanced.exists_terms (span : Span) {ls : List Lexeme} (h : Balanced ls) :
    ∃ ts, (∀ t ∈ ts, Term.InBody (fun _ => True) t) ∧ Term.lexemesAll ts = ls := by
  induction h with
  | nil => exact ⟨[], List.forall_mem_nil _, rfl⟩
  | @literal l ls hl _ ih =>
    obtain ⟨ts, hts, rfl⟩ := ih
    have hone : ∀ t : Term, t.InBody (fun _ => True) → t.lexemes = [l] →
        ∃ us, (∀ u ∈ us, Term.InBody (fun _ => True) u) ∧ Term.lexemesAll us = l :: Term.lexemesAll ts := by
      intro t ht htl
      refine ⟨t :: ts, List.forall_mem_cons.2 ⟨ht, hts⟩, ?_⟩
      rw [Term.lexemesAll, htl]
      rfl
    cases l with
    | name n => exact hone (.name n span) (.name trivial) rfl
    | quoted n => exact hone (.quoted n span) (.quoted trivial) rfl
    | string s => exact hone (.string s span) (.string trivial) rfl
    | integer n => exact hone (.integer n span) (.integer trivial) rfl
    | opening => exact absurd rfl hl.1
    | closing => exact absurd rfl hl.2
  | block _ _ ihinner ih =>
    obtain ⟨us, hus, rfl⟩ := ihinner
    obtain ⟨ts, hts, rfl⟩ := ih
    refine ⟨.block us span :: ts, List.forall_mem_cons.2 ⟨.block hus trivial, hts⟩, ?_⟩
    simp [Term.lexemesAll, Term.lexemes]

/-! ## Readers of phrases -/

namespace Reader

section Takes

variable {α β : Type}

/-- **A reader of a phrase.**  What it takes off the front is a phrase, and the value it gives is written with the words
before and the phrase.  Whatever follows, it takes every phrase. -/
structure Takes (before : List Lexeme) (phrase : Language Lexeme) (write : α → List Lexeme)
    (read : List Token → Outcome α) : Prop where
  sound : ∀ {ts rest : List Token} {a : α}, read ts = .ok (a, rest) →
    ∃ front, ts = front ++ rest ∧ front.map (·.lexeme) ∈ phrase ∧ write a = before ++ front.map (·.lexeme)
  complete : ∀ {front : List Token} (rest : List Token), front.map (·.lexeme) ∈ phrase →
    ∃ a, read (front ++ rest) = .ok (a, rest)

/-- **One reader after another**; the second may depend on what the first gives. -/
def andThen (read : List Token → Outcome α) (more : α → List Token → Outcome β) (ts : List Token) : Outcome β :=
  match read ts with
  | .error e => .error e
  | .ok (a, rest) => more a rest

theorem Takes.andThen {before : List Lexeme} {phrase phrase' : Language Lexeme} {write : α → List Lexeme}
    {write' : β → List Lexeme} {read : List Token → Outcome α} {more : α → List Token → Outcome β}
    (h : Takes [] phrase write read) (hmore : ∀ a, Takes (before ++ write a) phrase' write' (more a)) :
    Takes before (phrase * phrase') write' (andThen read more) where
  sound {ts rest b} hb := by
    unfold Reader.andThen at hb
    split at hb
    · cases hb
    · rename_i a mid ha
      obtain ⟨front, rfl, hfront, hwrite⟩ := h.sound ha
      obtain ⟨front', rfl, hfront', hwrite'⟩ := (hmore a).sound hb
      refine ⟨front ++ front', by rw [List.append_assoc], ?_, ?_⟩
      · rw [List.map_append]
        exact Language.mem_mul.2 ⟨_, hfront, _, hfront', rfl⟩
      · rw [hwrite', hwrite, List.map_append, List.nil_append, List.append_assoc]
  complete {front} rest hfront := by
    obtain ⟨l, hl, l', hl', heq⟩ := Language.mem_mul.1 hfront
    obtain ⟨first, second, rfl, rfl, rfl⟩ := List.map_eq_append_iff.1 heq.symm
    -- the first reader must take its phrase with the second one still in front of the rest
    obtain ⟨a, ha⟩ := h.complete (second ++ rest) hl
    obtain ⟨b, hb⟩ := (hmore a).complete rest hl'
    refine ⟨b, ?_⟩
    rw [Reader.andThen, List.append_assoc, ha]
    exact hb

theorem Takes.done {before : List Lexeme} {write : α → List Lexeme} {a : α} (h : write a = before) :
    Takes before 1 write (fun ts => .ok (a, ts)) where
  sound {ts rest b} hb := by
    cases hb
    exact ⟨[], rfl, rfl, by rw [h, List.map_nil, List.append_nil]⟩
  complete {front} rest hfront := by
    have hnil : front = [] := List.map_eq_nil_iff.1 ((Language.mem_one _).1 hfront)
    exact ⟨a, by rw [hnil, List.nil_append]⟩

/-- A reader whose value is made into another. -/
theorem Takes.map {before : List Lexeme} {phrase : Language Lexeme} {write : α → List Lexeme} {write' : β → List Lexeme}
    {read : List Token → Outcome α} {f : α → β} (h : Takes [] phrase write read)
    (hwrite : ∀ a, write' (f a) = before ++ write a) :
    Takes before phrase write' (Reader.andThen read fun a ts => .ok (f a, ts)) := by
  rw [← mul_one phrase]
  exact h.andThen fun a => .done (hwrite a)

end Takes

variable {last : Last} {place : Place}

theorem takes_opening : Takes [] {[.opening]} (fun _ => [.opening]) (opening last place) where
  sound {ts rest s} h := by
    cases ts with
    | nil => cases h
    | cons t ts =>
      simp only [opening] at h
      split at h
      · rename_i ht
        cases h
        exact ⟨[t], rfl, by rw [List.map_singleton, ht]; rfl, by rw [List.map_singleton, ht]; rfl⟩
      · cases h
  complete {front} rest h := by
    obtain ⟨t, rfl, ht⟩ := List.map_eq_singleton_iff.1 h
    exact ⟨t.span, by simp [opening, ht]⟩

section Names

variable {make : String → Span → Term} (hmake : ∀ n s, (make n s).lexemes = [.name n])
include hmake

theorem takes_namesToClose : Takes [] (Grammar.names * {[.closing]}) (fun r => Term.lexemesAll r.1 ++ [.closing])
    (namesToClose last place make) where
  sound {ts rest r} h := by
    induction ts generalizing r with
    | nil => cases h
    | cons t ts ih =>
      simp only [namesToClose] at h
      split at h
      · rename_i ht
        cases h
        refine ⟨[t], rfl, Language.mem_mul.2 ⟨[], ⟨[], rfl⟩, _, rfl, ?_⟩, ?_⟩
        · simp [ht]
        · simp [ht, Term.lexemesAll]
      · rename_i n ht
        split at h
        · cases h
        · rename_i names close rest' hmore
          cases h
          obtain ⟨front, rfl, hfront, hwrite⟩ := ih hmore
          obtain ⟨_, ⟨ns, rfl⟩, _, rfl, heq⟩ := Language.mem_mul.1 hfront
          refine ⟨t :: front, rfl, Language.mem_mul.2 ⟨_, ⟨n :: ns, rfl⟩, _, rfl, ?_⟩, ?_⟩
          · simp [ht, ← heq]
          · simp only [List.nil_append] at hwrite
            simp [ht, Term.lexemesAll, hmake, hwrite]
      · cases h
  complete {front} rest h := by
    obtain ⟨_, ⟨ns, rfl⟩, _, rfl, heq⟩ := Language.mem_mul.1 h
    induction ns generalizing front with
    | nil =>
      obtain ⟨t, rfl, ht⟩ := List.map_eq_singleton_iff.1 heq.symm
      exact ⟨([], t.span), by simp [namesToClose, ht]⟩
    | cons n ns ih =>
      obtain ⟨t, front, rfl, ht, hfront⟩ := List.map_eq_cons_iff.1 heq.symm
      obtain ⟨⟨names, close⟩, hr⟩ := ih (Language.mem_mul.2 ⟨_, ⟨ns, rfl⟩, _, rfl, hfront.symm⟩) hfront.symm
      exact ⟨(make n t.span :: names, close), by simp [namesToClose, ht, hr]⟩

theorem takes_nameList : Takes [] Grammar.nameList Group.lexemes (nameList last place make) := by
  have hcut : nameList last place make = andThen (opening last place) fun start =>
      andThen (namesToClose last place make) fun r ts => .ok (⟨r.1, start.cover r.2⟩, ts) := by
    funext ts
    unfold nameList andThen
    grind
  rw [hcut, Grammar.nameList, Grammar.braced, mul_assoc]
  exact takes_opening.andThen fun start => (takes_namesToClose hmake).map fun r => Group.lexemes_eq _

end Names

/-- Words that are one word in braces. -/
theorem exists_one {make : String → Lexeme} {front : List Token}
    (h : front.map (·.lexeme) ∈ Grammar.braced {ls | ∃ x, ls = [make x]}) :
    ∃ (x : String) (t u v : Token), front = [t, u, v] ∧ t.lexeme = .opening ∧ u.lexeme = make x ∧ v.lexeme = .closing := by
  obtain ⟨_, ⟨x, rfl⟩, heq⟩ := Grammar.mem_braced.1 h
  obtain ⟨t, front, rfl, ht, hfront⟩ := List.map_eq_cons_iff.1 heq
  obtain ⟨u, front, rfl, hu, hfront⟩ := List.map_eq_cons_iff.1 hfront
  obtain ⟨v, rfl, hv⟩ := List.map_eq_singleton_iff.1 hfront
  exact ⟨x, t, u, v, rfl, ht, hu, hv⟩

theorem takes_singleName :
    Takes [] Grammar.oneName (fun r => [.opening, .name r.1, .closing]) (singleName last place) where
  sound {ts rest r} h := by
    unfold singleName at h
    split at h
    · cases h
    · rename_i n s span rest hlist
      cases h
      obtain ⟨front, rfl, -, hwrite⟩ := (takes_nameList fun _ _ => rfl).sound hlist
      have hfront : front.map (·.lexeme) = [.opening, .name n, .closing] := hwrite.symm
      exact ⟨front, rfl, Grammar.mem_braced.2 ⟨_, ⟨n, rfl⟩, hfront⟩, hfront.symm⟩
    · cases h
  complete {front} rest h := by
    obtain ⟨n, t, u, v, rfl, ht, hu, hv⟩ := exists_one h
    exact ⟨(n, t.span.cover v.span), by simp [singleName, nameList, opening, namesToClose, ht, hu, hv]⟩

theorem takes_singleString :
    Takes [] Grammar.oneString (fun r => [.opening, .string r.1, .closing]) (singleString last place) where
  sound {ts rest r} h := by
    unfold singleString at h
    split at h
    · cases h
    · cases h
    · rename_i start t ts hopen
      obtain ⟨front, rfl, -, hwrite⟩ := takes_opening.sound hopen
      split at h
      · rename_i value ht
        split at h
        · cases h
        · rename_i u rest
          split at h
          · rename_i hu
            cases h
            have hfront : (front ++ [t, u]).map (·.lexeme) = [.opening, .string value, .closing] := by
              rw [List.map_append, ← List.nil_append (front.map _), ← hwrite]
              simp [ht, hu]
            exact ⟨front ++ [t, u], by simp, Grammar.mem_braced.2 ⟨_, ⟨value, rfl⟩, hfront⟩, hfront.symm⟩
          · cases h
      · cases h
  complete {front} rest h := by
    obtain ⟨s, t, u, v, rfl, ht, hu, hv⟩ := exists_one h
    exact ⟨(s, t.span.cover v.span), by simp [singleString, opening, ht, hu, hv]⟩

/-! ## Bodies -/

/-- The words of blocks that are still open, from the brace of the outermost on. -/
def Open.lexemes (inner : Open) (outer : List Open) : List Lexeme :=
  (inner :: outer).reverse.flatMap fun b => .opening :: Term.lexemesAll b.done.reverse

theorem Open.lexemes_cons (inner : Open) (outer : List Open) :
    inner.lexemes outer = outer.reverse.flatMap (fun b => .opening :: Term.lexemesAll b.done.reverse) ++
      .opening :: Term.lexemesAll inner.done.reverse := by
  simp [Open.lexemes]

theorem Open.lexemes_add (inner : Open) (outer : List Open) (t : Term) :
    (inner.add t).lexemes outer = inner.lexemes outer ++ t.lexemes := by
  simp [Open.lexemes_cons, Open.add, Term.lexemesAll_append, Term.lexemesAll]

/-- A block that is closed has the words it had when it was open, and a brace. -/
theorem Open.lexemes_close (inner around : Open) (outer : List Open) (close : Span) :
    (around.add (inner.close close).toTerm).lexemes outer = inner.lexemes (around :: outer) ++ [.closing] := by
  rw [Open.lexemes_add]
  simp [Open.lexemes, Open.close, Group.toTerm, Term.lexemes]

/-- **A body is written with the words it was read from.** -/
theorem lexemes_blocksToClose : ∀ {ts rest : List Token} {inner : Open} {outer : List Open} {g : Group},
    blocksToClose last inner outer ts = .ok (g, rest) →
      ∃ front, ts = front ++ rest ∧ g.lexemes = inner.lexemes outer ++ front.map (·.lexeme)
  | [], _, _, _, _, h => by simp [blocksToClose] at h
  | t :: ts, rest, inner, outer, g, h => by
    -- whatever a word does to the open blocks, it is the last of their words from then on
    have hnext : ∀ {inner' : Open} {outer' : List Open}, inner'.lexemes outer' = inner.lexemes outer ++ [t.lexeme] →
        blocksToClose last inner' outer' ts = .ok (g, rest) →
          ∃ front, t :: ts = front ++ rest ∧ g.lexemes = inner.lexemes outer ++ front.map (·.lexeme) := by
      intro inner' outer' hinner h
      obtain ⟨front, rfl, hg⟩ := lexemes_blocksToClose h
      exact ⟨t :: front, rfl, by rw [hg, hinner, List.append_assoc]; rfl⟩
    unfold blocksToClose at h
    split at h <;> rename_i ht
    · split at h
      · cases h
        refine ⟨[t], rfl, ?_⟩
        simp [ht, Open.lexemes, Open.close, Group.lexemes_eq]
      · exact hnext (by rw [Open.lexemes_close, ht]) h
    · exact hnext (by simp [Open.lexemes_cons, ht, Term.lexemesAll]) h
    all_goals exact hnext (by rw [Open.lexemes_add, ht]; rfl) h

/-- A term that is read again, with other places, from any words it is written with. -/
def Reread (last : Last) (t : Term) : Prop :=
  ∀ {front : List Token}, front.map (·.lexeme) = t.lexemes → ∃ t', Term.Alike t' t ∧
    ∀ (inner : Open) (outer : List Open) (rest : List Token),
      blocksToClose last inner outer (front ++ rest) = blocksToClose last (inner.add t') outer rest

theorem reread_all : ∀ {terms : List Term} {front : List Token}, (∀ t ∈ terms, Reread last t) →
    front.map (·.lexeme) = Term.lexemesAll terms → ∃ terms', List.Forall₂ Term.Alike terms' terms ∧
      ∀ (inner : Open) (outer : List Open) (rest : List Token), blocksToClose last inner outer (front ++ rest) =
        blocksToClose last ⟨inner.start, terms'.reverse ++ inner.done⟩ outer rest
  | [], front, _, hfront => by
    cases List.map_eq_nil_iff.1 hfront
    exact ⟨[], .nil, fun _ _ _ => rfl⟩
  | t :: terms, front, h, hfront => by
    rw [List.forall_mem_cons] at h
    obtain ⟨first, second, rfl, hfirst, hsecond⟩ := List.map_eq_append_iff.1 hfront
    obtain ⟨t', ht', hread⟩ := h.1 hfirst
    obtain ⟨terms', hterms', hmore⟩ := reread_all h.2 hsecond
    refine ⟨t' :: terms', .cons ht' hterms', fun inner outer rest => ?_⟩
    rw [List.append_assoc, hread, hmore]
    simp [Open.add]

theorem reread_literal {t : Term} {l : Lexeme} (make : Span → Term) (ht : t.lexemes = [l]) (halike : ∀ s, (make s).Alike t)
    (hread : ∀ (w : Token) (inner : Open) (outer : List Open) (rest : List Token), w.lexeme = l →
      blocksToClose last inner outer (w :: rest) = blocksToClose last (inner.add (make w.span)) outer rest) :
    Reread last t := by
  intro front hfront
  obtain ⟨w, rfl, hw⟩ := List.map_eq_singleton_iff.1 (hfront.trans ht)
  exact ⟨make w.span, halike _, fun inner outer rest => hread w inner outer rest hw⟩

/-- **What may stand in a body is read again from its words.** -/
theorem reread_of_inBody (last : Last) {P : Span → Prop} {t : Term} (h : t.InBody P) : Reread last t := by
  induction h with
  | block _ _ ih =>
    intro front hfront
    obtain ⟨o, front, rfl, ho, hfront⟩ := List.map_eq_cons_iff.1 hfront
    obtain ⟨inside, close, rfl, hinside, hclose⟩ := List.map_eq_append_iff.1 hfront
    obtain ⟨c, rfl, hc⟩ := List.map_eq_singleton_iff.1 hclose
    obtain ⟨terms, hterms, hread⟩ := reread_all ih hinside
    refine ⟨.block terms (o.span.cover c.span), .block hterms, fun inner outer rest => ?_⟩
    calc blocksToClose last inner outer (o :: (inside ++ [c]) ++ rest)
      _ = blocksToClose last ⟨o.span, []⟩ (inner :: outer) (inside ++ c :: rest) := by simp [blocksToClose, ho]
      _ = blocksToClose last ⟨o.span, terms.reverse ++ []⟩ (inner :: outer) (c :: rest) := hread _ _ _
      _ = blocksToClose last (inner.add (.block terms (o.span.cover c.span))) outer rest := by
        simp [blocksToClose, hc, Open.close, Group.toTerm]
  | integer => exact reread_literal (.integer _) rfl (fun _ => .integer) (fun w _ _ _ hw => by simp [blocksToClose, hw])
  | string => exact reread_literal (.string _) rfl (fun _ => .string) (fun w _ _ _ hw => by simp [blocksToClose, hw])
  | quoted => exact reread_literal (.quoted _) rfl (fun _ => .quoted) (fun w _ _ _ hw => by simp [blocksToClose, hw])
  | name => exact reread_literal (.name _) rfl (fun _ => .name) (fun w _ _ _ hw => by simp [blocksToClose, hw])

/-- **A body is read again from its words.** -/
theorem body_of_lexemes (last : Last) {P : Span → Prop} {g : Group} (h : g.toTerm.InBody P) {front : List Token}
    (hfront : front.map (·.lexeme) = g.lexemes) (rest : List Token) :
    ∃ g', body last (front ++ rest) = .ok (g', rest) ∧ g'.toTerm.Alike g.toTerm := by
  rw [g.lexemes_eq] at hfront
  obtain ⟨o, front, rfl, ho, hfront⟩ := List.map_eq_cons_iff.1 hfront
  obtain ⟨inside, close, rfl, hinside, hclose⟩ := List.map_eq_append_iff.1 hfront
  obtain ⟨c, rfl, hc⟩ := List.map_eq_singleton_iff.1 hclose
  cases h with
  | block hin _ =>
    obtain ⟨terms, hterms, hread⟩ := reread_all (fun t ht => reread_of_inBody last (hin t ht)) hinside
    refine ⟨⟨terms, o.span.cover c.span⟩, ?_, .block hterms⟩
    calc body last (o :: (inside ++ [c]) ++ rest)
      _ = blocksToClose last ⟨o.span, []⟩ [] (inside ++ c :: rest) := by simp [body, opening, ho]
      _ = blocksToClose last ⟨o.span, terms.reverse ++ []⟩ [] (c :: rest) := hread _ _ _
      _ = .ok (⟨terms, o.span.cover c.span⟩, rest) := by simp [blocksToClose, hc, Open.close]

theorem takes_body : Takes [] Grammar.body Group.lexemes (body last) where
  sound {ts rest g} h := by
    have hin : Reads (fun _ => True) (fun g => g.toTerm.InBody fun _ => True) (body last ts) :=
      reads_body (fun _ _ => trivial) (fun _ _ _ _ => trivial) (fun _ _ => trivial)
    rw [h] at hin
    unfold body at h
    split at h
    · cases h
    · rename_i start ts' hopen
      obtain ⟨front, rfl, -, hwrite⟩ := takes_opening.sound hopen
      obtain ⟨front', rfl, hg⟩ := lexemes_blocksToClose h
      have hfront : g.lexemes = (front ++ front').map (·.lexeme) := by
        rw [hg, List.map_append, ← List.nil_append (front.map _), ← hwrite]
        rfl
      exact ⟨front ++ front', by rw [List.append_assoc], hfront ▸ Group.lexemes_mem_body hin.1, hfront⟩
  complete {front} rest h := by
    obtain ⟨_, hls, heq⟩ := Grammar.mem_braced.1 h
    obtain ⟨o, front', rfl, -, -⟩ := List.map_eq_cons_iff.1 heq
    obtain ⟨terms, hterms, rfl⟩ := Grammar.Balanced.exists_terms o.span hls
    have hin : (Group.mk terms o.span).toTerm.InBody fun _ => True := .block hterms trivial
    obtain ⟨g, hg, -⟩ := body_of_lexemes last hin (heq.trans (Group.lexemes_eq ⟨terms, o.span⟩).symm) rest
    exact ⟨g, hg⟩

/-! ## Commands -/

/-- The lists that follow a keyword. -/
def operands : Keyword → Language Lexeme
  | .entry => Grammar.nameList * (Grammar.nameList * Grammar.nameList)
  | .function => Grammar.oneName * Grammar.body
  | .integers | .strings => Grammar.nameList
  | .abbreviation => Grammar.oneName * Grammar.oneString
  | .run _ => Grammar.oneName
  | .read | .sort => 1

/-- **A command is a keyword and what follows it.** -/
theorem mem_command_iff {ls : List Lexeme} :
    ls ∈ Grammar.command ↔ ∃ k : Keyword, ls ∈ Grammar.word k.word * operands k := by
  simp only [Grammar.command, Language.mem_add, mul_assoc, add_mul]
  constructor
  · rintro (((((((h | h) | h) | h) | h) | ((h | h) | h)) | h) | h)
    · exact ⟨.entry, h⟩
    · exact ⟨.function, h⟩
    · exact ⟨.integers, h⟩
    · exact ⟨.strings, h⟩
    · exact ⟨.abbreviation, h⟩
    · exact ⟨.run .execute, h⟩
    · exact ⟨.run .iterate, h⟩
    · exact ⟨.run .reverse, h⟩
    · exact ⟨.read, (mul_one (Grammar.word "read")).symm ▸ h⟩
    · exact ⟨.sort, (mul_one (Grammar.word "sort")).symm ▸ h⟩
  · rintro ⟨k, hk⟩
    cases k with
    | run mode => cases mode <;> simp_all [operands, Keyword.word]
    | _ => simp_all [operands, Keyword.word]

section Commands

variable (key : Span)

theorem takes_declaration {make : Group → Span → Command} {w : String}
    (hmake : ∀ g s, (make g s).lexemes = .name w :: g.lexemes) :
    Takes [.name w] Grammar.nameList Command.lexemes (declaration last place make key) := by
  have hcut : declaration last place make key =
      andThen (nameList last place .name) fun g ts => .ok (make g (key.cover g.span), ts) := by
    funext ts
    unfold declaration andThen
    grind
  rw [hcut]
  exact (takes_nameList fun _ _ => rfl).map fun g => hmake g _

theorem takes_entryLists : Takes [.name "entry"] (operands .entry) Command.lexemes (entryLists last key) := by
  have hcut : entryLists last key = andThen (nameList last .entryFields .field) fun fields =>
      andThen (nameList last .entryIntegers .entryInteger) fun integers =>
        andThen (nameList last .entryStrings .entryString) fun strings ts =>
          .ok (.entry fields integers strings (key.cover strings.span), ts) := by
    funext ts
    unfold entryLists andThen
    grind
  rw [hcut]
  refine (takes_nameList fun _ _ => rfl).andThen fun fields => (takes_nameList fun _ _ => rfl).andThen fun integers =>
    (takes_nameList fun _ _ => rfl).map fun strings => ?_
  simp [Command.lexemes]

theorem takes_functionParts : Takes [.name "function"] (operands .function) Command.lexemes (functionParts last key) := by
  have hcut : functionParts last key = andThen (singleName last .functionName) fun r =>
      andThen (body last) fun g ts => .ok (.function r.1 g (key.cover g.span), ts) := by
    funext ts
    unfold functionParts andThen
    grind
  rw [hcut]
  exact takes_singleName.andThen fun r => takes_body.map fun g => rfl

theorem takes_abbreviationParts :
    Takes [.name "macro"] (operands .abbreviation) Command.lexemes (abbreviationParts last key) := by
  have hcut : abbreviationParts last key = andThen (singleName last .abbreviationName) fun r =>
      andThen (singleString last .abbreviationValue) fun v ts => .ok (.abbreviation r.1 v.1 (key.cover v.2), ts) := by
    funext ts
    unfold abbreviationParts andThen
    grind
  rw [hcut]
  exact takes_singleName.andThen fun r => takes_singleString.map fun v => rfl

theorem takes_runTarget (mode : RunMode) :
    Takes [.name (Keyword.run mode).word] Grammar.oneName Command.lexemes (runTarget last mode key) := by
  have hcut : runTarget last mode key =
      andThen (singleName last (.target mode)) fun r ts => .ok (.run mode r.1 (key.cover r.2), ts) := by
    funext ts
    unfold runTarget andThen
    grind
  rw [hcut]
  exact takes_singleName.map fun r => by cases mode <;> rfl

end Commands

theorem takes_afterKeyword (last : Last) (key : Span) (k : Keyword) :
    Takes [.name k.word] (operands k) Command.lexemes (fun ts => afterKeyword last key ts k) := by
  cases k with
  | entry => exact takes_entryLists key
  | function => exact takes_functionParts key
  | integers => exact takes_declaration key fun _ _ => rfl
  | strings => exact takes_declaration key fun _ _ => rfl
  | abbreviation => exact takes_abbreviationParts key
  | run mode => exact takes_runTarget key mode
  | read => exact .done rfl
  | sort => exact .done rfl

theorem keyword_of?_iff {w : String} {k : Keyword} : Keyword.of? w = some k ↔ k.word = w := by
  constructor
  · intro h
    simpa using List.find?_some h
  · rintro rfl
    cases k with
    | run mode => cases mode <;> decide
    | _ => decide

theorem command_sound {t : Token} {ts rest : List Token} {c : Command} (h : command last t ts = .ok (c, rest)) :
    ∃ front, t :: ts = front ++ rest ∧ front.map (·.lexeme) ∈ Grammar.command ∧ c.lexemes = front.map (·.lexeme) := by
  unfold command at h
  split at h
  · rename_i w ht
    split at h
    · rename_i k hk
      obtain ⟨front, rfl, hfront, hwrite⟩ := (takes_afterKeyword last t.span k).sound h
      rw [keyword_of?_iff] at hk
      have hwords : (t :: front).map (·.lexeme) = [.name k.word] ++ front.map (·.lexeme) := by
        rw [List.map_cons, ht, hk]
        rfl
      refine ⟨t :: front, rfl, ?_, hwrite.trans hwords.symm⟩
      rw [hwords, mem_command_iff]
      exact ⟨k, Language.mem_mul.2 ⟨_, rfl, _, hfront, rfl⟩⟩
    · cases h
  · cases h

theorem command_complete (last : Last) {front : List Token} (rest : List Token) (h : front.map (·.lexeme) ∈ Grammar.command) :
    ∃ t ts c, front = t :: ts ∧ command last t (ts ++ rest) = .ok (c, rest) := by
  obtain ⟨k, hk⟩ := mem_command_iff.1 h
  obtain ⟨_, rfl, more, hmore, heq⟩ := Language.mem_mul.1 hk
  obtain ⟨t, ts, rfl, ht, rfl⟩ := List.map_eq_cons_iff.1 heq.symm
  obtain ⟨c, hc⟩ := (takes_afterKeyword last t.span k).complete rest hmore
  refine ⟨t, ts, c, rfl, ?_⟩
  simp only [command, ht, keyword_of?_iff.2 rfl]
  exact hc

theorem commands_sound {ts : List Token} {cs : List Command} (h : commands last ts = .ok cs) :
    ts.map (·.lexeme) ∈ Grammar.style ∧ cs.flatMap Command.lexemes = ts.map (·.lexeme) := by
  fun_induction commands last ts generalizing cs with
  | case1 =>
    cases h
    exact ⟨Language.nil_mem_kstar _, rfl⟩
  | case2 => cases h
  | case3 => cases h
  | case4 t ts c rest hc _ cs hmore ih =>
    cases h
    obtain ⟨front, hts, hfront, hwrite⟩ := command_sound hc
    obtain ⟨hrest, hcs⟩ := ih hmore
    rw [hts, List.map_append]
    constructor
    · obtain ⟨phrases, heq, hphrases⟩ := Language.mem_kstar.1 hrest
      have hall := List.forall_mem_cons.2 ⟨hfront, hphrases⟩
      exact Language.mem_kstar.2 ⟨_, by rw [heq, List.flatten_cons], hall⟩
    · rw [List.flatMap_cons, hwrite, hcs]

theorem commands_cons {t : Token} {ts rest : List Token} {c : Command} {cs : List Command}
    (hc : command last t ts = .ok (c, rest)) (hcs : commands last rest = .ok cs) :
    commands last (t :: ts) = .ok (c :: cs) := by
  unfold commands
  split
  · simp_all
  · simp_all

theorem commands_complete (last : Last) {ts : List Token} (h : ts.map (·.lexeme) ∈ Grammar.style) :
    ∃ cs, commands last ts = .ok cs := by
  obtain ⟨phrases, heq, hphrases⟩ := Language.mem_kstar.1 h
  induction phrases generalizing ts with
  | nil =>
    cases List.map_eq_nil_iff.1 heq
    exact ⟨[], by rw [commands]⟩
  | cons phrase phrases ih =>
    rw [List.forall_mem_cons] at hphrases
    obtain ⟨front, rest, rfl, rfl, hrest⟩ := List.map_eq_append_iff.1 heq
    obtain ⟨cs, hcs⟩ := ih (Language.mem_kstar.2 ⟨phrases, hrest, hphrases.2⟩) hrest hphrases.2
    obtain ⟨t, ts, c, rfl, hc⟩ := command_complete last rest hphrases.1
    exact ⟨c :: cs, commands_cons hc hcs⟩

theorem program_grammatical {ts : List Token} {cs : List Command} (h : program ts = .ok cs) :
    ∀ c ∈ cs, c.Grammatical fun _ => True := by
  have hat := @commands_at (fun _ => True) (ts.getLast?.map (·.span)) ts (fun _ _ => trivial) (fun _ _ _ _ => trivial)
    (fun _ _ => trivial)
  rw [program] at h
  rwa [h] at hat

/-- **Words are read exactly if they are a style**, wherever they stand.  The commands are then written with just these words,
the lists of an entry hold names of their own kinds, and no such name stands in a body. -/
theorem program_iff_style (ts : List Token) :
    ((∃ cs, program ts = .ok cs) ↔ ts.map (·.lexeme) ∈ Grammar.style) ∧
    ∀ cs, program ts = .ok cs → cs.flatMap Command.lexemes = ts.map (·.lexeme) ∧
      ∀ c ∈ cs, c.Grammatical fun _ => True := by
  refine ⟨⟨fun ⟨cs, hcs⟩ => (commands_sound hcs).1, commands_complete _⟩, fun cs hcs => ?_⟩
  exact ⟨(commands_sound hcs).2, program_grammatical hcs⟩

end Reader
end Bibstyle
