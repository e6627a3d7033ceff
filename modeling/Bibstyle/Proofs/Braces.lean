import Mathlib.Data.List.Basic
import Bibstyle.Proofs.Execution
/-!
# Braces — the grammar of code in braces

Text is read line by line, and indentation counts for nothing.  A line opens braces, closes them, does both, leaves a
loop, or is a remark; any other line is one step and is not looked into, and neither is the condition of a line that
opens braces.  An `else` belongs to the braces that close on its line, and `else if` goes on with a branch whose closing
brace closes both.  Lines are read in one way, so that code and its meaning belong to the text.
-/
namespace Bibstyle

/-! ## Lines -/

/-- **What a line says.** -/
inductive Phrase where
  | step (text : String)
  | remark
  | leave
  | ask (test : String)
  | elseAsk (test : String)
  | otherwise
  | repeated (test : String)
  | forEach (reverse : Bool)
  | close
  deriving DecidableEq

namespace Phrase

def endsLine (c : Char) : Bool :=
  c == '\n' || c == '\r'

def indents (c : Char) : Bool :=
  c == ' ' || c == '\t'

/-- What stands in a line between two texts that it begins and ends with. -/
def between? (before after : String) (line : List Char) : Option String :=
  ((line.dropPrefix? before.toList).bind (·.dropSuffix? after.toList)).map String.ofList

theorem between?_eq_some_iff {before after t : String} {line : List Char} :
    between? before after line = some t ↔ line = before.toList ++ t.toList ++ after.toList := by
  simp only [between?, Option.map_eq_some_iff, Option.bind_eq_some_iff, List.dropPrefix?_eq_some_iff,
    List.dropSuffix?_eq_some_iff, beq_iff_eq]
  constructor
  · rintro ⟨cs, ⟨r, ⟨_, rfl, rfl⟩, ⟨_, rfl, rfl⟩⟩, rfl⟩
    rw [String.toList_ofList, List.append_assoc]
  · rintro rfl
    exact ⟨t.toList, ⟨_, ⟨_, List.append_assoc _ _ _, rfl⟩, ⟨_, rfl, rfl⟩⟩, String.ofList_toList⟩

theorem between?_append (before t after : String) : between? before after (before ++ t ++ after).toList = some t := by
  rw [between?_eq_some_iff, String.toList_append, String.toList_append]

/-- A line that is one of the fixed ones, or a step. -/
def ofFixed : String → Phrase
  | "\x7d" => close
  | "\x7d else \x7b" => otherwise
  | "break" => leave
  | "bibDB.each \x7b entry ->" => forEach false
  | "bibDB.reverseEach \x7b entry ->" => forEach true
  | t => step t

/-- **What a line says**, its indentation taken away. -/
def ofLine (line : List Char) : Phrase :=
  if "//".toList.isPrefixOf line then remark
  else match between? "\x7d else if (" ") \x7b" line with
    | some t => elseAsk t
    | none => match between? "if (" ") \x7b" line with
      | some t => ask t
      | none => match between? "while (" ") \x7b" line with
        | some t => repeated t
        | none => ofFixed (String.ofList line)

/-- What a line of a text says; an empty one says nothing. -/
def ofRow (row : List Char) : Option Phrase :=
  match row.dropWhile indents with
  | [] => none
  | line => some (ofLine line)

/-- **What the lines of a text say.** -/
def ofText (text : String) : List Phrase :=
  (text.toList.splitOnP endsLine).filterMap ofRow

/-! ### Texts that fill a line -/

/-- No line ends in the text. -/
def isOneLine (t : String) : Bool :=
  t.toList.all (!endsLine ·)

/-- A line as it is once its indentation is taken away. -/
def isFlush (t : String) : Bool :=
  isOneLine t && t.toList.head?.any (!indents ·)

/-- **A text that is a line by itself and no part of the grammar.** -/
def isStep (t : String) : Bool :=
  isFlush t && !"//".toList.isPrefixOf t.toList && !"\x7b".toList.isSuffixOf t.toList &&
    !"->".toList.isSuffixOf t.toList && t != "\x7d" && t != "break"

theorem isOneLine_append (s t : String) : isOneLine (s ++ t) = (isOneLine s && isOneLine t) := by
  rw [isOneLine, String.toList_append, List.all_append]
  rfl

/-- A text without an end of line fills a line between two that have none either, the first of them flush. -/
theorem isFlush_between {before t after : String} (hbefore : isFlush before = true) (ht : isOneLine t = true)
    (hafter : isOneLine after = true) : isFlush (before ++ t ++ after) = true := by
  rw [isFlush, Bool.and_eq_true] at hbefore ⊢
  refine ⟨by rw [isOneLine_append, isOneLine_append, hbefore.1, ht, hafter]; rfl, ?_⟩
  rw [String.toList_append, String.toList_append]
  cases hb : before.toList with
  | nil =>
    rw [hb] at hbefore
    cases hbefore.2
  | cons c cs =>
    rw [hb] at hbefore
    exact hbefore.2

theorem isFlush_of_isStep {t : String} (h : isStep t = true) : isFlush t = true := by
  simp only [isStep, Bool.and_eq_true] at h
  exact h.1.1.1.1.1

theorem between?_of_isStep {before t : String} (h : isStep t = true) : between? before ") \x7b" t.toList = none := by
  rw [Option.eq_none_iff_forall_ne_some]
  intro u hu
  rw [between?_eq_some_iff] at hu
  have hsuffix : "\x7b".toList.isSuffixOf t.toList = true := by
    rw [List.isSuffixOf_iff_suffix, hu]
    exact ⟨before.toList ++ u.toList ++ [')', ' '], by rw [List.append_assoc]; rfl⟩
  simp only [isStep, Bool.and_eq_true, Bool.not_eq_true'] at h
  rw [h.1.1.1.2] at hsuffix
  cases hsuffix

theorem ofFixed_of_isStep {t : String} (h : isStep t = true) : ofFixed t = step t := by
  unfold ofFixed
  split
  all_goals first
    | rfl
    | exact absurd h (by decide)

/-- **A step is read as what it is.** -/
theorem ofLine_of_isStep {t : String} (h : isStep t = true) : ofLine t.toList = step t := by
  have hremark : "//".toList.isPrefixOf t.toList = false := by
    simp only [isStep, Bool.and_eq_true, Bool.not_eq_true'] at h
    exact h.1.1.1.1.2
  rw [ofLine, hremark, between?_of_isStep h, between?_of_isStep h, between?_of_isStep h, String.ofList_toList,
    ofFixed_of_isStep h]
  rfl

theorem ofLine_remark (t : String) : ofLine ("// " ++ t).toList = remark := by
  rw [String.toList_append]
  rfl

/-- A line that begins otherwise is not one that stands between these two texts. -/
theorem between?_eq_none {before after : String} {line : List Char} (h : before.toList.isPrefixOf line = false) :
    between? before after line = none := by
  rw [Option.eq_none_iff_forall_ne_some]
  intro u hu
  rw [between?_eq_some_iff] at hu
  rw [hu, List.append_assoc, List.isPrefixOf_iff_prefix.2 (List.prefix_append _ _)] at h
  cases h

theorem ofLine_elseAsk (t : String) : ofLine ("\x7d else if (" ++ t ++ ") \x7b").toList = elseAsk t := by
  have hremark : "//".toList.isPrefixOf ("\x7d else if (" ++ t ++ ") \x7b").toList = false := by
    rw [String.toList_append, String.toList_append]
    rfl
  rw [ofLine, hremark, between?_append]
  rfl

theorem ofLine_ask (t : String) : ofLine ("if (" ++ t ++ ") \x7b").toList = ask t := by
  have hstart (p : String) (hp : ∀ cs, p.toList.isPrefixOf ('i' :: cs) = false) :
      p.toList.isPrefixOf ("if (" ++ t ++ ") \x7b").toList = false := by
    rw [String.toList_append, String.toList_append]
    exact hp _
  rw [ofLine, hstart "//" (fun _ => rfl), between?_eq_none (hstart _ (fun _ => rfl)), between?_append]
  rfl

theorem ofLine_repeated (t : String) : ofLine ("while (" ++ t ++ ") \x7b").toList = repeated t := by
  have hstart (p : String) (hp : ∀ cs, p.toList.isPrefixOf ('w' :: cs) = false) :
      p.toList.isPrefixOf ("while (" ++ t ++ ") \x7b").toList = false := by
    rw [String.toList_append, String.toList_append]
    exact hp _
  rw [ofLine, hstart "//" (fun _ => rfl), between?_eq_none (hstart _ (fun _ => rfl)),
    between?_eq_none (hstart _ (fun _ => rfl)), between?_append]
  rfl

theorem ofRow_of_isFlush {t : String} {blanks : List Char} (hblanks : ∀ c ∈ blanks, indents c = true)
    (h : isFlush t = true) : ofRow (blanks ++ t.toList) = some (ofLine t.toList) := by
  rw [isFlush, Bool.and_eq_true] at h
  have hdrop : (blanks ++ t.toList).dropWhile indents = t.toList := by
    rw [List.dropWhile_append_of_pos hblanks]
    cases ht : t.toList with
    | nil => rfl
    | cons c cs =>
      rw [ht] at h
      rw [List.dropWhile_cons_of_neg (by simpa using h.2)]
  unfold ofRow
  rw [hdrop]
  cases ht : t.toList with
  | nil =>
    rw [ht] at h
    cases h.2
  | cons c cs => rfl

end Phrase

/-! ## Clauses -/

/-- **Code in braces.** -/
inductive Clause where
  | step (text : String)
  | remark
  | leave
  | choose (test : String) (yes no : List Clause)
  | repeated (test : String) (body : List Clause)
  | forEach (reverse : Bool) (body : List Clause)

namespace Clause

/-- **What lines are read as**: code, one clause of it, or what ends the braces of a branch. -/
inductive Part where
  | code
  | clause
  | ending

/-- **The grammar.**  One clause is read as the list of it, and the ending of a branch as what its other side does. -/
inductive Reads : Part → List Phrase → List Clause → Prop where
  | nil : Reads .code [] []
  | cons {xs ys c cs} (h : Reads .clause xs [c]) (hs : Reads .code ys cs) : Reads .code (xs ++ ys) (c :: cs)
  | step {t} : Reads .clause [.step t] [step t]
  | remark : Reads .clause [.remark] [remark]
  | leave : Reads .clause [.leave] [leave]
  | choose {t xs ys yes no} (hyes : Reads .code xs yes) (hno : Reads .ending ys no) :
    Reads .clause (.ask t :: (xs ++ ys)) [choose t yes no]
  | repeated {t xs body} (h : Reads .code xs body) :
    Reads .clause (.repeated t :: (xs ++ [.close])) [repeated t body]
  | forEach {reverse xs body} (h : Reads .code xs body) :
    Reads .clause (.forEach reverse :: (xs ++ [.close])) [forEach reverse body]
  | close : Reads .ending [.close] []
  | otherwise {xs no} (h : Reads .code xs no) : Reads .ending (.otherwise :: (xs ++ [.close])) no
  | chain {t xs ys yes no} (hyes : Reads .code xs yes) (hno : Reads .ending ys no) :
    Reads .ending (.elseAsk t :: (xs ++ ys)) [choose t yes no]

theorem Reads.single {xs : List Phrase} {c : Clause} (h : Reads .clause xs [c]) : Reads .code xs [c] := by
  simpa using Reads.cons h .nil

/-- A branch can be chained to the one before it. -/
theorem Reads.chained {t : String} {xs : List Phrase} {cs : List Clause} (h : Reads .clause (.ask t :: xs) cs) :
    Reads .ending (.elseAsk t :: xs) cs := by
  cases h with
  | choose hyes hno => exact .chain hyes hno

theorem Reads.append {xs ys : List Phrase} {as bs : List Clause} (ha : Reads .code xs as) (hb : Reads .code ys bs) :
    Reads .code (xs ++ ys) (as ++ bs) := by
  generalize hp : Part.code = p at ha
  induction ha with
  | nil => exact hb
  | cons h _ _ ih =>
    rw [List.append_assoc]
    exact .cons h (ih rfl)
  | _ => cases hp

/-! ### One reading

Lines are read from the first to the last, with the braces that stand open in a stack. -/

/-- **Braces that stand open**: what was read before them and what opened them. -/
inductive Opening where
  | yes (before : List Clause) (test : String)
  | no (before : List Clause) (test : String) (yes : List Clause)
  | chain (before : List Clause) (test : String) (yes : List Clause)
  | repeated (before : List Clause) (test : String)
  | forEach (before : List Clause) (reverse : Bool)

/-- **A place in code**: the open braces around it, the innermost first, and what was read in the innermost. -/
structure Place where
  around : List Opening
  inside : List Clause

namespace Place

/-- The place behind a branch: the branches chained to it end with it. -/
def behind : List Opening → List Clause → Place
  | .chain before t yes :: os, cs => behind os (before ++ [choose t yes cs])
  | os, cs => ⟨os, cs⟩

/-- **Reading a line at a place.** -/
def next (p : Place) : Phrase → Option Place
  | .step t => some ⟨p.around, p.inside ++ [Clause.step t]⟩
  | .remark => some ⟨p.around, p.inside ++ [Clause.remark]⟩
  | .leave => some ⟨p.around, p.inside ++ [Clause.leave]⟩
  | .ask t => some ⟨.yes p.inside t :: p.around, []⟩
  | .repeated t => some ⟨.repeated p.inside t :: p.around, []⟩
  | .forEach reverse => some ⟨.forEach p.inside reverse :: p.around, []⟩
  | .elseAsk u => match p.around with
    | .yes before t :: os => some ⟨.yes [] u :: .chain before t p.inside :: os, []⟩
    | _ => none
  | .otherwise => match p.around with
    | .yes before t :: os => some ⟨.no before t p.inside :: os, []⟩
    | _ => none
  | .close => match p.around with
    | .yes before t :: os => some (behind os (before ++ [choose t p.inside []]))
    | .no before t yes :: os => some (behind os (before ++ [choose t yes p.inside]))
    | .repeated before t :: os => some ⟨os, before ++ [Clause.repeated t p.inside]⟩
    | .forEach before reverse :: os => some ⟨os, before ++ [Clause.forEach reverse p.inside]⟩
    | _ => none

/-- A branch read inside these braces ends no other. -/
def Unchained (os : List Opening) : Prop :=
  ∀ cs, behind os cs = ⟨os, cs⟩

/-- A line that opens braces, and what is read inside them. -/
theorem enter {p q r : Place} {x : Phrase} {xs ys : List Phrase} (hx : next p x = some q)
    (hxs : xs.foldlM next q = some r) : (x :: (xs ++ ys)).foldlM next p = ys.foldlM next r := by
  rw [List.foldlM_cons, hx]
  show (xs ++ ys).foldlM next q = _
  rw [List.foldlM_append, hxs]
  rfl

end Place

/-- Where reading goes from a place. -/
def Part.Leads (xs : List Phrase) (cs : List Clause) : Part → Prop
  | .code | .clause => ∀ os before, Place.Unchained os →
    xs.foldlM Place.next ⟨os, before⟩ = some ⟨os, before ++ cs⟩
  | .ending => ∀ os before t yes,
    xs.foldlM Place.next ⟨.yes before t :: os, yes⟩ = some (Place.behind os (before ++ [choose t yes cs]))

/-- **A reader finds what the grammar reads**, whatever stands before it. -/
theorem Reads.leads {p : Part} {xs : List Phrase} {cs : List Clause} (h : Reads p xs cs) : p.Leads xs cs := by
  induction h with
  | nil =>
    intro os before _
    rw [List.append_nil]
    rfl
  | cons _ _ ih ihs =>
    intro os before hos
    rw [List.foldlM_append, ih os before hos]
    exact (ihs os _ hos).trans (by rw [List.append_assoc]; rfl)
  | step => exact fun _ _ _ => rfl
  | remark => exact fun _ _ _ => rfl
  | leave => exact fun _ _ _ => rfl
  | choose _ _ ihyes ihno =>
    intro os before hos
    rw [Place.enter rfl (ihyes _ [] (fun _ => rfl)), List.nil_append, ihno, hos]
  | repeated _ ih =>
    intro os before _
    rw [Place.enter rfl (ih _ [] (fun _ => rfl))]
    rfl
  | forEach _ ih =>
    intro os before _
    rw [Place.enter rfl (ih _ [] (fun _ => rfl))]
    rfl
  | close => exact fun _ _ _ _ => rfl
  | otherwise _ ih =>
    intro os before t yes
    rw [Place.enter rfl (ih _ [] (fun _ => rfl))]
    rfl
  | chain _ _ ihyes ihno =>
    intro os before t yes
    rw [Place.enter rfl (ihyes _ [] (fun _ => rfl)), List.nil_append, ihno]
    rfl

/-- **Lines are read in one way.** -/
theorem Reads.unique {xs : List Phrase} {as bs : List Clause} (ha : Reads .code xs as) (hb : Reads .code xs bs) :
    as = bs := by
  have h := (ha.leads [] [] (fun _ => rfl)).symm.trans (hb.leads [] [] (fun _ => rfl))
  exact congrArg Place.inside (Option.some.inj h)

end Clause

/-! ## Meaning -/

/-- **What the texts that are not looked into mean**: how a step changes the state, and whether a condition holds and
what evaluating it changes. -/
structure Gloss where
  does : String → Option Entry → Store → Store → Prop
  test : String → Option Entry → Store → Bool → Store → Prop

namespace Clause

/-- **What can be done**: a clause, clauses, or clauses once for each of some entries. -/
inductive Task where
  | one (c : Clause)
  | all (cs : List Clause)
  | entries (es : List Entry) (cs : List Clause)

/-- **Doing a task to its end**, which is reached or, where the flag is set, left for the end of the loop around it. -/
inductive Does (G : Gloss) : Task → Option Entry → Store → Bool → Store → Prop where
  | step {ent s s' t} (h : G.does t ent s s') : Does G (.one (.step t)) ent s false s'
  | remark {ent s} : Does G (.one .remark) ent s false s
  | leave {ent s} : Does G (.one .leave) ent s true s
  | yes {ent s s₁ s' left t yes no} (h : G.test t ent s true s₁) (hb : Does G (.all yes) ent s₁ left s') :
    Does G (.one (.choose t yes no)) ent s left s'
  | no {ent s s₁ s' left t yes no} (h : G.test t ent s false s₁) (hb : Does G (.all no) ent s₁ left s') :
    Does G (.one (.choose t yes no)) ent s left s'
  | done {ent s s' t body} (h : G.test t ent s false s') : Does G (.one (.repeated t body)) ent s false s'
  | again {ent s s₁ s₂ s' t body} (h : G.test t ent s true s₁) (hb : Does G (.all body) ent s₁ false s₂)
    (hr : Does G (.one (.repeated t body)) ent s₂ false s') : Does G (.one (.repeated t body)) ent s false s'
  | left {ent s s₁ s' t body} (h : G.test t ent s true s₁) (hb : Does G (.all body) ent s₁ true s') :
    Does G (.one (.repeated t body)) ent s false s'
  | forEach {ent s s' reverse body}
    (h : Does G (.entries (if reverse then s.world.entries.reverse else s.world.entries) body) ent s false s') :
    Does G (.one (.forEach reverse body)) ent s false s'
  | nil {ent s} : Does G (.all []) ent s false s
  | cons {ent s s₁ s' left c cs} (h : Does G (.one c) ent s false s₁) (hs : Does G (.all cs) ent s₁ left s') :
    Does G (.all (c :: cs)) ent s left s'
  | skip {ent s s' c cs} (h : Does G (.one c) ent s true s') : Does G (.all (c :: cs)) ent s true s'
  | noEntry {ent s cs} : Does G (.entries [] cs) ent s false s
  | nextEntry {ent s s₁ s' e es cs} (h : Does G (.all cs) (some e) s false s₁)
    (hs : Does G (.entries es cs) ent s₁ false s') : Does G (.entries (e :: es) cs) ent s false s'

end Clause
end Bibstyle
