import Bibstyle.Style.Command
/-!
# Reader — commands from words

Every reader takes words off the front and gives back the rest.  A body is read with the blocks that are still open kept
on a list, innermost first, so nesting may be as deep as it likes.  When the words run out, the fault is reported at the
last word of the whole source.
-/
namespace Bibstyle

/-- **Where in a command a list stands.** -/
inductive Place where
  | integers
  | strings
  | entryFields
  | entryIntegers
  | entryStrings
  | abbreviationName
  | abbreviationValue
  | functionName
  | functionBody
  | target (mode : RunMode)
  deriving DecidableEq

def Place.phrase : Place → String
  | integers => "in INTEGERS"
  | strings => "in STRINGS"
  | entryFields => "in the ENTRY fields"
  | entryIntegers => "in the ENTRY integers"
  | entryStrings => "in the ENTRY strings"
  | abbreviationName => "as the MACRO name"
  | abbreviationValue => "as the MACRO value"
  | functionName => "as the FUNCTION name"
  | functionBody => "to start a function body"
  | target mode => "as the " ++ mode.keyword ++ " target"

/-- **What a reader wants next.** -/
inductive Wanted where
  | command
  | opening (place : Place)
  | closing (place : Place)
  | name (place : Place)
  | string (place : Place)
  | blockEnd
  deriving DecidableEq

def Wanted.phrase : Wanted → String
  | command => "a command"
  | opening p => "'\x7b' " ++ p.phrase
  | closing p => "'\x7d' " ++ p.phrase
  | name p => "a name " ++ p.phrase
  | string p => "a string " ++ p.phrase
  | blockEnd => "'\x7d' to close a block"

/-- **Why words are not a list of commands.** -/
inductive GrammarFault where
  | unexpected (wanted : Wanted) (found : Token)
  | endOfInput (wanted : Wanted) (last : Option Span)
  | notOneName (place : Place) (span : Span)
  | unknownCommand (keyword : String) (span : Span)
  | remark (text : String)
  deriving DecidableEq

namespace Reader

/-- **What reading gives**: a value and the words left, or a fault. -/
abbrev Outcome (α : Type) := Except GrammarFault (α × List Token)

/-- The last word's place, for words that run out. -/
abbrev Last := Option Span

/-- Takes an opening brace off the front. -/
def opening (last : Last) (place : Place) : List Token → Outcome Span
  | [] => .error (.endOfInput (.opening place) last)
  | t :: ts => if t.lexeme = .opening then .ok (t.span, ts) else .error (.unexpected (.opening place) t)

/-- The names up to a closing brace, and where the brace stands; `make` says what kind of name each is. -/
def namesToClose (last : Last) (place : Place) (make : String → Span → Term) : List Token → Outcome (List Term × Span)
  | [] => .error (.endOfInput (.closing place) last)
  | t :: ts =>
    match t.lexeme with
    | .closing => .ok (([], t.span), ts)
    | .name n =>
      match namesToClose last place make ts with
      | .error e => .error e
      | .ok ((names, close), rest) => .ok ((make n t.span :: names, close), rest)
    | _ => .error (.unexpected (.name place) t)

/-- **A list of names in braces.** -/
def nameList (last : Last) (place : Place) (make : String → Span → Term) (ts : List Token) : Outcome Group :=
  match opening last place ts with
  | .error e => .error e
  | .ok (start, ts) =>
    match namesToClose last place make ts with
    | .error e => .error e
    | .ok ((names, close), rest) => .ok (⟨names, start.cover close⟩, rest)

/-- **Exactly one name in braces.** -/
def singleName (last : Last) (place : Place) (ts : List Token) : Outcome (String × Span) :=
  match nameList last place .name ts with
  | .error e => .error e
  | .ok (⟨[.name n _], span⟩, rest) => .ok ((n, span), rest)
  | .ok (⟨_, span⟩, _) => .error (.notOneName place span)

/-- **Exactly one string in braces.** -/
def singleString (last : Last) (place : Place) (ts : List Token) : Outcome (String × Span) :=
  match opening last place ts with
  | .error e => .error e
  | .ok (_, []) => .error (.endOfInput (.string place) last)
  | .ok (start, t :: ts) =>
    match t.lexeme with
    | .string value =>
      match ts with
      | [] => .error (.endOfInput (.closing place) last)
      | u :: rest =>
        if u.lexeme = .closing then .ok ((value, start.cover u.span), rest) else .error (.unexpected (.closing place) u)
    | _ => .error (.unexpected (.string place) t)

/-- **A block that is still open**: where it began, and its terms so far, the last one first. -/
structure Open where
  start : Span
  done : List Term

/-- The group that a block is once it is closed. -/
def Open.close (b : Open) (close : Span) : Group :=
  ⟨b.done.reverse, b.start.cover close⟩

def Open.add (b : Open) (t : Term) : Open :=
  { b with done := t :: b.done }

/-- **The rest of a body**, inside a block and the blocks around it. -/
def blocksToClose (last : Last) : Open → List Open → List Token → Outcome Group
  | _, _, [] => .error (.endOfInput .blockEnd last)
  | inner, outer, t :: ts =>
    match t.lexeme with
    | .closing =>
      match outer with
      | [] => .ok (inner.close t.span, ts)
      | around :: outer => blocksToClose last (around.add (inner.close t.span).toTerm) outer ts
    | .opening => blocksToClose last ⟨t.span, []⟩ (inner :: outer) ts
    | .name n => blocksToClose last (inner.add (.name n t.span)) outer ts
    | .quoted n => blocksToClose last (inner.add (.quoted n t.span)) outer ts
    | .string s => blocksToClose last (inner.add (.string s t.span)) outer ts
    | .integer n => blocksToClose last (inner.add (.integer n t.span)) outer ts

/-- **The body of a function.** -/
def body (last : Last) (ts : List Token) : Outcome Group :=
  match opening last .functionBody ts with
  | .error e => .error e
  | .ok (start, ts) => blocksToClose last ⟨start, []⟩ [] ts

/-- What follows `ENTRY`. -/
def entryLists (last : Last) (key : Span) (ts : List Token) : Outcome Command :=
  match nameList last .entryFields .field ts with
  | .error e => .error e
  | .ok (fields, ts) =>
    match nameList last .entryIntegers .entryInteger ts with
    | .error e => .error e
    | .ok (integers, ts) =>
      match nameList last .entryStrings .entryString ts with
      | .error e => .error e
      | .ok (strings, ts) => .ok (.entry fields integers strings (key.cover strings.span), ts)

/-- What follows `FUNCTION`. -/
def functionParts (last : Last) (key : Span) (ts : List Token) : Outcome Command :=
  match singleName last .functionName ts with
  | .error e => .error e
  | .ok ((name, _), ts) =>
    match body last ts with
    | .error e => .error e
    | .ok (group, ts) => .ok (.function name group (key.cover group.span), ts)

/-- What follows `MACRO`. -/
def abbreviationParts (last : Last) (key : Span) (ts : List Token) : Outcome Command :=
  match singleName last .abbreviationName ts with
  | .error e => .error e
  | .ok ((name, _), ts) =>
    match singleString last .abbreviationValue ts with
    | .error e => .error e
    | .ok ((value, span), ts) => .ok (.abbreviation name value (key.cover span), ts)

/-- What follows a keyword that takes one list of names. -/
def declaration (last : Last) (place : Place) (make : Group → Span → Command) (key : Span) (ts : List Token) :
    Outcome Command :=
  match nameList last place .name ts with
  | .error e => .error e
  | .ok (names, ts) => .ok (make names (key.cover names.span), ts)

/-- What follows a keyword that runs a function. -/
def runTarget (last : Last) (mode : RunMode) (key : Span) (ts : List Token) : Outcome Command :=
  match singleName last (.target mode) ts with
  | .error e => .error e
  | .ok ((name, span), ts) => .ok (.run mode name (key.cover span), ts)

/-- **The command that a keyword begins.** -/
def afterKeyword (last : Last) (key : Span) (ts : List Token) : Keyword → Outcome Command
  | .entry => entryLists last key ts
  | .function => functionParts last key ts
  | .integers => declaration last .integers .integers key ts
  | .strings => declaration last .strings .strings key ts
  | .abbreviation => abbreviationParts last key ts
  | .run mode => runTarget last mode key ts
  | .read => .ok (.read key, ts)
  | .sort => .ok (.sort key, ts)

/-- **The command at the front.** -/
def command (last : Last) (t : Token) (ts : List Token) : Outcome Command :=
  match t.lexeme with
  | .name word =>
    match Keyword.of? word with
    | some k => afterKeyword last t.span ts k
    | none => .error (.unknownCommand word t.span)
  | _ => .error (.unexpected .command t)

/-! ## No reader gives back more than it was given -/

theorem opening_length {last : Last} {place : Place} {ts rest : List Token} {s : Span}
    (h : opening last place ts = .ok (s, rest)) : rest.length ≤ ts.length := by
  cases ts with
  | nil => cases h
  | cons t ts =>
    simp only [opening] at h
    split at h
    · cases h; exact Nat.le_succ _
    · cases h

theorem namesToClose_length {last : Last} {place : Place} {make : String → Span → Term} :
    ∀ {ts rest : List Token} {v : List Term × Span}, namesToClose last place make ts = .ok (v, rest) →
      rest.length ≤ ts.length
  | [], _, _, h => by cases h
  | t :: ts, rest, v, h => by
    simp only [namesToClose] at h
    split at h
    · cases h; exact Nat.le_succ _
    · split at h
      · cases h
      · rename_i hr
        cases h
        exact Nat.le_succ_of_le (namesToClose_length hr)
    · cases h

theorem nameList_length {last : Last} {place : Place} {make : String → Span → Term} {ts rest : List Token} {g : Group}
    (h : nameList last place make ts = .ok (g, rest)) : rest.length ≤ ts.length := by
  simp only [nameList] at h
  split at h
  · cases h
  · rename_i ho
    split at h
    · cases h
    · rename_i hn
      cases h
      exact Nat.le_trans (namesToClose_length hn) (opening_length ho)

theorem singleName_length {last : Last} {place : Place} {ts rest : List Token} {v : String × Span}
    (h : singleName last place ts = .ok (v, rest)) : rest.length ≤ ts.length := by
  simp only [singleName] at h
  split at h
  · cases h
  · rename_i hn
    cases h
    exact nameList_length hn
  · cases h

theorem singleString_length {last : Last} {place : Place} {ts rest : List Token} {v : String × Span}
    (h : singleString last place ts = .ok (v, rest)) : rest.length ≤ ts.length := by
  simp only [singleString] at h
  split at h
  · cases h
  · cases h
  · rename_i ho
    have hl := opening_length ho
    split at h
    · split at h
      · cases h
      · split at h
        · cases h
          simp only [List.length_cons] at hl
          omega
        · cases h
    · cases h

theorem blocksToClose_length {last : Last} : ∀ {ts rest : List Token} {inner : Open} {outer : List Open} {g : Group},
    blocksToClose last inner outer ts = .ok (g, rest) → rest.length ≤ ts.length
  | [], _, _, _, _, h => by simp [blocksToClose] at h
  | t :: ts, rest, inner, outer, g, h => by
    simp only [blocksToClose] at h
    split at h
    · split at h
      · cases h; exact Nat.le_succ _
      · exact Nat.le_succ_of_le (blocksToClose_length h)
    all_goals exact Nat.le_succ_of_le (blocksToClose_length h)

theorem body_length {last : Last} {ts rest : List Token} {g : Group} (h : body last ts = .ok (g, rest)) :
    rest.length ≤ ts.length := by
  simp only [body] at h
  split at h
  · cases h
  · rename_i ho
    exact Nat.le_trans (blocksToClose_length h) (opening_length ho)

theorem entryLists_length {last : Last} {key : Span} {ts rest : List Token} {c : Command}
    (h : entryLists last key ts = .ok (c, rest)) : rest.length ≤ ts.length := by
  simp only [entryLists] at h
  split at h
  · cases h
  · rename_i h1
    split at h
    · cases h
    · rename_i h2
      split at h
      · cases h
      · rename_i h3
        cases h
        exact Nat.le_trans (nameList_length h3) (Nat.le_trans (nameList_length h2) (nameList_length h1))

theorem functionParts_length {last : Last} {key : Span} {ts rest : List Token} {c : Command}
    (h : functionParts last key ts = .ok (c, rest)) : rest.length ≤ ts.length := by
  simp only [functionParts] at h
  split at h
  · cases h
  · rename_i h1
    split at h
    · cases h
    · rename_i h2
      cases h
      exact Nat.le_trans (body_length h2) (singleName_length h1)

theorem abbreviationParts_length {last : Last} {key : Span} {ts rest : List Token} {c : Command}
    (h : abbreviationParts last key ts = .ok (c, rest)) : rest.length ≤ ts.length := by
  simp only [abbreviationParts] at h
  split at h
  · cases h
  · rename_i h1
    split at h
    · cases h
    · rename_i h2
      cases h
      exact Nat.le_trans (singleString_length h2) (singleName_length h1)

theorem declaration_length {last : Last} {place : Place} {make : Group → Span → Command} {key : Span}
    {ts rest : List Token} {c : Command} (h : declaration last place make key ts = .ok (c, rest)) :
    rest.length ≤ ts.length := by
  simp only [declaration] at h
  split at h
  · cases h
  · rename_i h1
    cases h
    exact nameList_length h1

theorem runTarget_length {last : Last} {mode : RunMode} {key : Span} {ts rest : List Token} {c : Command}
    (h : runTarget last mode key ts = .ok (c, rest)) : rest.length ≤ ts.length := by
  simp only [runTarget] at h
  split at h
  · cases h
  · rename_i h1
    cases h
    exact singleName_length h1

theorem afterKeyword_length {last : Last} {key : Span} {ts rest : List Token} {c : Command} :
    ∀ k : Keyword, afterKeyword last key ts k = .ok (c, rest) → rest.length ≤ ts.length
  | .entry, h => entryLists_length h
  | .function, h => functionParts_length h
  | .integers, h => declaration_length h
  | .strings, h => declaration_length h
  | .abbreviation, h => abbreviationParts_length h
  | .run _, h => runTarget_length h
  | .read, h => by cases h; exact Nat.le_refl _
  | .sort, h => by cases h; exact Nat.le_refl _

theorem command_length {last : Last} {t : Token} {ts rest : List Token} {c : Command}
    (h : command last t ts = .ok (c, rest)) : rest.length ≤ ts.length := by
  unfold command at h
  split at h
  · split at h
    · exact afterKeyword_length _ h
    · cases h
  · cases h

/-- **The commands up to the end of the words.** -/
def commands (last : Last) : List Token → Except GrammarFault (List Command)
  | [] => .ok []
  | t :: ts =>
    match h : command last t ts with
    | .error e => .error e
    | .ok (c, rest) =>
      have _hshorter : rest.length < (t :: ts).length := Nat.lt_succ_of_le (command_length h)
      match commands last rest with
      | .error e => .error e
      | .ok cs => .ok (c :: cs)
termination_by ts => ts.length
decreasing_by exact _hshorter

/-- **The commands of a style**, from all its words. -/
def program (ts : List Token) : Except GrammarFault (List Command) :=
  commands (ts.getLast?.map (·.span)) ts

end Reader
end Bibstyle
