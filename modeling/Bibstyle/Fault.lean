import Bibstyle.Source.Scan
import Bibstyle.Style.Reader
/-!
# Fault — everything that can go wrong, and how it is told

Every stage has its own faults, which name the cause.  The words a user reads are in one place: a fault has a `message`,
and the message of a whole compilation says first which stage failed.
-/
namespace Bibstyle

namespace Source.LexicalFault

/-- What a lexical fault says. -/
def message : LexicalFault → String
  | unterminatedString _ => "Expected character '\"'. String literal does not terminate."
  | missingDigits _ => "Expected digits after '#'."
  | badInteger digits _ => "Bad integer literal '#" ++ digits ++ "'."
  | missingName _ => "Expected a name after '''."
  | remark text => text
  | remarkAt text _ => text

/-- Where a lexical fault is, if it has a place. -/
def span? : LexicalFault → Option Span
  | unterminatedString s | missingDigits s | badInteger _ s | missingName s | remarkAt _ s => some s
  | remark _ => none

end Source.LexicalFault

/-- **What a grammar fault says.** -/
def GrammarFault.message : GrammarFault → String
  | unexpected wanted t => t.span.label ++ ": Expected " ++ wanted.phrase ++ ", found " ++ t.lexeme.text
  | endOfInput wanted (some s) => s.label ++ ": Expected " ++ wanted.phrase ++ ", found end of input"
  | endOfInput wanted none => "Expected " ++ wanted.phrase ++ ", found end of input"
  | notOneName place s => s.label ++ ": Expected exactly one name " ++ place.phrase
  | unknownCommand word s => s.label ++ ": Unknown command '" ++ word ++ "'"
  | remark text => text

/-! ## Analysis -/

/-- **What cannot happen**: a term where the grammar has none, or a stack that lost a value it has been seen to have. -/
inductive Impossibility where
  | inBody (term : Term)
  | inNameList (term : Term)
  | conditionShrank
  | remark (text : String)
  deriving DecidableEq

def Impossibility.message : Impossibility → String
  | inBody t => t.span.label ++ ": '" ++ t.text ++ "' inside a function body"
  | inNameList t => t.span.label ++ ": '" ++ t.text ++ "' in a name list"
  | conditionShrank => "while$ condition stack shrank"
  | remark text => text

/-- **Programs that have a meaning but no fixed shape of the stack.** -/
inductive Unsupported where
  | returnsProcedure (function : String)
  | assignment (name : String)
  | procedureLeft (primitive : String)
  | differentProcedures
  | conditionDraws
  | conditionDepth
  | conditionChangesStack
  | bodyDraws
  | bodyDepth
  | remark (text : String)
  deriving DecidableEq

def Unsupported.message : Unsupported → String
  | returnsProcedure f => "function " ++ f ++ " returns a procedure"
  | assignment n => "assignment to '" ++ n ++ "', which is not a variable"
  | procedureLeft p => p ++ " with a procedure left on the stack"
  | differentProcedures => "if$ branches that leave different procedures"
  | conditionDraws => "a while$ condition that takes values from the caller"
  | conditionDepth => "a while$ condition that does not push exactly one value"
  | conditionChangesStack => "a while$ condition that changes the stack"
  | bodyDraws => "a while$ body that takes values from the caller"
  | bodyDepth => "a while$ body that changes the stack depth"
  | remark text => text

/-- **How a function fails to fit a command.** -/
inductive Violation where
  | returnValue
  | arguments
  | entryUsage
  deriving DecidableEq

def Violation.message : Violation → String
  | returnValue => "must not leave a value on the stack"
  | arguments => "must not take arguments from the stack"
  | entryUsage => "must not use the current entry"

/-- **Why a command cannot be compiled.**  `exhausted` is the answer of a run that nests procedures deeper than it is
allowed to, which a style can do without end. -/
inductive AnalysisFault where
  | impossible (cause : Impossibility)
  | unresolved (name : String)
  | complex (function stack : String)
  | contract (mode : RunMode) (function : String) (violation : Violation)
  | mismatch (primitive expected found : String)
  | unbalanced (primitive : String)
  | redefinition (name : String)
  | unsupported (cause : Unsupported)
  | problem (text : String)
  | exhausted
  deriving DecidableEq

/-- **What an analysis fault says.** -/
def AnalysisFault.message : AnalysisFault → String
  | impossible cause => "Internal error: " ++ cause.message
  | unresolved n => "Unknown function or variable '" ++ n ++ "'"
  | complex f stack =>
    "Function '" ++ f ++ "' is too complex: it leaves several values on the stack\n    stack: " ++ stack
  | contract mode f v => mode.keyword ++ " \x7b" ++ f ++ "\x7d: the function " ++ v.message
  | mismatch p expected found => p ++ " expected " ++ expected ++ ", found " ++ found
  | unbalanced p => "The branches of " ++ p ++ " leave a different number of values on the stack"
  | redefinition n => "'" ++ n ++ "' is already defined"
  | unsupported cause => "Unsupported construct: " ++ cause.message
  | problem text => text
  | exhausted => "Procedures are nested too deeply"

/-! ## The whole compilation -/

/-- **Why a script cannot be written.** -/
inductive OutputFault where
  | full
  | remark (text : String)
  deriving DecidableEq

def OutputFault.message : OutputFault → String
  | full => "Could not write output: failed to write whole buffer"
  | remark text => text

/-- **Why a compilation fails.** -/
inductive Fault where
  | unreadable (path reason : String)
  | direct (text : String)
  | lexical (fault : Source.LexicalFault)
  | grammar (fault : GrammarFault)
  | analysis (fault : AnalysisFault)
  | output (fault : OutputFault)
  deriving DecidableEq

/-- **What a user reads**: the stage that failed, and on the next line the cause. -/
def Fault.message : Fault → String
  | unreadable path reason => "Error occurred during compilation:\n    Could not read " ++ path ++ ": " ++ reason
  | direct text => "Error occurred during compilation:\n    " ++ text
  | lexical f =>
    match f.span? with
    | some s => "Error occurred during tokenization at " ++ s.label ++ ":\n    " ++ f.message
    | none => "Error occurred during tokenization:\n    " ++ f.message
  | grammar f => "Error occurred during ast construction:\n    " ++ f.message
  | analysis f => "Error occurred during analysis:\n    " ++ f.message
  | output f => "Error occurred during code generation:\n    " ++ f.message

end Bibstyle
