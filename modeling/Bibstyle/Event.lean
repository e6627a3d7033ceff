import Bibstyle.Code.Stmt
import Bibstyle.Script.Helper
import Bibstyle.Style.Command
/-!
# Event — what a compilation tells about itself

Events are data: what happened, not how it is told.  Each has a level, which decides whether a reader wants it, the part
of the compiler it comes from, and a text.
-/
namespace Bibstyle

/-- **How much detail an event is**, the least first. -/
inductive Level where
  | info
  | debug
  | trace
  deriving DecidableEq

def Level.rank : Level → Nat
  | info => 1
  | debug => 2
  | trace => 3

/-- The name of a level, in five columns. -/
def Level.label : Level → String
  | info => "INFO "
  | debug => "DEBUG"
  | trace => "TRACE"

/-- **Something that happened.** -/
inductive Event where
  | scanning (source : String)
  | grouping (words : Nat)
  | analyzing (commands : Nat)
  | writing (functions : Nat)
  | entry (fields : Nat)
  | function (name : String) (signature : Signature)
  | abbreviation (name : String)
  | command (span : Span) (mode : RunMode) (function : String)
  | evaluating (term : Term)
  | linking (helper : Helper)
  deriving DecidableEq

namespace Event

def level : Event → Level
  | scanning _ | grouping _ | analyzing _ | writing _ => .info
  | entry _ | function _ _ | abbreviation _ | command _ _ _ => .debug
  | evaluating _ | linking _ => .trace

/-- The part of the compiler an event comes from. -/
def origin : Event → String
  | evaluating _ => "bstgroovy::analysis"
  | linking _ => "bstgroovy::generate::link"
  | _ => "bstgroovy"

/-- **What an event says.** -/
def message : Event → String
  | scanning source => "Tokenizing " ++ source
  | grouping n => "Building the syntax tree of " ++ Decimal.nat n ++ " tokens"
  | analyzing n => "Analyzing " ++ Decimal.nat n ++ " commands"
  | writing n => "Writing " ++ Decimal.nat n ++ " functions"
  | entry n => "ENTRY with " ++ Decimal.nat n ++ " fields"
  | function name s =>
    "FUNCTION " ++ name ++ " takes " ++ Decimal.nat s.params.length ++ " values" ++
      (if s.usesEntry then " and the entry" else "") ++ " and returns " ++ s.result.label
  | abbreviation name => "MACRO " ++ name
  | command span mode f => span.label ++ ": " ++ mode.keyword ++ " " ++ f
  | evaluating t => "Evaluating " ++ t.text
  | linking h => "Linking helper " ++ h.name

/-- Text whose lines after the first are indented. -/
def continued (text : String) : String :=
  String.ofList (text.toList.flatMap (fun c => if c = '\n' then ['\n', ' ', ' ', ' ', ' '] else [c]))

/-- **An event as a log tells it.** -/
def line (e : Event) : String :=
  "[" ++ e.level.label ++ " " ++ e.origin ++ "] " ++ continued e.message

end Event
end Bibstyle
