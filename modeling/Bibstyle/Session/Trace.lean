import Bibstyle.Session.Basic
/-!
# Trace — a body run term by term

A trace shows what each term of a body leaves behind.  The body knows what a session knows; the session does not learn
from it.
-/
namespace Bibstyle

/-- **What a term left behind**: the fault that stopped it, if any, and the machine after it. -/
structure Moment where
  term : Term
  fault : Option AnalysisFault
  machine : Machine

namespace Eval

/-- **Runs terms one by one**, up to the first that fails. -/
def moments (run : Term → Eval Unit) : List Term → Machine → List Moment
  | [], _ => []
  | t :: ts, m =>
    match run t m with
    | .ok _ after => ⟨t, none, after⟩ :: moments run ts after
    | .error e after => [⟨t, some e, after⟩]

end Eval

namespace Session

/-- The body of the first function among commands. -/
def firstBody? : List Command → Option Group
  | .function _ body _ :: _ => some body
  | _ => none

/-- The terms that a text is as the body of a function. -/
def bodyTerms (body : String) : Except Fault (List Term) :=
  match Source.tokens "<body>" ("FUNCTION \x7btrace\x7d \x7b" ++ body ++ "\x7d") with
  | .error e => .error (.lexical e)
  | .ok words =>
    match Reader.program words with
    | .error e => .error (.grammar e)
    | .ok cs => .ok ((firstBody? cs).elim [] (·.terms))

/-- **Traces a body** in a session. -/
def trace (s : Session) (body : String) : Except Fault (List Moment) :=
  match bodyTerms body with
  | .error e => .error e
  | .ok ts =>
    let run := Eval.term s.dictionary (Eval.procedure s.dictionary s.options.depth)
    .ok (Eval.moments run ts (.start s.linkage s.log))

/-- The machine at the end of a trace. -/
def traceEnd (s : Session) (ms : List Moment) : Machine :=
  match ms.getLast? with
  | some m => m.machine
  | none => .start s.linkage s.log

end Session
end Bibstyle
