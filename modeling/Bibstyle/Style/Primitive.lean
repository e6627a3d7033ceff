/-!
# Primitive — the functions every style has

`top$` shows the top of the stack in a log that the script does not have, so it only takes it away, as `pop$` does.
-/
namespace Bibstyle

/-- **A built-in function.** -/
inductive Primitive where
  | add
  | sub
  | lt
  | gt
  | eq
  | concat
  | assign
  | addPeriod
  | callType
  | changeCase
  | chrToInt
  | cite
  | duplicate
  | empty
  | formatName
  | branch
  | intToChr
  | intToStr
  | missing
  | newline
  | numNames
  | pop
  | preamble
  | purify
  | quote
  | skip
  | clear
  | substring
  | swap
  | textLength
  | textPrefix
  | top
  | entryType
  | warning
  | loop
  | width
  | write
  deriving DecidableEq

namespace Primitive

def name : Primitive → String
  | add => "+"
  | sub => "-"
  | lt => "<"
  | gt => ">"
  | eq => "="
  | concat => "*"
  | assign => ":="
  | addPeriod => "add.period$"
  | callType => "call.type$"
  | changeCase => "change.case$"
  | chrToInt => "chr.to.int$"
  | cite => "cite$"
  | duplicate => "duplicate$"
  | empty => "empty$"
  | formatName => "format.name$"
  | branch => "if$"
  | intToChr => "int.to.chr$"
  | intToStr => "int.to.str$"
  | missing => "missing$"
  | newline => "newline$"
  | numNames => "num.names$"
  | pop => "pop$"
  | preamble => "preamble$"
  | purify => "purify$"
  | quote => "quote$"
  | skip => "skip$"
  | clear => "stack$"
  | substring => "substring$"
  | swap => "swap$"
  | textLength => "text.length$"
  | textPrefix => "text.prefix$"
  | top => "top$"
  | entryType => "type$"
  | warning => "warning$"
  | loop => "while$"
  | width => "width$"
  | write => "write$"

/-- **All primitives**, by name. -/
def all : List Primitive :=
  [add, sub, lt, gt, eq, concat, assign, addPeriod, callType, changeCase, chrToInt, cite, duplicate, empty, formatName,
   branch, intToChr, intToStr, missing, newline, numNames, pop, preamble, purify, quote, skip, clear, substring, swap,
   textLength, textPrefix, top, entryType, warning, loop, width, write]

end Primitive
end Bibstyle
