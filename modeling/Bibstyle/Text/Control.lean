/-!
# Control — text without what a terminal would obey

A log is plain text.  Control characters that are no white space are left out of it, and so are control sequences, which
begin with an escape character: short ones that a single character ends, those that begin with `[` and end with a letter
or a sign, and strings addressed to the device, which run to their terminator.  White space inside a sequence that has
not ended is shown, except in a string.  The text behind it is shown too, up to the next control character, where the
sequence goes on.
-/
namespace Bibstyle
namespace Text

/-- **Where a text stands in a control sequence.** -/
inductive ControlState where
  /-- In no sequence. -/
  | plain
  /-- Behind an escape character. -/
  | escape
  /-- Behind an escape character and a sign that wants one more character. -/
  | escapeSign
  /-- Behind an escape character and `[`. -/
  | sequence
  /-- At the start of a device string, before its final character. -/
  | device
  /-- Among the parameters of a device string. -/
  | deviceParams
  /-- Behind a sign of a device string. -/
  | deviceSign
  /-- In a string that a string terminator ends. -/
  | string
  /-- In a command to the system, which a bell ends. -/
  | command
  deriving DecidableEq

/-- A byte of the encoded character is the string terminator. -/
def holdsTerminator (c : Char) : Bool :=
  (String.utf8EncodeChar c).contains 0x9C

namespace ControlState

/-- What a character behind an escape character begins. -/
def opened (n : Nat) : ControlState :=
  if n < 0x20 then escape
  else if n < 0x30 then escapeSign
  else if n = 0x50 then device
  else if n = 0x58 || n = 0x5E || n = 0x5F then string
  else if n = 0x5B then sequence
  else if n = 0x5D then command
  else if n < 0x7F then plain
  else escape

/-- **The state behind a character.**  Cancel and substitute end any sequence, and an escape character begins one
anywhere. -/
def next (s : ControlState) (c : Char) : ControlState :=
  let n := c.toNat
  if n = 0x18 || n = 0x1A then plain
  else if n = 0x1B then escape
  else match s with
    | plain => plain
    | escape => opened n
    | escapeSign => if 0x30 ≤ n && n < 0x7F then plain else escapeSign
    | sequence => if 0x40 ≤ n && n < 0x7F then plain else sequence
    | device =>
      if n < 0x20 || 0x7F ≤ n then device
      else if n < 0x30 then deviceSign
      else if n < 0x40 then deviceParams
      else string
    | deviceParams =>
      if n < 0x20 || 0x7F ≤ n then deviceParams
      else if n < 0x30 then deviceSign
      else if n < 0x3C then deviceParams
      else string
    | deviceSign => if n < 0x30 || 0x7F ≤ n then deviceSign else string
    | string => if holdsTerminator c then plain else string
    | command => if n = 0x07 then plain else command

/-- The control characters that are white space: tab, line feed, form feed and carriage return. -/
def isLayout (c : Char) : Bool :=
  c == '\t' || c == '\n' || c.toNat == 0x0C || c == '\r'

/-- **Whether a character is shown** that stands in a state. -/
def shows (s : ControlState) (c : Char) : Bool :=
  match s with
  | plain => isLayout c || (0x20 ≤ c.toNat && c.toNat != 0x7F)
  | escape | escapeSign | sequence => isLayout c
  | device | deviceParams | deviceSign | string | command => false

end ControlState

/-- **The characters shown** of a text that stands in a state; `showing` says that the character before was shown.  A
character beyond ASCII ends a sequence that was interrupted. -/
def shown : Bool → ControlState → List Char → List Char
  | _, _, [] => []
  | showing, s, c :: cs =>
    if showing && ControlState.plain.shows c then c :: shown true (if c.toNat < 0x80 then s else .plain) cs
    else if s.shows c then c :: shown true (s.next c) cs
    else shown false (s.next c) cs

/-- **A text without what a terminal would obey.** -/
def withoutControls (s : String) : String :=
  String.ofList (shown false .plain s.toList)

end Text
end Bibstyle
