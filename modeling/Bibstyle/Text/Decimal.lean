/-!
# Decimal — integers of 32 bits and their text

The integers of a style are signed words of 32 bits.  A result outside that range has no word; a literal outside it
cannot be read.  Reading accepts one sign, plus or minus, and then ASCII digits only.
-/
namespace Bibstyle
namespace Decimal

/-- **The word of an integer**, if it fits in 32 bits. -/
def word? (n : Int) : Option Int32 :=
  if -2147483648 ≤ n ∧ n ≤ 2147483647 then some (Int32.ofInt n) else none

def nat (n : Nat) : String :=
  String.ofList (Nat.toDigits 10 n)

/-- **The text of a word**: a minus sign if negative, then the digits. -/
def text (n : Int32) : String :=
  match n.toInt with
  | .ofNat k => nat k
  | .negSucc k => "-" ++ nat (k + 1)

def isDigit (c : Char) : Bool :=
  0x30 ≤ c.toNat && c.toNat ≤ 0x39

/-- The number a row of digits stands for; a row with anything else, or with nothing, is none. -/
def digits? (s : List Char) : Option Nat :=
  if s.isEmpty || !s.all isDigit then none
  else some (s.foldl (fun n c => n * 10 + (c.toNat - 0x30)) 0)

/-- **Reads a word**: an optional sign and digits, in range. -/
def read? : List Char → Option Int32
  | '+' :: s => (digits? s).bind (fun n => word? n)
  | '-' :: s => (digits? s).bind (fun n => word? (-n))
  | s => (digits? s).bind (fun n => word? n)

end Decimal
end Bibstyle
