import Bibstyle.Source.Lexeme
/-!
# Term — what stands between braces

The body of a function is a list of terms, and a term may be a list of terms again.  The three kinds of entry name stand
only in the lists of an `ENTRY` command, where the place of the list decides what a name means.  Two terms are equal
only if their places are equal too.
-/
namespace Bibstyle

/-- **A term of a style.** -/
inductive Term where
  | block (terms : List Term) (span : Span)
  | integer (value : Int32) (span : Span)
  | string (value : String) (span : Span)
  | quoted (name : String) (span : Span)
  | name (name : String) (span : Span)
  | field (name : String) (span : Span)
  | entryInteger (name : String) (span : Span)
  | entryString (name : String) (span : Span)

/-- **A list of terms in braces**; the span includes the braces. -/
structure Group where
  terms : List Term
  span : Span

namespace Term

def span : Term → Span
  | block _ s | integer _ s | string _ s | quoted _ s | name _ s | field _ s | entryInteger _ s | entryString _ s => s

/-- The name a term holds, if it is a name of any kind. -/
def name? : Term → Option String
  | quoted n _ | name n _ | field n _ | entryInteger n _ | entryString n _ => some n
  | block _ _ | integer _ _ | string _ _ => none

mutual

/-- **How a term is written**, with single blanks and without comments. -/
def text : Term → String
  | block ts _ => "\x7b" ++ textAll ts ++ " \x7d"
  | integer n _ => "#" ++ Decimal.text n
  | string s _ => "\"" ++ s ++ "\""
  | quoted n _ => "'" ++ n
  | name n _ | field n _ | entryInteger n _ | entryString n _ => n

/-- Terms, each after a blank. -/
def textAll : List Term → String
  | [] => ""
  | t :: ts => " " ++ text t ++ textAll ts

end

/-! ## Equality -/

mutual

/-- Whether two terms are the same, their places included. -/
def same : Term → Term → Bool
  | block ts s, block us u => sameAll ts us && s == u
  | integer n s, integer m u => n == m && s == u
  | string n s, string m u => n == m && s == u
  | quoted n s, quoted m u => n == m && s == u
  | name n s, name m u => n == m && s == u
  | field n s, field m u => n == m && s == u
  | entryInteger n s, entryInteger m u => n == m && s == u
  | entryString n s, entryString m u => n == m && s == u
  | _, _ => false

def sameAll : List Term → List Term → Bool
  | [], [] => true
  | t :: ts, u :: us => same t u && sameAll ts us
  | _, _ => false

end

mutual

theorem same_iff : ∀ a b : Term, same a b = true ↔ a = b
  | block ts s, b => by cases b <;> simp [same, sameAll_iff ts]
  | integer n s, b => by cases b <;> simp [same]
  | string n s, b => by cases b <;> simp [same]
  | quoted n s, b => by cases b <;> simp [same]
  | name n s, b => by cases b <;> simp [same]
  | field n s, b => by cases b <;> simp [same]
  | entryInteger n s, b => by cases b <;> simp [same]
  | entryString n s, b => by cases b <;> simp [same]

theorem sameAll_iff : ∀ as bs : List Term, sameAll as bs = true ↔ as = bs
  | [], bs => by cases bs <;> simp [sameAll]
  | a :: as, bs => by cases bs <;> simp [sameAll, same_iff a, sameAll_iff as]

end

instance : DecidableEq Term := fun a b => decidable_of_iff _ (same_iff a b)

end Term

deriving instance DecidableEq for Group

/-- **A group as a term.** -/
def Group.toTerm (g : Group) : Term :=
  .block g.terms g.span

/-- How a group is written. -/
def Group.text (g : Group) : String :=
  g.toTerm.text

end Bibstyle
