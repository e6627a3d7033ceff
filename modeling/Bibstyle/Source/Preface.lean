import Bibstyle.Text.Blank
/-!
# Preface — the comments at the top of a style

A style opens with lines of comment that tell what it is, and the script repeats them.  The block ends at the first line
that is neither blank nor a comment.  Blank lines before it, and empty comments at its end, do not belong to it.
-/
namespace Bibstyle
namespace Source

/-- **What a comment line says**: without its percent signs, one blank after them, and the blanks at its end. -/
def commentText (line : List Char) : List Char :=
  let body := line.dropWhile (· == '%')
  Text.trimEnd (match body with
    | ' ' :: text => text
    | text => text)

/-- Whether a trimmed line may stand in the block: it is empty or a comment. -/
def inPreface : List Char → Bool
  | [] => true
  | c :: _ => c == '%'

/-- **The comments at the top of a source**; a blank line between them is an empty comment. -/
def preface (source : String) : List String :=
  let block := ((Text.splitLines source.toList).map Text.trim).takeWhile inPreface
  let texts := (block.dropWhile List.isEmpty).map commentText
  ((texts.reverse.dropWhile List.isEmpty).reverse).map String.ofList

end Source
end Bibstyle
