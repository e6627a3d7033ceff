import Bibstyle.Machine.Basic
/-!
# Branch — running both sides of `if$`

Each side sees the whole stack.  Afterwards both stacks are viewed as if each side had drawn as much as the hungrier
one.  A slot on which the views agree is kept; every other slot gets a local that is declared before the branch and
assigned at the end of each side.
-/
namespace Bibstyle
namespace Eval

/-- **Two stacks made one**, and what each side has to store at its end. -/
structure Merged where
  stack : List Expr
  yes : Block
  no : Block

/-- One slot of the two views, above those merged before. -/
def mergeSlot (yes no : Expr) (below : Merged) : Eval Merged := do
  if yes = no then return { below with stack := yes :: below.stack }
  else if !yes.isValue || !no.isValue then throw (.unsupported .differentProcedures)
  else
    let a ← tyOf yes
    let b ← tyOf no
    match a.unify? b with
    | none => throw (.mismatch "if$" a.label b.label)
    | some t =>
      let yes ← check yes t "if$"
      let no ← check no t "if$"
      let v ← newLocal t
      emit (.declare v none)
      return ⟨.var v :: below.stack, below.yes ++ [.assign (.var v) yes], below.no ++ [.assign (.var v) no]⟩

/-- **Merges two views of one height**, the lowest slot first. -/
def mergeSlots : List Expr → List Expr → Eval Merged
  | yes :: yeses, no :: nos => do
    mergeSlot yes no (← mergeSlots yeses nos)
  | _, _ => return ⟨[], [], []⟩

/-- **`if$`**: a condition and two procedures. -/
def branch (run : Procedure → Eval Unit) : Eval Unit := do
  let no ← popProcedure "if$"
  let yes ← popProcedure "if$"
  let condition ← popTyped .int "if$"
  let yesFrame ← inNested (run yes)
  let noFrame ← inNested (run no)
  let drawn := max yesFrame.drawn noFrame.drawn
  let yesView ← fullView yesFrame drawn
  let noView ← fullView noFrame drawn
  if yesView.length = noView.length then
    let merged ← mergeSlots yesView noView
    emit (.branch condition (yesFrame.code ++ merged.yes) (noFrame.code ++ merged.no))
    replaceStack merged.stack drawn
  else throw (.unbalanced "if$")

end Eval
end Bibstyle
