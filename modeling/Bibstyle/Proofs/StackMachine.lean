import Bibstyle.Machine.Basic
import Bibstyle.Proofs.Execution
import Bibstyle.Style.Dictionary
/-!
# StackMachine — what a style does

A style is written for a machine with one stack, on which values and procedures lie.  Its functions take what they find
on the stack and leave what they like there; nothing says how much.  An operand of a wrong kind stops the machine, and so
does a stack that is too short.  `missing$`, `stack$` and `call.type$` have no rules here: a style that comes to one of
them stops.

The runtime answers for whatever neither computes with integers nor moves values about.  Globals go by the names the style
gives them.
-/
namespace Bibstyle
namespace StackMachine

/-- **What lies on the stack.** -/
inductive Item where
  | value (v : Value)
  | procedure (p : Procedure)

/-- **The state of a style that runs**: the stack, its top first, and the world. -/
structure State where
  stack : List Item
  world : World

/-- **The functions of a style**, and what its other names mean. -/
structure Program where
  dictionary : Dictionary
  bodies : List (String × Group)

/-- What a term puts on the stack that runs nothing. -/
def literal? : Term → Option Item
  | .integer n _ => some (.value (.int n))
  | .string s _ => some (.value (.str s))
  | .quoted n _ => some (.procedure (.named n))
  | .block ts span => some (.procedure (.group ⟨ts, span⟩))
  | .name _ _ | .field _ _ | .entryInteger _ _ | .entryString _ _ => none

/-! ## Primitives -/

/-- The method of the runtime that answers for a primitive, and the number of its operands. -/
def method? : Primitive → Option (String × Nat)
  | .addPeriod => some ("addPeriod", 1)
  | .changeCase => some ("bibProcessor.changeCase", 2)
  | .chrToInt => some ("chrToInt", 1)
  | .empty => some ("isEmpty", 1)
  | .formatName => some ("formatName", 3)
  | .intToChr => some ("intToChr", 1)
  | .intToStr => some ("Integer.toString", 1)
  | .numNames => some ("numNames", 1)
  | .purify => some ("bibProcessor.purify", 1)
  | .substring => some ("substring", 3)
  | .textLength => some ("textLength", 1)
  | .textPrefix => some ("textPrefix", 2)
  | .width => some ("bibProcessor.width", 1)
  | _ => none

/-- The method of the runtime by which a primitive writes, and the number of its operands. -/
def writer? : Primitive → Option (String × Nat)
  | .newline => some ("bibWriter.println", 0)
  | .warning => some ("bibProcessor.warning", 1)
  | .write => some ("bibWriter.print", 1)
  | _ => none

/-- **What a primitive makes of its operands**, the last of which was on top. -/
def compute (rt : Runtime) (ent : Option Entry) : Primitive → List Value → Option Value
  | .add, [a, b] => BinaryOp.add.apply a b
  | .sub, [a, b] => BinaryOp.sub.apply a b
  | .concat, [a, b] => BinaryOp.concat.apply a b
  | .lt, [a, b] => CompareOp.lt.apply a b
  | .gt, [a, b] => CompareOp.gt.apply a b
  | .eq, [a, b] => CompareOp.eq.apply a b
  | .quote, [] => some (.str "\"")
  | .preamble, [] => rt.text "bibDB.preamble"
  | .cite, [] => ent.bind (fun e => rt.textOf (some e) "entry.key")
  | .entryType, [] => ent.bind (fun e => rt.textOf (some e) "entry.type")
  | p, operands =>
    match method? p with
    | some (m, n) => if operands.length = n then rt.method (.runtime m) operands else none
    | none => none

/-- Whether a variable of a type may hold a value; a string may be missing. -/
def admits : Ty → Value → Bool
  | .int, .int _ | .string, .str _ | .string, .missing => true
  | _, _ => false

/-- **What `:=` does to the world.** -/
def store? (dict : Dictionary) (ent : Option Entry) (n : String) (v : Value) (w : World) : Option World :=
  match dict.get? n with
  | some (.globalInteger _) => if admits .int v then some (w.setGlobal n v) else none
  | some (.globalString _) => if admits .string v then some (w.setGlobal n v) else none
  | some .entryInteger => if admits .int v then ent.map (w.setEntryVar · n v) else none
  | some .entryString => if admits .string v then ent.map (w.setEntryVar · n v) else none
  | _ => none

/-- **What a name is worth** that stands for a value. -/
def read? (rt : Runtime) (ent : Option Entry) (w : World) (n : String) : Meaning → Option Value
  | .field => ent.map (rt.field · n)
  | .globalInteger _ | .globalString _ => some (w.globals n)
  | .entryInteger | .entryString => ent.map (w.entryVars · n)
  | .constant k => some (.int k)
  | .primitive _ | .routine _ => none

/-- **What a primitive does that runs no procedure.** -/
inductive Acts (rt : Runtime) (dict : Dictionary) (ent : Option Entry) : Primitive → State → State → Prop where
  | compute {p operands v st w} (h : compute rt ent p operands = some v) :
    Acts rt dict ent p ⟨operands.reverse.map .value ++ st, w⟩ ⟨.value v :: st, w⟩
  | write {p operands m st w} (h : writer? p = some (m, operands.length)) :
    Acts rt dict ent p ⟨operands.reverse.map .value ++ st, w⟩ ⟨st, { w with output := w.output ++ [(m, operands)] }⟩
  | assign {n v st w w'} (h : store? dict ent n v w = some w') :
    Acts rt dict ent .assign ⟨.procedure (.named n) :: .value v :: st, w⟩ ⟨st, w'⟩
  | duplicate {i st w} : Acts rt dict ent .duplicate ⟨i :: st, w⟩ ⟨i :: i :: st, w⟩
  | swap {i j st w} : Acts rt dict ent .swap ⟨i :: j :: st, w⟩ ⟨j :: i :: st, w⟩
  | pop {i st w} : Acts rt dict ent .pop ⟨i :: st, w⟩ ⟨st, w⟩
  | top {i st w} : Acts rt dict ent .top ⟨i :: st, w⟩ ⟨st, w⟩
  | skip {s} : Acts rt dict ent .skip s s

/-! ## Runs -/

/-- **What can be run**: terms, a name, a procedure, or a loop from its next test on. -/
inductive Task where
  | terms (ts : List Term)
  | name (n : String)
  | procedure (p : Procedure)
  | loop (condition body : Procedure)

/-- **A run that ends.**  A test succeeds if it is more than zero; a function of the style runs its body. -/
inductive Runs (rt : Runtime) (style : Program) (ent : Option Entry) : Task → State → State → Prop where
  | nil {s} : Runs rt style ent (.terms []) s s
  | push {t ts i s s'} (ht : literal? t = some i) (h : Runs rt style ent (.terms ts) ⟨i :: s.stack, s.world⟩ s') :
    Runs rt style ent (.terms (t :: ts)) s s'
  | run {n span ts s s₁ s'} (hn : Runs rt style ent (.name n) s s₁) (h : Runs rt style ent (.terms ts) s₁ s') :
    Runs rt style ent (.terms (.name n span :: ts)) s s'
  | group {g s s'} (h : Runs rt style ent (.terms g.terms) s s') : Runs rt style ent (.procedure (.group g)) s s'
  | named {n s s'} (h : Runs rt style ent (.name n) s s') : Runs rt style ent (.procedure (.named n)) s s'
  | read {n m v s} (hn : style.dictionary.get? n = some m) (h : read? rt ent s.world n m = some v) :
    Runs rt style ent (.name n) s ⟨.value v :: s.stack, s.world⟩
  | act {n p s s'} (hn : style.dictionary.get? n = some (.primitive p)) (h : Acts rt style.dictionary ent p s s') :
    Runs rt style ent (.name n) s s'
  | call {n sig body s s'} (hn : style.dictionary.get? n = some (.routine sig)) (hb : style.bodies.lookup n = some body)
    (h : Runs rt style ent (.terms body.terms) s s') : Runs rt style ent (.name n) s s'
  | yes {n k yes no st w s'} (hn : style.dictionary.get? n = some (.primitive .branch)) (hk : 0 < k)
    (h : Runs rt style ent (.procedure yes) ⟨st, w⟩ s') :
    Runs rt style ent (.name n) ⟨.procedure no :: .procedure yes :: .value (.int k) :: st, w⟩ s'
  | no {n k yes no st w s'} (hn : style.dictionary.get? n = some (.primitive .branch)) (hk : ¬ 0 < k)
    (h : Runs rt style ent (.procedure no) ⟨st, w⟩ s') :
    Runs rt style ent (.name n) ⟨.procedure no :: .procedure yes :: .value (.int k) :: st, w⟩ s'
  | loop {n condition body st w s'} (hn : style.dictionary.get? n = some (.primitive .loop))
    (h : Runs rt style ent (.loop condition body) ⟨st, w⟩ s') :
    Runs rt style ent (.name n) ⟨.procedure body :: .procedure condition :: st, w⟩ s'
  | done {condition body k s st w} (h : Runs rt style ent (.procedure condition) s ⟨.value (.int k) :: st, w⟩)
    (hk : ¬ 0 < k) : Runs rt style ent (.loop condition body) s ⟨st, w⟩
  | again {condition body k s s₁ s' st w} (h : Runs rt style ent (.procedure condition) s ⟨.value (.int k) :: st, w⟩)
    (hk : 0 < k) (hb : Runs rt style ent (.procedure body) ⟨st, w⟩ s₁) (hr : Runs rt style ent (.loop condition body) s₁ s') :
    Runs rt style ent (.loop condition body) s s'

end StackMachine
end Bibstyle
