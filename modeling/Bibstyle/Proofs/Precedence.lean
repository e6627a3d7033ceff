import Bibstyle.Proofs.Formulas
/-!
# Precedence — the text of an expression means the expression

A well-typed expression has a value once its atoms have values.  Its text, read by the usual grammar, has that value; its
text as a condition holds if the value is more than zero, and the text of the opposite condition if it is not.  Parentheses
are left out on the right of a sum, where the text is read from the left: sums that wrap and strings end to end can be
taken in any order.
-/
namespace Bibstyle

/-! ## The value of an expression -/

/-- **A value of a type**: an integer, or a string that is there.  Where the type is not known any value will do. -/
def Value.Suits (v : Value) : Ty → Prop
  | .int => ∃ n, v = .int n
  | .string => ∃ t, v = .str t
  | .void | .generic => True

namespace Expr

/-- Whether an expression is written as one atom. -/
def isAtom : Expr → Bool
  | var _ | global _ _ | field _ | entryVar _ _ | entry | call _ _ _ _ | verbatim _ _ => true
  | int _ | str _ | quoted _ | binary _ _ _ | compare _ _ _ | block _ => false

/-- **A well-typed value.** -/
inductive HasType (s : Scope) : Expr → Ty → Prop where
  | int {n} : HasType s (.int n) .int
  | str {v} : HasType s (.str v) .string
  | atom {e} (h : e.isAtom = true) : HasType s e (e.ty s)
  | sum {op l r} (hop : op = .add ∨ op = .sub) (hl : HasType s l .int) (hr : HasType s r .int) : HasType s (.binary op l r) .int
  | concat {l r} (hl : HasType s l .string) (hr : HasType s r .string) : HasType s (.binary .concat l r) .string
  | order {op l r} (hop : op = .lt ∨ op = .gt) (hl : HasType s l .int) (hr : HasType s r .int) : HasType s (.compare op l r) .int
  | equal {t l r} (ht : t = .int ∨ t = .string) (hl : HasType s l t) (hr : HasType s r t) : HasType s (.compare .eq l r) .int

/-- The atoms of an expression. -/
def atoms : Expr → List Expr
  | binary _ l r | compare _ l r => atoms l ++ atoms r
  | e => if e.isAtom then [e] else []

/-- **The value of an expression**, each atom having the value of its text. -/
def valued (s : Scope) (val : String → Value) : Expr → Option Value
  | int n => some (.int n)
  | str v => some (.str v)
  | binary op l r => (l.valued s val).bind (fun a => (r.valued s val).bind (op.apply a))
  | compare op l r => (l.valued s val).bind (fun a => (r.valued s val).bind (op.apply a))
  | e => if e.isAtom then some (val (e.render s)) else none

theorem atoms_of_isAtom {e : Expr} (h : e.isAtom = true) : e.atoms = [e] := by
  cases e with
  | binary | compare | int | str | quoted | block => cases h
  | _ => rfl

theorem valued_of_isAtom {e : Expr} (h : e.isAtom = true) (s : Scope) (val : String → Value) :
    e.valued s val = some (val (e.render s)) := by
  cases e with
  | binary | compare | int | str | quoted | block => cases h
  | _ => rfl

theorem valued_binary_eq_some_iff {s : Scope} {val : String → Value} {op : BinaryOp} {l r : Expr} {v : Value} :
    (binary op l r).valued s val = some v ↔ ∃ a b, l.valued s val = some a ∧ r.valued s val = some b ∧ op.apply a b = some v := by
  simp [valued, Option.bind_eq_some_iff]

theorem valued_compare_eq_some_iff {s : Scope} {val : String → Value} {op : CompareOp} {l r : Expr} {v : Value} :
    (compare op l r).valued s val = some v ↔ ∃ a b, l.valued s val = some a ∧ r.valued s val = some b ∧ op.apply a b = some v := by
  simp [valued, Option.bind_eq_some_iff]

/-- **A well-typed expression has a value of its type**, whatever its atoms are worth. -/
theorem HasType.exists_valued {s : Scope} {e : Expr} {t : Ty} (h : HasType s e t) {val : String → Value}
    (hval : ∀ x ∈ e.atoms, (val (x.render s)).Suits (x.ty s)) : ∃ v, e.valued s val = some v ∧ v.Suits t := by
  induction h with
  | @int n => exact ⟨.int n, rfl, n, rfl⟩
  | @str v => exact ⟨.str v, rfl, v, rfl⟩
  | atom h =>
    refine ⟨_, valued_of_isAtom h s val, hval _ ?_⟩
    rw [atoms_of_isAtom h]
    exact List.mem_cons_self
  | sum hop _ _ ihl ihr =>
    obtain ⟨_, ha, n, rfl⟩ := ihl (fun x hx => hval x (List.mem_append_left _ hx))
    obtain ⟨_, hb, k, rfl⟩ := ihr (fun x hx => hval x (List.mem_append_right _ hx))
    rcases hop with rfl | rfl
    · exact ⟨.int (n + k), valued_binary_eq_some_iff.2 ⟨_, _, ha, hb, rfl⟩, _, rfl⟩
    · exact ⟨.int (n - k), valued_binary_eq_some_iff.2 ⟨_, _, ha, hb, rfl⟩, _, rfl⟩
  | concat _ _ ihl ihr =>
    obtain ⟨_, ha, n, rfl⟩ := ihl (fun x hx => hval x (List.mem_append_left _ hx))
    obtain ⟨_, hb, k, rfl⟩ := ihr (fun x hx => hval x (List.mem_append_right _ hx))
    exact ⟨.str (n ++ k), valued_binary_eq_some_iff.2 ⟨_, _, ha, hb, rfl⟩, _, rfl⟩
  | order hop _ _ ihl ihr =>
    obtain ⟨_, ha, n, rfl⟩ := ihl (fun x hx => hval x (List.mem_append_left _ hx))
    obtain ⟨_, hb, k, rfl⟩ := ihr (fun x hx => hval x (List.mem_append_right _ hx))
    rcases hop with rfl | rfl
    · exact ⟨_, valued_compare_eq_some_iff.2 ⟨_, _, ha, hb, rfl⟩, _, rfl⟩
    · exact ⟨_, valued_compare_eq_some_iff.2 ⟨_, _, ha, hb, rfl⟩, _, rfl⟩
  | equal _ _ _ ihl ihr =>
    obtain ⟨a, ha, -⟩ := ihl (fun x hx => hval x (List.mem_append_left _ hx))
    obtain ⟨b, hb, -⟩ := ihr (fun x hx => hval x (List.mem_append_right _ hx))
    exact ⟨_, valued_compare_eq_some_iff.2 ⟨_, _, ha, hb, rfl⟩, _, rfl⟩

/-- **It is the value that running code computes**, in every state in which the atoms have these values. -/
theorem gives_of_valued {rt : Runtime} {ent : Option Entry} {ρ : Locals} {w : World} {s : Scope} {val : String → Value} {e : Expr}
    {v : Value} (h : e.valued s val = some v) (hgives : ∀ x ∈ e.atoms, x.Gives rt ent ρ w (val (x.render s)) w) :
    e.Gives rt ent ρ w v w := by
  fun_induction valued s val e generalizing v with
  | case1 | case2 =>
    cases h
    exact ⟨rfl, rfl⟩
  | case3 op l r ihl ihr =>
    obtain ⟨a, b, ha, hb, hv⟩ := valued_binary_eq_some_iff.1 h
    have hl := ihl ha (fun x hx => hgives x (List.mem_append_left _ hx))
    have hr := ihr hb (fun x hx => hgives x (List.mem_append_right _ hx))
    exact ⟨a, w, b, hl, hr, hv⟩
  | case4 op l r ihl ihr =>
    obtain ⟨a, b, ha, hb, hv⟩ := valued_compare_eq_some_iff.1 h
    have hl := ihl ha (fun x hx => hgives x (List.mem_append_left _ hx))
    have hr := ihr hb (fun x hx => hgives x (List.mem_append_right _ hx))
    exact ⟨a, w, b, hl, hr, hv⟩
  | case5 e _ _ _ _ hatom =>
    cases h
    rw [atoms_of_isAtom hatom] at hgives
    exact hgives e List.mem_cons_self
  | case6 => cases h

end Expr

/-! ## The pieces of its text -/

def BinaryOp.toSign : BinaryOp → Sign
  | add | concat => .plus
  | sub => .minus

/-- The sign of a comparison, or of its opposite. -/
def CompareOp.toSign : CompareOp → Bool → Sign
  | lt, false => .less
  | lt, true => .atLeast
  | gt, false => .greater
  | gt, true => .atMost
  | eq, false => .equal
  | eq, true => .unequal

theorem BinaryOp.text_toSign (op : BinaryOp) : op.toSign.text = op.sign := by
  cases op <;> rfl

theorem CompareOp.text_toSign (op : CompareOp) (negate : Bool) : (op.toSign negate).text = op.sign negate := by
  cases op <;> cases negate <;> rfl

theorem CompareOp.rank_toSign (op : CompareOp) (negate : Bool) : (op.toSign negate).rank = op.binding.rank := by
  cases op <;> cases negate <;> rfl

/-- The pieces of a part, in parentheses if it binds looser than `least`. -/
def Rendered.pieces (r : Rendered) (least : Nat) (xs : List Piece) : List Piece :=
  if r.binding.rank < least then .opening :: xs ++ [.closing] else xs

theorem Rendered.spell_pieces {r : Rendered} {xs : List Piece} (h : Piece.spell xs = r.text) (least : Nat) :
    Piece.spell (r.pieces least xs) = r.within least := by
  unfold Rendered.pieces Rendered.within
  split
  · rw [List.cons_append, Piece.spell, Piece.spell_append, Piece.spell_single, h, ← String.append_assoc]
    rfl
  · exact h

theorem Rendered.pieces_of_le {r : Rendered} {least : Nat} (h : least ≤ r.binding.rank) (xs : List Piece) :
    r.pieces least xs = xs :=
  if_neg (Nat.not_lt.2 h)

namespace Expr

/-- The pieces of a comparison of two parts. -/
def comparisonPieces (op : CompareOp) (negate : Bool) (left right : Rendered) (xs ys : List Piece) : List Piece :=
  left.pieces (op.binding.rank + 1) xs ++ .sign (op.toSign negate) :: right.pieces (op.binding.rank + 1) ys

/-- **The pieces of the text of an expression.** -/
def pieces (s : Scope) : Expr → List Piece
  | int n => [.int n]
  | str v => [.str v]
  | binary op l r =>
    (l.rendered s).pieces Binding.additive.rank (pieces s l) ++ .sign op.toSign ::
      (r.rendered s).pieces (if op = .sub then Binding.additive.rank + 1 else Binding.additive.rank) (pieces s r)
  | compare op l r =>
    .opening :: comparisonPieces op false (l.rendered s) (r.rendered s) (pieces s l) (pieces s r) ++
      .question :: [.int 1] ++ .colon :: [.int 0] ++ [.closing]
  | e => [.atom (e.render s)]

/-- **The pieces of its text as a condition**, or as the opposite condition. -/
def conditionPieces (s : Scope) (negate : Bool) : Expr → List Piece
  | compare op l r => comparisonPieces op negate (l.rendered s) (r.rendered s) (l.pieces s) (r.pieces s)
  | e => (e.rendered s).pieces (Binding.relational.rank + 1) (e.pieces s) ++ .sign (CompareOp.gt.toSign negate) :: [.int 0]

theorem pieces_of_isAtom {e : Expr} (h : e.isAtom = true) (s : Scope) : e.pieces s = [.atom (e.render s)] := by
  cases e with
  | binary | compare | int | str | quoted | block => cases h
  | _ => rfl

theorem spell_comparisonPieces {left right : Rendered} {xs ys : List Piece} (hl : Piece.spell xs = left.text)
    (hr : Piece.spell ys = right.text) (op : CompareOp) (negate : Bool) :
    Piece.spell (comparisonPieces op negate left right xs ys) = comparison op negate left right := by
  rw [comparisonPieces, Piece.spell_append, Piece.spell, Rendered.spell_pieces hl, Rendered.spell_pieces hr, Piece.text,
    CompareOp.text_toSign, comparison]
  simp only [String.append_assoc]

/-- **The pieces spell the text.** -/
theorem spell_pieces (s : Scope) (e : Expr) : Piece.spell (e.pieces s) = e.render s := by
  fun_induction pieces s e with
  | case1 | case2 => exact Piece.spell_single _
  | case3 op l r ihl ihr =>
    rw [Piece.spell_append, Piece.spell, Rendered.spell_pieces ihl, Rendered.spell_pieces ihr, Piece.text,
      BinaryOp.text_toSign, render, rendered]
    simp only [String.append_assoc]
  | case4 op l r ihl ihr =>
    have hchoice : Piece.spell ([.question, .int 1] ++ ([.colon, .int 0] ++ [.closing])) = " ? 1 : 0)" := by decide
    rw [List.append_assoc, List.append_assoc, Piece.spell_append, hchoice, Piece.spell, spell_comparisonPieces ihl ihr, render,
      rendered]
    rfl
  | case5 e => exact Piece.spell_single _

theorem spell_conditionPieces (s : Scope) (e : Expr) (negate : Bool) :
    Piece.spell (e.conditionPieces s negate) = e.condition s negate := by
  unfold conditionPieces condition
  split
  · exact spell_comparisonPieces (spell_pieces s _) (spell_pieces s _) _ negate
  · have hzero : Decimal.text 0 = "0" := by decide
    rw [Piece.spell_append, Piece.spell, Rendered.spell_pieces (spell_pieces s _), Piece.spell_single, Piece.text, Piece.text,
      CompareOp.text_toSign, hzero]
    simp only [String.append_assoc]
    rfl

end Expr

/-! ## Sums and comparisons -/

/-- **Sums can be taken from the left**: adding what an operation gives is adding its left operand and then going on with
the operation. -/
theorem BinaryOp.plus_apply {op : BinaryOp} {u a b v w : Value} (hv : op.apply a b = some v)
    (hw : Sign.plus.apply u v = some (.value w)) :
    ∃ m, Sign.plus.apply u a = some (.value m) ∧ op.toSign.apply m b = some (.value w) := by
  unfold BinaryOp.apply at hv
  split at hv
  · rename_i n k
    cases hv
    cases u with
    | int m =>
      cases hw
      exact ⟨.int (m + n), rfl, by rw [← Int32.add_assoc]; rfl⟩
    | _ => cases hw
  · rename_i n k
    cases hv
    cases u with
    | int m =>
      cases hw
      exact ⟨.int (m + n), rfl, by rw [Int32.sub_eq_add_neg, ← Int32.add_assoc, ← Int32.sub_eq_add_neg]; rfl⟩
    | _ => cases hw
  · rename_i n k
    cases hv
    cases u with
    | str m =>
      cases hw
      exact ⟨.str (m ++ n), rfl, by rw [← String.append_assoc]; rfl⟩
    | _ => cases hw
  · cases hv

theorem BinaryOp.apply_toSign {op : BinaryOp} {a b v : Value} (hv : op.apply a b = some v) :
    op.toSign.apply a b = some (.value v) := by
  unfold BinaryOp.apply at hv
  split at hv <;> cases hv <;> rfl

theorem Value.pos_of_ofBool {c : Bool} {n : Int32} (h : Value.int n = .ofBool c) : decide (0 < n) = c := by
  cases Value.int.inj h
  cases c <;> decide

theorem Value.ofBool_injective {c d : Bool} (h : Value.ofBool c = .ofBool d) : c = d :=
  (Value.pos_of_ofBool rfl).symm.trans (Value.pos_of_ofBool h)

/-- **A comparison holds or its opposite does.** -/
theorem CompareOp.apply_toSign {op : CompareOp} {a b v : Value} (hv : op.apply a b = some v) :
    ∃ c, v = .ofBool c ∧ ∀ negate, (op.toSign negate).apply a b = some (.truth (negate ^^ c)) := by
  have hnot : ∀ n k : Int32, decide (k ≤ n) = !decide (n < k) := by
    intro n k
    rw [← decide_not, decide_eq_decide, Int32.not_lt]
  unfold CompareOp.apply at hv
  split at hv
  · rename_i n k
    cases hv
    refine ⟨decide (n < k), rfl, Bool.forall_bool.2 ⟨?_, ?_⟩⟩
    · rw [Bool.false_xor]; rfl
    · rw [Bool.true_xor, ← hnot]; rfl
  · rename_i n k
    cases hv
    refine ⟨decide (k < n), rfl, Bool.forall_bool.2 ⟨?_, ?_⟩⟩
    · rw [Bool.false_xor]; rfl
    · rw [Bool.true_xor, ← hnot]; rfl
  · cases hv
    refine ⟨a == b, rfl, Bool.forall_bool.2 ⟨?_, ?_⟩⟩
    · rw [Bool.false_xor]; rfl
    · rw [Bool.true_xor]; rfl
  · cases hv

/-! ## Reading its text -/

namespace Formula

/-- **Pieces of a part that has a value**, as they can be read wherever the part can stand: by themselves, as one operand,
and on the right of a sum, where they are not taken together. -/
structure Readable (val : String → Value) (r : Rendered) (xs : List Piece) (v : Value) : Prop where
  alone : Says val Binding.additive.rank xs (.value v)
  operand : Says val operandRank (r.pieces operandRank xs) (.value v)
  added {ys : List Piece} {u w : Value} : Says val Binding.additive.rank ys (.value u) → Sign.plus.apply u v = some (.value w) →
    Says val Binding.additive.rank (ys ++ .sign .plus :: xs) (.value w)

namespace Readable

variable {val : String → Value}

theorem of_operand {r : Rendered} {xs : List Piece} {v : Value} (h : Says val operandRank xs (.value v))
    (hr : operandRank ≤ r.binding.rank) : Readable val r xs v where
  alone := h.loosen (Nat.le_succ _)
  operand := by rwa [Rendered.pieces_of_le hr]
  added hys hw := hys.join h hw

/-- An operation goes on with its right operand: a difference takes it as one, a sum goes on through it. -/
theorem follows {op : BinaryOp} {r : Rendered} {xs ys : List Piece} {u b w : Value} (h : Readable val r ys b)
    (hr : Binding.additive.rank ≤ r.binding.rank) (hxs : Says val Binding.additive.rank xs (.value u))
    (hw : op.toSign.apply u b = some (.value w)) :
    Says val Binding.additive.rank
      (xs ++ .sign op.toSign :: r.pieces (if op = .sub then Binding.additive.rank + 1 else Binding.additive.rank) ys) (.value w) := by
  cases op with
  | add | concat =>
    rw [if_neg (by decide), Rendered.pieces_of_le hr]
    exact h.added hxs hw
  | sub =>
    rw [if_pos rfl]
    exact hxs.join h.operand hw

theorem binary {op : BinaryOp} {left right : Rendered} {xs ys : List Piece} {a b v : Value} (text : String)
    (hl : Readable val left xs a) (hleft : Binding.additive.rank ≤ left.binding.rank) (hr : Readable val right ys b)
    (hright : Binding.additive.rank ≤ right.binding.rank) (hv : op.apply a b = some v) :
    Readable val ⟨text, .additive⟩
      (left.pieces Binding.additive.rank xs ++ .sign op.toSign ::
        right.pieces (if op = .sub then Binding.additive.rank + 1 else Binding.additive.rank) ys) v := by
  rw [Rendered.pieces_of_le hleft]
  have halone := hr.follows hright hl.alone (BinaryOp.apply_toSign hv)
  refine ⟨halone, ?_, fun hzs hw => ?_⟩
  · exact (halone.loosen (Nat.zero_le _)).group
  · -- What stands before is joined to the left operand first, and the operation goes on from there.
    obtain ⟨m, hm, hw⟩ := BinaryOp.plus_apply hv hw
    have hjoined := hr.follows hright (hl.added hzs hm) hw
    rwa [List.append_assoc, List.cons_append] at hjoined

end Readable
end Formula

namespace Expr

open Formula (Says Readable)

/-- Only an operation binds looser than an operand. -/
theorem operandRank_le_or_binary (s : Scope) (e : Expr) :
    Formula.operandRank ≤ (e.rendered s).binding.rank ∨ ∃ op l r, e = .binary op l r := by
  cases e with
  | int n =>
    refine .inl ?_
    rw [rendered]
    by_cases hn : n < 0
    · rw [if_pos hn]
      exact Nat.le_refl _
    · rw [if_neg hn]
      exact Nat.le_succ _
  | binary op l r => exact .inr ⟨op, l, r, rfl⟩
  | _ => exact .inl (by rw [rendered]; exact Nat.le_succ _)

theorem additive_le_rendered (s : Scope) (e : Expr) : Binding.additive.rank ≤ (e.rendered s).binding.rank := by
  rcases operandRank_le_or_binary s e with h | ⟨op, l, r, rfl⟩
  · exact Nat.le_of_succ_le h
  · rw [rendered]

/-- A comparison, or its opposite, reads as whether it holds. -/
theorem says_comparison {val : String → Value} {s : Scope} {op : CompareOp} {l r : Expr} {a b : Value} {c negate : Bool}
    (hl : Readable val (l.rendered s) (l.pieces s) a) (hr : Readable val (r.rendered s) (r.pieces s) b)
    (hc : (op.toSign negate).apply a b = some (.truth c)) :
    Says val 0 (comparisonPieces op negate (l.rendered s) (r.rendered s) (l.pieces s) (r.pieces s)) (.truth c) := by
  have hrank : op.binding.rank + 1 ≤ Binding.additive.rank := by cases op <;> decide
  rw [comparisonPieces, Rendered.pieces_of_le (Nat.le_trans hrank (additive_le_rendered s l)),
    Rendered.pieces_of_le (Nat.le_trans hrank (additive_le_rendered s r))]
  rw [← CompareOp.rank_toSign op negate] at hrank
  exact ((hl.alone.loosen (Nat.le_of_succ_le hrank)).join (hr.alone.loosen hrank) hc).loosen (Nat.zero_le _)

/-- **The text of an expression that has a value can be read**, wherever the expression can stand. -/
theorem readable {s : Scope} {val : String → Value} {e : Expr} {v : Value} (h : e.valued s val = some v) :
    Readable val (e.rendered s) (e.pieces s) v := by
  fun_induction valued s val e generalizing v with
  | case1 n =>
    cases h
    exact .of_operand ⟨_, .int, rfl⟩ ((operandRank_le_or_binary s _).resolve_right (by simp))
  | case2 t =>
    cases h
    exact .of_operand ⟨_, .str, rfl⟩ ((operandRank_le_or_binary s _).resolve_right (by simp))
  | case3 op l r ihl ihr =>
    obtain ⟨a, b, ha, hb, hv⟩ := valued_binary_eq_some_iff.1 h
    rw [rendered, pieces]
    exact .binary _ (ihl ha) (additive_le_rendered s l) (ihr hb) (additive_le_rendered s r) hv
  | case4 op l r ihl ihr =>
    obtain ⟨a, b, ha, hb, hv⟩ := valued_compare_eq_some_iff.1 h
    obtain ⟨c, rfl, hc⟩ := CompareOp.apply_toSign hv
    have htest : Says val 0 _ (.truth c) := says_comparison (ihl ha) (ihr hb) (Bool.false_xor c ▸ hc false)
    have hyes : Says val 0 [.int 1] (.value (.int 1)) := ⟨_, .loosen .int (Nat.zero_le _), rfl⟩
    have hno : Says val 0 [.int 0] (.value (.int 0)) := ⟨_, .loosen .int (Nat.zero_le _), rfl⟩
    have hvalue : Value.ofBool c = if c then .int 1 else .int 0 := by cases c <;> rfl
    rw [pieces, hvalue]
    exact .of_operand (htest.choice hyes hno) ((operandRank_le_or_binary s _).resolve_right (by simp))
  | case5 e _ _ _ hnot hatom =>
    cases h
    rw [pieces_of_isAtom hatom]
    refine .of_operand ⟨_, .atom, rfl⟩ ((operandRank_le_or_binary s e).resolve_right ?_)
    rintro ⟨op, l, r, rfl⟩
    cases hatom
  | case6 => cases h

/-- **As a condition it says whether the value is more than zero**, and as the opposite condition whether it is not. -/
theorem says_condition {s : Scope} {val : String → Value} {e : Expr} {n : Int32} (h : e.valued s val = some (.int n))
    (negate : Bool) : Says val 0 (e.conditionPieces s negate) (.truth (negate ^^ decide (0 < n))) := by
  unfold conditionPieces
  split
  · obtain ⟨a, b, ha, hb, hv⟩ := valued_compare_eq_some_iff.1 h
    obtain ⟨c, hn, hc⟩ := CompareOp.apply_toSign hv
    rw [Value.pos_of_ofBool hn]
    exact says_comparison (readable ha) (readable hb) (hc negate)
  · have hpos : CompareOp.gt.apply (.int n) (.int 0) = some (.ofBool (0 < n)) := rfl
    obtain ⟨c, hn, hc⟩ := CompareOp.apply_toSign hpos
    rw [Value.ofBool_injective hn]
    have hrank : Binding.relational.rank + 1 ≤ Binding.additive.rank := by decide
    rw [Rendered.pieces_of_le (Nat.le_trans hrank (additive_le_rendered s e))]
    have hsign : (CompareOp.gt.toSign negate).rank = Binding.relational.rank := CompareOp.rank_toSign .gt negate
    have hvalue := (readable h).alone.loosen (hsign ▸ Nat.le_of_succ_le hrank)
    have hzero : Says val ((CompareOp.gt.toSign negate).rank + 1) [.int 0] (.value (.int 0)) :=
      ⟨_, .loosen .int (hsign ▸ Nat.le_succ _), rfl⟩
    exact (hvalue.join hzero (hc negate)).loosen (Nat.zero_le _)

/-! ## Cutting its text -/

/-- **Whether a node is written with names**: its variable, its method or its text of the runtime is one. -/
def isNamed (s : Scope) : Expr → Bool
  | var v => Piece.isName (s.name v)
  | global n _ => Piece.isName n
  | call c _ _ _ => Piece.isName c.method
  | verbatim t _ => Piece.isName t
  | block _ => false
  | _ => true

theorem balanced_of_isName {t : String} (h : Piece.isName t = true) : Text.Balanced t.toList := by
  refine .of_plain (List.all_eq_true.2 (fun c hc => ?_))
  exact Text.isPlain_of_class (p := Piece.inName) (by decide) (by decide) (by decide) (Piece.inName_of_isName h c hc)

theorem balanced_text (n : Int32) : Text.Balanced (Decimal.text n).toList := by
  refine .of_plain (List.all_eq_true.2 (fun c hc => ?_))
  obtain h | rfl | rfl := (Decimal.spells_text n).isNumeric c hc
  · exact Text.isPlain_of_class (p := Char.isDigit) (by decide) (by decide) (by decide) h
  · decide
  · decide

theorem balanced_quote (v : String) : Text.Balanced (Text.quote v).toList := by
  rw [Text.quote, String.toList_ofList]
  exact .quoteChars _

theorem balanced_append {t u : String} (ht : Text.Balanced t.toList) (hu : Text.Balanced u.toList) :
    Text.Balanced (t ++ u).toList := by
  rw [String.toList_append]
  exact ht.append hu

theorem balanced_parenthesised {t : String} (h : Text.Balanced t.toList) : Text.Balanced ("(" ++ t ++ ")").toList := by
  rw [String.toList_append, String.toList_append]
  exact h.parenthesised

theorem balanced_within {r : Rendered} (h : Text.Balanced r.text.toList) (least : Nat) :
    Text.Balanced (r.within least).toList := by
  unfold Rendered.within
  split
  · exact balanced_parenthesised h
  · exact h

/-- A sign with blanks around it keeps the two sides balanced. -/
theorem balanced_signed {t sign u : String} (ht : Text.Balanced t.toList) (hsign : sign.toList.all Text.isPlain = true)
    (hu : Text.Balanced u.toList) : Text.Balanced (t ++ " " ++ sign ++ " " ++ u).toList := by
  have hblank : Text.Balanced " ".toList := .of_plain (by decide)
  exact balanced_append (balanced_append (balanced_append (balanced_append ht hblank) (.of_plain hsign)) hblank) hu

theorem balanced_comparison {left right : Rendered} (hl : Text.Balanced left.text.toList) (hr : Text.Balanced right.text.toList)
    (op : CompareOp) (negate : Bool) : Text.Balanced (comparison op negate left right).toList :=
  balanced_signed (balanced_within hl _) (by cases op <;> cases negate <;> decide) (balanced_within hr _)

/-- A name that is called is closed with what it is called with. -/
theorem balanced_call {m inside : String} (hm : Text.Balanced m.toList) (hi : Text.Balanced inside.toList) :
    Text.Balanced (m ++ "(" ++ inside ++ ")").toList := by
  have htext : m ++ "(" ++ inside ++ ")" = m ++ ("(" ++ inside ++ ")") := by simp only [String.append_assoc]
  rw [htext]
  exact balanced_append hm (balanced_parenthesised hi)

theorem isName_getter (t : Ty) : Piece.isName ("entry." ++ getter t) = true := by
  cases t <;> decide

mutual

/-- **The text of an expression written with names closes what it opens.** -/
theorem balanced_rendered (s : Scope) : ∀ e : Expr, (∀ x ∈ e.nodes, x.isNamed s = true) → Text.Balanced (e.rendered s).text.toList
  | int n, _ => balanced_text n
  | str v, _ => balanced_quote v
  | quoted v, _ => balanced_quote v
  | var v, h => balanced_of_isName (h (var v) List.mem_cons_self)
  | global n t, h => balanced_of_isName (h (global n t) List.mem_cons_self)
  | field n, _ => balanced_call (m := "entry.field") (.of_plain (by decide)) (balanced_quote n)
  | entryVar n t, _ => balanced_call (balanced_of_isName (isName_getter t)) (balanced_quote n)
  | entry, _ => .of_plain (t := "entry".toList) (by decide)
  | call c args t effect, h => by
    rw [nodes, List.forall_mem_cons] at h
    exact balanced_call (balanced_of_isName h.1) (balanced_renderedAll s args h.2)
  | binary op l r, h => by
    rw [nodes, List.forall_mem_cons, List.forall_mem_append] at h
    exact balanced_signed (balanced_within (balanced_rendered s l h.2.1) _) (by cases op <;> decide)
      (balanced_within (balanced_rendered s r h.2.2) _)
  | compare op l r, h => by
    rw [nodes, List.forall_mem_cons, List.forall_mem_append] at h
    have hcomparison := balanced_comparison (balanced_rendered s l h.2.1) (balanced_rendered s r h.2.2) op false
    have htext : ∀ c : String, "(" ++ c ++ " ? 1 : 0)" = "(" ++ (c ++ " ? 1 : 0") ++ ")" := by
      intro c
      simp only [String.append_assoc]
      rfl
    rw [rendered, htext]
    exact balanced_parenthesised (balanced_append hcomparison (.of_plain (by decide)))
  | verbatim t ty, h => balanced_of_isName (h (verbatim t ty) List.mem_cons_self)
  | block g, h => nomatch h (block g) List.mem_cons_self

theorem balanced_renderedAll (s : Scope) : ∀ es : List Expr, (∀ x ∈ nodesAll es, x.isNamed s = true) →
    Text.Balanced (String.intercalate ", " (renderedAll s es)).toList
  | [], _ => .nil .code
  | [e], h => by
    rw [nodesAll, List.forall_mem_append] at h
    exact balanced_rendered s e h.1
  | e :: e' :: es, h => by
    rw [nodesAll, List.forall_mem_append] at h
    rw [renderedAll, renderedAll, String.intercalate_cons_cons]
    have hcomma : Text.Balanced ", ".toList := .of_plain (by decide)
    exact balanced_append (balanced_append (balanced_rendered s e h.1) hcomma) (balanced_renderedAll s (e' :: es) h.2)

end

/-- **An atom written with names can be told from what follows it.** -/
theorem legible_render {s : Scope} {e : Expr} (ha : e.isAtom = true) (h : ∀ x ∈ e.nodes, x.isNamed s = true) :
    Piece.Legible (e.render s) := by
  cases e with
  | int | str | quoted | binary | compare | block => cases ha
  | var v => exact .name (h (var v) List.mem_cons_self)
  | global n t => exact .name (h (global n t) List.mem_cons_self)
  | verbatim t ty => exact .name (h (verbatim t ty) List.mem_cons_self)
  | entry => exact .name (t := "entry") (by decide)
  | field n => exact .call (m := "entry.field") (by decide) (balanced_quote n)
  | entryVar n t => exact .call (isName_getter t) (balanced_quote n)
  | call c args t effect =>
    rw [nodes, List.forall_mem_cons] at h
    exact .call h.1 (balanced_renderedAll s args h.2)

end Expr

theorem Rendered.atom_mem_pieces {r : Rendered} {least : Nat} {xs : List Piece} {t : String} :
    .atom t ∈ r.pieces least xs ↔ .atom t ∈ xs := by
  unfold Rendered.pieces
  split <;> simp

namespace Expr

theorem atom_mem_comparisonPieces {op : CompareOp} {negate : Bool} {left right : Rendered} {xs ys : List Piece} {t : String} :
    .atom t ∈ comparisonPieces op negate left right xs ys ↔ .atom t ∈ xs ∨ .atom t ∈ ys := by
  simp [comparisonPieces, Rendered.atom_mem_pieces]

theorem legible_of_mem_pieces {s : Scope} {val : String → Value} {e : Expr} {v : Value} (hv : e.valued s val = some v)
    (h : ∀ x ∈ e.nodes, x.isNamed s = true) : ∀ t, .atom t ∈ e.pieces s → Piece.Legible t := by
  intro t ht
  fun_induction valued s val e generalizing v with
  | case1 | case2 => simp [pieces] at ht
  | case3 op l r ihl ihr =>
    obtain ⟨a, b, ha, hb, -⟩ := valued_binary_eq_some_iff.1 hv
    rw [nodes, List.forall_mem_cons, List.forall_mem_append] at h
    simp only [pieces, List.mem_append, List.mem_cons, Rendered.atom_mem_pieces, reduceCtorEq, false_or] at ht
    rcases ht with ht | ht
    · exact ihl ha h.2.1 ht
    · exact ihr hb h.2.2 ht
  | case4 op l r ihl ihr =>
    obtain ⟨a, b, ha, hb, -⟩ := valued_compare_eq_some_iff.1 hv
    rw [nodes, List.forall_mem_cons, List.forall_mem_append] at h
    simp only [pieces, List.mem_append, List.mem_cons, atom_mem_comparisonPieces, reduceCtorEq, false_or, or_false,
      List.not_mem_nil] at ht
    rcases ht with ht | ht
    · exact ihl ha h.2.1 ht
    · exact ihr hb h.2.2 ht
  | case5 e _ _ _ _ hatom =>
    rw [pieces_of_isAtom hatom, List.mem_singleton] at ht
    cases ht
    exact legible_render hatom h
  | case6 => cases hv

/-- A condition has the atoms of the expression. -/
theorem mem_pieces_of_mem_conditionPieces {s : Scope} {negate : Bool} {e : Expr} {t : String}
    (h : .atom t ∈ e.conditionPieces s negate) : .atom t ∈ e.pieces s := by
  unfold conditionPieces at h
  split at h
  · rw [atom_mem_comparisonPieces] at h
    simpa [pieces, atom_mem_comparisonPieces] using h
  · simpa [Rendered.atom_mem_pieces] using h

end Expr

namespace Formula

/-- **A text reads as an answer**, its atoms being what they are: the pieces spell the text, and they are read in one way.
If its atoms are legible, the text is cut into these pieces and no others. -/
structure ReadsAs (val : String → Value) (legible : Prop) (text : String) (xs : List Piece) (a : Answer) : Prop where
  spelled : Piece.spell xs = text
  answers : Answers val xs a
  cut : legible → ∀ ys, Piece.Cut text.toList ys ↔ ys = xs

theorem Says.readsAs {val : String → Value} {legible : Prop} {text : String} {xs : List Piece} {a : Answer} (h : Says val 0 xs a)
    (hspell : Piece.spell xs = text) (hlegible : legible → ∀ t, .atom t ∈ xs → Piece.Legible t) :
    ReadsAs val legible text xs a where
  spelled := hspell
  answers := h.answers
  cut hl ys := by
    obtain ⟨f, hf, -⟩ := h
    rw [← hspell]
    exact (hf.cutsOut (hlegible hl)).cut_iff ys

end Formula

namespace Expr

/-- **Expressions are written with the precedence they have.**  The text of a well-typed expression reads as its value,
which is the value that running code computes; its text as a condition reads as whether that is more than zero, and the
opposite condition as whether it is not. -/
theorem text_reads_as_value {s : Scope} {e : Expr} {t : Ty} (ht : HasType s e t) (val : String → Value)
    (hval : ∀ x ∈ e.atoms, (val (x.render s)).Suits (x.ty s)) :
    ∃ v, e.valued s val = some v ∧ v.Suits t ∧
      Formula.ReadsAs val (∀ x ∈ e.nodes, x.isNamed s = true) (e.render s) (e.pieces s) (.value v) ∧
      (∀ n, v = .int n → ∀ negate, Formula.ReadsAs val (∀ x ∈ e.nodes, x.isNamed s = true) (e.condition s negate)
        (e.conditionPieces s negate) (.truth (negate ^^ decide (0 < n)))) ∧
      ∀ rt ent ρ w, (∀ x ∈ e.atoms, x.Gives rt ent ρ w (val (x.render s)) w) → e.Gives rt ent ρ w v w := by
  obtain ⟨v, hv, hsuits⟩ := ht.exists_valued hval
  refine ⟨v, hv, hsuits, ?_, ?_, fun rt ent ρ w h => gives_of_valued hv h⟩
  · exact ((readable hv).alone.loosen (Nat.zero_le _)).readsAs (spell_pieces s e) (legible_of_mem_pieces hv)
  · rintro n rfl negate
    exact (says_condition hv negate).readsAs (spell_conditionPieces s e negate)
      (fun hl t ht => legible_of_mem_pieces hv hl t (mem_pieces_of_mem_conditionPieces ht))

/-- A difference whose right side is a sum with a call, and a comparison after it. -/
theorem text_reads_as_value_nested :
    let s : Scope := ⟨#[⟨.local, .int, some "v1"⟩]⟩
    let e : Expr := .binary .add
      (.binary .sub (.var 0) (.binary .add (.int (-3)) (.call (.runtime "size") [.str "it's ("] .int false)))
      (.compare .lt (.global "limit" .int) (.int 5))
    let val : String → Value := fun t => .int (if t = "v1" then 10 else if t = "limit" then 4 else 7)
    e.render s = "v1 - (-3 + size('it\\'s (')) + (limit < 5 ? 1 : 0)" ∧
      (∃ xs, (∀ ys, Piece.Cut (e.render s).toList ys ↔ ys = xs) ∧ Formula.Answers val xs (.value (.int 7))) ∧
      ∃ xs, (∀ ys, Piece.Cut (e.condition s true).toList ys ↔ ys = xs) ∧ Formula.Answers val xs (.truth false) := by
  intro s e val
  have htyped : HasType s e .int :=
    .sum (.inl rfl) (.sum (.inr rfl) (.atom rfl) (.sum (.inl rfl) .int (.atom rfl))) (.order (.inl rfl) (.atom rfl) .int)
  have hval : ∀ x ∈ e.atoms, (val (x.render s)).Suits (x.ty s) :=
    List.forall_mem_cons.2 ⟨⟨_, rfl⟩, List.forall_mem_cons.2 ⟨⟨_, rfl⟩, List.forall_mem_cons.2 ⟨⟨_, rfl⟩, List.forall_mem_nil _⟩⟩⟩
  have hnamed : ∀ x ∈ e.nodes, x.isNamed s = true := List.all_eq_true.1 (by decide)
  have hvalue : e.valued s val = some (.int 7) := by decide
  obtain ⟨v, hv, -, hreads, hcondition, -⟩ := text_reads_as_value htyped val hval
  cases hv.symm.trans hvalue
  exact ⟨by decide, ⟨_, hreads.cut hnamed, hreads.answers⟩, _, (hcondition 7 rfl true).cut hnamed, (hcondition 7 rfl true).answers⟩

end Expr
end Bibstyle
