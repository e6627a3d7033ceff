import Bibstyle.Proofs.Simulation
/-!
# Actions — primitives on the symbolic stack

A primitive that runs no procedure takes items from the stack of the style and leaves others, or changes the world.  What
it writes while a body is compiled does the same: values it computes are left as expressions, and before it changes the
world, the expressions on the stack that would notice are stored.
-/
namespace Bibstyle

open StackMachine (Item State Program)

/-! ## Operands -/

/-- As many expressions as values, each worth its value. -/
theorem Denotes.all {rt : Runtime} {ent : Option Entry} {s : Scope} {ρ : Locals} {w : World} :
    ∀ {es : List Expr} {vs : List Value}, es.length = vs.length →
      (∀ q ∈ es.zip (vs.map Item.value), Denotes rt ent s ρ w q.1 q.2) →
      Expr.GivesAll rt ent ρ es w vs w ∧ Expr.allPure es = true ∧ ∀ x ∈ Expr.varsAll es, s.origin? x ≠ none
  | [], [], _, _ => ⟨⟨rfl, rfl⟩, rfl, nofun⟩
  | e :: es, v :: vs, hlength, h => by
    rw [List.map_cons, List.zip_cons_cons, List.forall_mem_cons] at h
    obtain ⟨hgives, hpure, hknown⟩ := Denotes.all (Nat.succ.inj hlength) h.2
    cases h.1 with
    | value hpure' hknown' hgives' =>
      refine ⟨⟨v, w, vs, hgives', hgives, rfl⟩, ?_, fun x hx => ?_⟩
      · rw [Expr.allPure, hpure', hpure]
        rfl
      · rw [Expr.varsAll_cons] at hx
        exact (List.mem_append.1 hx).elim (hknown' x) (hknown x)

/-- Different names of globals have different identifiers. -/
def Dictionary.Apart (d : Dictionary) : Prop :=
  ∀ n n' id, d.globalId? n = some id → d.globalId? n' = some id → n = n'

/-- What one dictionary knows, the other knows too. -/
def Dictionary.Within (d d' : Dictionary) : Prop :=
  ∀ n m, d.get? n = some m → d'.get? n = some m

namespace Activation

/-- **A method of a program runs for a style**: it calls the methods of the program, it has all its arguments, and if it
uses the entry, it has that of the style. -/
structure Serves (c : Activation) (rt : Runtime) (style : Program) (rs : List Routine) (ent : Option Entry) : Prop where
  runtime : c.runtime = rt.linked rs
  dictionary : c.dictionary = style.dictionary
  supplied : c.Supplied
  entry : c.usesEntry = true → c.entry = ent ∧ ent.isSome = true

section Operands

variable {c : Activation} {held : List (Expr × Item)} {s : State} {st : List Item} {σ : World}

/-- **The operands of a primitive are the values on top of the stack.** -/
theorem sim_operands (hc : c.Supplied) (p : String) {ts : List Ty} {operands : List Value} (hlength : operands.length = ts.length) :
    c.Sim (Eval.popArgs p ts) (c.Stands held ⟨operands.reverse.map .value ++ st, σ⟩)
      (fun es m ρ w => es.length = operands.length ∧ c.Stands (es.zip (operands.map .value) ++ held) ⟨st, σ⟩ m ρ w) := by
  refine (sim_popArgs hc p ts).post (fun es m ρ w h => ?_)
  obtain ⟨⟨vs, below⟩, ⟨hstack, hvs, hes⟩, hs⟩ := h
  dsimp only at hstack hvs hs
  obtain ⟨hvalues, rfl⟩ := List.append_inj hstack (by rw [List.length_map, List.length_map, List.length_reverse,
    List.length_reverse, hvs, hlength])
  have hreverse := (List.map_inj_right (fun a b => Item.value.inj)).1 hvalues
  obtain rfl := List.reverse_inj.1 hreverse
  exact ⟨hes.trans hvs.symm, hs⟩

/-- Expressions that are worth the operands, as the parts of one. -/
theorem Stands.call {es : List Expr} {vs : List Value} {m : Machine} {ρ : Locals} {w : World} {method : String} {t : Ty} {v : Value}
    (h : es.length = vs.length ∧ c.Stands (es.zip (vs.map .value) ++ held) s m ρ w)
    (hv : c.runtime.method (.runtime method) vs = some v) : c.Stands [(.pureCall method es t, .value v)] s m ρ w := by
  obtain ⟨hgives, hpure, hknown⟩ := Denotes.all h.1 (fun q hq => h.2.held q (List.mem_append_left _ hq))
  refine h.2.value ?_ (fun x hx => hknown x ?_) ⟨vs, hgives, ?_⟩
  · rw [Expr.pureCall, Expr.isPure, hpure]
    rfl
  · rw [Expr.pureCall, Expr.vars_call] at hx
    exact hx
  · rw [Runtime.methodOf, hv]
    rfl

theorem sim_callMethod (hc : c.Supplied) (p : String) {ts : List Ty} {method : String} {t : Ty} {operands : List Value} {v : Value}
    (hlength : operands.length = ts.length) (hv : c.runtime.method (.runtime method) operands = some v) :
    c.Sim (Eval.callMethod p ts method t) (c.Stands [] ⟨operands.reverse.map .value ++ st, σ⟩)
      (fun _ => c.Stands [] ⟨.value v :: st, σ⟩) :=
  .bind (sim_operands hc p hlength) (fun _ => sim_leave (fun _ _ _ hs => Stands.call hs hv))

theorem sim_callHelper (hc : c.Supplied) (p : String) {ts : List Ty} {h : Helper} {t : Ty} {operands : List Value} {v : Value}
    (hlength : operands.length = ts.length) (hv : c.runtime.method (.runtime h.name) operands = some v) :
    c.Sim (Eval.callHelper p ts h t) (c.Stands [] ⟨operands.reverse.map .value ++ st, σ⟩)
      (fun _ => c.Stands [] ⟨.value v :: st, σ⟩) :=
  .bind (sim_link h) (fun _ => sim_callMethod hc p hlength hv)

/-- Two expressions that are worth the operands, as the sides of one. -/
theorem Stands.pair {left right e : Expr} {a b v : Value} {m : Machine} {ρ : Locals} {w : World}
    (h : c.Stands ((left, .value a) :: (right, .value b) :: held) s m ρ w)
    (hpure : e.isPure = (left.isPure && right.isPure)) (hvars : e.vars = left.vars ++ right.vars)
    (hgives : left.Gives c.runtime c.entry ρ w a w → right.Gives c.runtime c.entry ρ w b w → e.Gives c.runtime c.entry ρ w v w) :
    c.Stands [(e, .value v)] s m ρ w := by
  obtain ⟨hleft, hright, -⟩ := And.imp_right List.forall_mem_cons.1 (List.forall_mem_cons.1 h.held)
  cases hleft with
  | value hpure₁ hknown₁ hgives₁ =>
    cases hright with
    | value hpure₂ hknown₂ hgives₂ =>
      refine h.value ?_ (fun x hx => ?_) (hgives hgives₁ hgives₂)
      · rw [hpure, hpure₁, hpure₂]
        rfl
      · rw [hvars] at hx
        exact (List.mem_append.1 hx).elim (hknown₁ x) (hknown₂ x)

theorem sim_binary (hc : c.Supplied) (op : BinaryOp) (t : Ty) (p : String) {a b v : Value} (hv : op.apply a b = some v) :
    c.Sim (Eval.binary op t p) (c.Stands [] ⟨.value b :: .value a :: st, σ⟩) (fun _ => c.Stands [] ⟨.value v :: st, σ⟩) := by
  refine .bind (sim_popTyped_value hc t p) (fun right => .bind (sim_popTyped_value hc t p) (fun left => ?_))
  refine sim_leave (fun m ρ w hs => hs.pair rfl (Expr.vars_binary op left right) (fun hl hr => ?_))
  exact ⟨a, w, b, hl, hr, hv⟩

theorem sim_compare (hc : c.Supplied) (op : CompareOp) (p : String) {a b v : Value} (hv : op.apply a b = some v) :
    c.Sim (Eval.compare op p) (c.Stands [] ⟨.value b :: .value a :: st, σ⟩) (fun _ => c.Stands [] ⟨.value v :: st, σ⟩) := by
  refine .bind (sim_popTyped_value hc .int p) (fun right => .bind (sim_popTyped_value hc .int p) (fun left => ?_))
  refine sim_leave (fun m ρ w hs => hs.pair rfl (Expr.vars_compare op left right) (fun hl hr => ?_))
  exact ⟨a, w, b, hl, hr, hv⟩

theorem sim_equal (hc : c.Supplied) {a b v : Value} (hv : CompareOp.eq.apply a b = some v) :
    c.Sim Eval.equal (c.Stands [] ⟨.value b :: .value a :: st, σ⟩) (fun _ => c.Stands [] ⟨.value v :: st, σ⟩) := by
  refine .bind (sim_popTyped_value hc .generic "=") (fun right => .bind (sim_tyOf right) (fun t => ?_))
  refine .bind (sim_popTyped_value hc t "=") (fun left => .bind (sim_tyOf left) (fun t => ?_))
  refine .bind (sim_check right t "=") (fun right' => .given (Eval.steady_push _) (fun hright => ?_))
  obtain ⟨rfl, -⟩ := hright
  refine sim_leave (fun m ρ w hs => hs.pair rfl (Expr.vars_compare .eq left _) (fun hl hr => ?_))
  exact ⟨a, w, b, hl, hr, hv⟩

/-- Another world is met after a statement that stores nothing. -/
theorem Stands.meet {σ' : World} {m : Machine} {ρ : Locals} {w w' : World} {code : Block} (h : c.Stands held ⟨st, σ⟩ m ρ w)
    (hw : Matches c.dictionary σ' w')
    (hstate : ∀ e ∈ m.frame.stack, ∀ x ∈ e.nodes, x.isStateRead = true →
      x.worth c.runtime c.entry ρ w' = x.worth c.runtime c.entry ρ w) :
    c.Stands [] ⟨st, σ'⟩ { m with frame := { m.frame with code := code } } ρ w' := by
  have hdropped : c.Stands [] ⟨st, σ⟩ m ρ w := h.weaken (List.nil_subset _)
  have hmet : c.Stands [] ⟨st, σ'⟩ m ρ w' := by
    refine hdropped.other_world hw (fun e he => ?_)
    rcases he with he | he
    · exact hstate e he
    · cases he
  exact hmet.move rfl rfl (.refl _) .refl

/-- **Output changes nothing that an expression reads.** -/
theorem sim_callWriter (hc : c.Supplied) (p : String) {ts : List Ty} {method : String} {operands : List Value}
    (hlength : operands.length = ts.length)
    (heffect : ∀ w, c.runtime.effect (.runtime method) operands w .missing { w with output := w.output ++ [(method, operands)] }) :
    c.Sim (Eval.callWriter p ts method) (c.Stands [] ⟨operands.reverse.map .value ++ st, σ⟩)
      (fun _ => c.Stands [] ⟨st, { σ with output := σ.output ++ [(method, operands)] }⟩) := by
  refine .bind (sim_operands hc p hlength) (fun es => sim_emit (fun m ρ w h => ?_))
  obtain ⟨hgives, -, -⟩ := Denotes.all h.1 (fun q hq => h.2.held q (List.mem_append_left _ hq))
  refine ⟨ρ, _, .eval ⟨operands, w, hgives, heffect w⟩, .refl, h.2.meet ?_ (fun e _ x _ hx => ?_)⟩
  · exact ⟨h.2.world.globals, h.2.world.entryVars, congrArg (· ++ _) h.2.world.output, h.2.world.entries⟩
  · cases x with
    | global | entryVar => rfl
    | _ => cases hx

theorem sim_pushText {t : String} {v : Value} {P : Machine → Locals → World → Prop}
    (hP : ∀ m ρ w, P m ρ w → c.runtime.textOf c.entry t = some v ∧ c.Stands [] ⟨st, σ⟩ m ρ w) :
    c.Sim (Eval.pushText t) P (fun _ => c.Stands [] ⟨.value v :: st, σ⟩) :=
  sim_leave (fun m ρ w h => (hP m ρ w h).2.value rfl nofun ⟨(hP m ρ w h).1, rfl⟩)

theorem sim_duplicate (hc : c.Supplied) {i : Item} :
    c.Sim Eval.duplicate (c.Stands [] ⟨i :: st, σ⟩) (fun _ => c.Stands [] ⟨i :: i :: st, σ⟩) := by
  refine .bind (sim_pop hc .generic) (fun e => .bind (Q := fun _ => c.Stands [(e, i)] ⟨i :: st, σ⟩) ?_ (fun _ => sim_push))
  refine sim_leave (fun m ρ w hs => hs.hold (fun q hq => ?_))
  exact hs.held q (by simpa using hq)

theorem sim_swap (hc : c.Supplied) {i j : Item} :
    c.Sim Eval.swap (c.Stands [] ⟨i :: j :: st, σ⟩) (fun _ => c.Stands [] ⟨j :: i :: st, σ⟩) := by
  refine .bind (sim_pop hc .generic) (fun top => .bind (sim_pop hc .generic) (fun below => ?_))
  refine .bind (Q := fun _ => c.Stands [(below, j)] ⟨i :: st, σ⟩) ?_ (fun _ => sim_push)
  exact sim_leave (fun m ρ w hs => hs.weaken (List.Perm.swap _ _ _).subset)

end Operands
/-! ## Assignment -/

/-- **What `:=` stores and where the method stores it.** -/
theorem store?_cases {dict d : Dictionary} (hwithin : dict.Within d) {ent : Option Entry} {n : String} {target : Target} {t : Ty}
    {v : Value} {σ σ' : World} (htarget : Eval.assignable dict n = .ok (target, t))
    (hstore : StackMachine.store? d ent n v σ = some σ') :
    (∃ id, target = .global id ∧ d.globalId? n = some id ∧ σ' = σ.setGlobal n v) ∨
      ∃ e, target = .entryVar n ∧ ent = some e ∧ σ' = σ.setEntryVar e n v := by
  unfold Eval.assignable at htarget
  split at htarget
  · rename_i id hget
    cases htarget
    rw [StackMachine.store?, hwithin n _ hget, Option.ite_none_right_eq_some] at hstore
    exact .inl ⟨id, rfl, by rw [Dictionary.globalId?, hwithin n _ hget], (Option.some.inj hstore.2).symm⟩
  · rename_i id hget
    cases htarget
    rw [StackMachine.store?, hwithin n _ hget, Option.ite_none_right_eq_some] at hstore
    exact .inl ⟨id, rfl, by rw [Dictionary.globalId?, hwithin n _ hget], (Option.some.inj hstore.2).symm⟩
  · rename_i hget
    cases htarget
    rw [StackMachine.store?, hwithin n _ hget, Option.ite_none_right_eq_some, Option.map_eq_some_iff] at hstore
    obtain ⟨-, e, he, hσ⟩ := hstore
    exact .inr ⟨e, rfl, he, hσ.symm⟩
  · rename_i hget
    cases htarget
    rw [StackMachine.store?, hwithin n _ hget, Option.ite_none_right_eq_some, Option.map_eq_some_iff] at hstore
    obtain ⟨-, e, he, hσ⟩ := hstore
    exact .inr ⟨e, rfl, he, hσ.symm⟩
  · cases htarget
  · cases htarget

theorem matches_setGlobal {d : Dictionary} (hapart : d.Apart) {σ w : World} (h : Matches d σ w) {n id : String}
    (hid : d.globalId? n = some id) (v : Value) : Matches d (σ.setGlobal n v) (w.setGlobal id v) := by
  refine ⟨fun k id' hk => ?_, h.entryVars, h.output, h.entries⟩
  dsimp only [World.setGlobal]
  by_cases hn : k = n
  · rw [hn] at hk
    rw [if_pos hn, if_pos (Option.some.inj (hk.symm.trans hid))]
  · have hid' : id' ≠ id := by
      rintro rfl
      exact hn (hapart k n id' hk hid)
    rw [if_neg hn, if_neg hid']
    exact h.globals k id' hk

theorem matches_setEntryVar {d : Dictionary} {σ w : World} (h : Matches d σ w) (e : Entry) (n : String) (v : Value) :
    Matches d (σ.setEntryVar e n v) (w.setEntryVar e n v) := by
  refine ⟨h.globals, ?_, h.output, h.entries⟩
  rw [World.setEntryVar, World.setEntryVar, h.entryVars]

/-- An assignment does not change what does not read its target. -/
theorem worth_of_assign? {rt : Runtime} {ent : Option Entry} {ρ : Locals} {w w' : World} {v : Value} {target : Target} {x : Expr}
    (h : Store.assign? ⟨ρ, w⟩ ent v target = some ⟨ρ, w'⟩) (hx : x.isStateRead = true) (hread : Expr.isRead target x = false) :
    x.worth rt ent ρ w' = x.worth rt ent ρ w := by
  cases target with
  | var y =>
    obtain rfl : w = w' := congrArg Store.world (Option.some.inj h)
    rfl
  | global n =>
    cases h
    cases x with
    | global k t =>
      have hk : k ≠ n := by
        rintro rfl
        simp [Expr.isRead] at hread
      exact congrArg some (if_neg hk)
    | entryVar k t => rfl
    | _ => cases hx
  | entryVar n =>
    obtain ⟨e, he, h⟩ := Option.map_eq_some_iff.1 h
    cases h
    cases x with
    | global k t => rfl
    | entryVar k t =>
      have hk : k ≠ n := by
        rintro rfl
        simp [Expr.isRead] at hread
      rw [he]
      exact congrArg some (if_neg (fun h => hk h.2))
    | _ => cases hx

section Assignment

variable {c : Activation} {rt : Runtime} {style : Program} {rs : List Routine} {ent : Option Entry} {dict : Dictionary}
  {st : List Item} {σ σ' : World}

/-- **The world changes as the style changes it**, and nothing on the stack reads what is assigned. -/
theorem sim_assignTo (hserves : c.Serves rt style rs ent) (hwithin : dict.Within style.dictionary) (hapart : style.dictionary.Apart)
    {n name : String} {v : Value} (hstore : StackMachine.store? style.dictionary ent n v σ = some σ') {target : Target} {t : Ty}
    (htarget : Eval.assignable dict name = .ok (target, t)) {value : Expr} :
    c.Sim (Eval.emit (.assign target value))
      (fun m ρ w => (∀ e ∈ m.frame.stack, (Eval.isComposite e && e.reads target) = false) ∧
        (target = .entryVar name → c.usesEntry = true) ∧
        c.Stands [(value, .value v), (.quoted name, .procedure (.named n))] ⟨st, σ⟩ m ρ w)
      (fun _ => c.Stands [] ⟨st, σ'⟩) := by
  refine sim_emit (fun m ρ w h => ?_)
  obtain ⟨hkept, huses, hs⟩ := h
  obtain ⟨hvalue, hname, -⟩ := And.imp_right List.forall_mem_cons.1 (List.forall_mem_cons.1 hs.held)
  cases hname.eq_toExpr
  have hworld : Matches style.dictionary σ w := hserves.dictionary ▸ hs.world
  obtain ⟨w', hassign, hw'⟩ : ∃ w', Store.assign? ⟨ρ, w⟩ c.entry v target = some ⟨ρ, w'⟩ ∧ Matches style.dictionary σ' w' := by
    rcases store?_cases hwithin htarget hstore with ⟨id, rfl, hid, rfl⟩ | ⟨e, rfl, he, rfl⟩
    · exact ⟨w.setGlobal id v, rfl, matches_setGlobal hapart hworld hid v⟩
    · refine ⟨w.setEntryVar e n v, ?_, matches_setEntryVar hworld e n v⟩
      rw [Store.assign?, (hserves.entry (huses rfl)).1, he]
      rfl
  refine ⟨ρ, w', .assign hvalue.gives hassign, .refl, hs.meet (hserves.dictionary ▸ hw') (fun e he x hx hstate => ?_)⟩
  refine worth_of_assign? hassign hstate ?_
  have hcomposite : Eval.isComposite e = true := by
    cases e with
    | var | quoted | block => rw [List.mem_singleton.1 hx] at hstate; cases hstate
    | _ => rfl
  have hreads := hkept e he
  rw [hcomposite, Bool.true_and] at hreads
  exact Bool.eq_false_iff.2 (List.any_eq_false.1 hreads x hx)

theorem sim_assign (hserves : c.Serves rt style rs ent) (hwithin : dict.Within style.dictionary) (hapart : style.dictionary.Apart)
    {n : String} {v : Value} (hstore : StackMachine.store? style.dictionary ent n v σ = some σ') :
    c.Sim (Eval.assign dict) (c.Stands [] ⟨.procedure (.named n) :: .value v :: st, σ⟩) (fun _ => c.Stands [] ⟨st, σ'⟩) := by
  unfold Eval.assign
  refine .bind (sim_pop hserves.supplied .generic) (fun e => ?_)
  split
  · rename_i name
    split
    · exact .throw
    · rename_i target t htarget
      have hrest : ∀ huses : Prop, (huses → target = .entryVar name → c.usesEntry = true) → c.Sim (Eval.storeTop target t)
          (fun m ρ w => huses ∧ c.Stands [(.quoted name, .procedure (.named n))] ⟨.value v :: st, σ⟩ m ρ w)
          (fun _ => c.Stands [] ⟨st, σ'⟩) := by
        intro huses hentry
        refine .bind ((sim_popTyped_value hserves.supplied t ":=").frame huses) (fun value => ?_)
        refine .bind ((sim_spillWhere (·.reads target)).frame huses) (fun _ => ?_)
        refine (sim_assignTo hserves hwithin hapart hstore htarget).pre (fun m ρ w h => ?_)
        exact ⟨h.2.1, hentry h.1, h.2.2⟩
      dsimp only
      split
      · exact .bind sim_touchEntry (fun _ => hrest (c.usesEntry = true) (fun h _ => h))
      · rename_i hother
        exact (hrest True (fun _ h => absurd h (hother name))).pre (fun m ρ w hs => ⟨trivial, hs⟩)
  · exact .mismatch

end Assignment

/-! ## Primitives -/

section Primitives

variable {c : Activation} {rt : Runtime} {style : Program} {rs : List Routine} {ent : Option Entry} {dict : Dictionary}
  {run : Procedure → Eval Unit} {st : List Item} {σ : World}

theorem textOf_linked {t : String} {v : Value} (h : rt.text t = some v) (ent : Option Entry) :
    (rt.linked rs).textOf ent t = some v := by
  rw [Runtime.textOf, Runtime.linked, h]
  rfl

/-- A text of the entry is that of the entry of the style. -/
theorem sim_entryText (hserves : c.Serves rt style rs ent) {t : String} {v : Value}
    (h : ent.bind (fun e => rt.textOf (some e) t) = some v) :
    c.Sim (Eval.touchEntry >>= fun _ => Eval.pushText t) (c.Stands [] ⟨st, σ⟩) (fun _ => c.Stands [] ⟨.value v :: st, σ⟩) := by
  refine .bind sim_touchEntry (fun _ => sim_pushText (fun m ρ w hs => ⟨?_, hs.2⟩))
  obtain ⟨e, he, ht⟩ := Option.bind_eq_some_iff.1 h
  rw [(hserves.entry hs.1).1, hserves.runtime, he]
  exact ht

/-- **A primitive that computes leaves an expression worth what it computes.** -/
theorem sim_compute (hserves : c.Serves rt style rs ent) {p : Primitive} {operands : List Value} {v : Value}
    (h : StackMachine.compute rt ent p operands = some v) :
    c.Sim (Eval.primitive dict run p) (c.Stands [] ⟨operands.reverse.map .value ++ st, σ⟩)
      (fun _ => c.Stands [] ⟨.value v :: st, σ⟩) := by
  have hc := hserves.supplied
  unfold StackMachine.compute at h
  split at h
  · exact sim_binary hc .add .int "+" h
  · exact sim_binary hc .sub .int "-" h
  · exact sim_binary hc .concat .string "*" h
  · exact sim_compare hc .lt "<" h
  · exact sim_compare hc .gt ">" h
  · exact sim_equal hc h
  · cases h
    exact sim_leave (fun m ρ w hs => hs.value rfl nofun ⟨rfl, rfl⟩)
  · refine sim_pushText (fun m ρ w hs => ⟨?_, hs⟩)
    rw [hserves.runtime]
    exact textOf_linked h c.entry
  · exact sim_entryText hserves h
  · exact sim_entryText hserves h
  · split at h
    · rename_i method n hmethod
      rw [Option.ite_none_right_eq_some] at h
      obtain ⟨hlength, hv⟩ := h
      have hlinked : c.runtime.method (.runtime method) operands = some v := by
        rw [hserves.runtime]
        exact hv
      cases p with
      | changeCase | intToStr | purify | width =>
        cases hmethod
        exact sim_callMethod hc _ hlength hlinked
      | addPeriod | chrToInt | empty | formatName | intToChr | numNames | substring | textLength | textPrefix =>
        cases hmethod
        exact sim_callHelper hc _ hlength hlinked
      | _ => cases hmethod
    · cases h

/-- **A primitive that runs no procedure does what the style's does.** -/
theorem sim_acts (hserves : c.Serves rt style rs ent) (hwithin : dict.Within style.dictionary) (hapart : style.dictionary.Apart)
    {p : Primitive} {s s' : State} (h : StackMachine.Acts rt style.dictionary ent p s s') :
    c.Sim (Eval.primitive dict run p) (c.Stands [] s) (fun _ => c.Stands [] s') := by
  have hc := hserves.supplied
  cases h with
  | compute h => exact sim_compute hserves h
  | write h =>
    rename_i operands method st w
    have heffect : ∀ w, c.runtime.effect (.runtime method) operands w .missing
        { w with output := w.output ++ [(method, operands)] } := by
      rw [hserves.runtime]
      exact fun w => Runtime.linked_runtime
    generalize hlength : operands.length = n at h
    cases p with
    | newline | warning | write =>
      cases h
      exact sim_callWriter hc _ hlength heffect
    | _ => cases h
  | assign h => exact sim_assign hserves hwithin hapart h
  | duplicate => exact sim_duplicate hc
  | swap => exact sim_swap hc
  | pop | top =>
    exact .bind (sim_pop hc .generic) (fun e => .pure (fun m ρ w hs => hs.weaken (List.nil_subset _)))
  | skip => exact .pure (fun m ρ w hs => hs)

end Primitives

end Activation
end Bibstyle
