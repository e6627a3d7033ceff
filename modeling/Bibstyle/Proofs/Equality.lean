import Bibstyle.Proofs.Bodies
import Bibstyle.Proofs.Footprint
import Bibstyle.Proofs.Meeting
/-!
# Equality — what `=` compares

An operand of unknown type takes the type of the other one, so two values that `=` compares have one type, and what becomes
known later cannot change that.  Only where both are unknown is there no type to take: they must be variables then, and
nothing ties them together.  Each may get a type of its own later, in whatever part of the body.
-/
namespace Bibstyle

/-! ## What a check learns -/

namespace Scope

theorem ty_refine_generic (s : Scope) (v x : VarId) : (s.refine v .generic).ty x = s.ty x := by
  rw [ty_eq_map, ty_eq_map]
  simp only [get?, refine, Array.getElem?_modify]
  split
  · cases s.vars[x]? with
    | none => rfl
    | some y =>
      by_cases hy : y.ty = .generic <;> simp [hy]
  · rfl

/-- A parameter of unknown type is as good as none. -/
theorem ty_param_generic (s : Scope) (depth : Nat) (x : VarId) : (s.param depth .generic).2.ty x = s.ty x := by
  unfold param
  split
  · rfl
  · rw [ty_eq_map, ty_eq_map]
    simp only [get?, push, Array.getElem?_push]
    split
    · rename_i hx
      simp [hx]
    · rfl

end Scope

/-- What lies on a stack is a variable of the scope, or says its type. -/
theorem Expr.Lies.definite {c : Custom} {s : Scope} {e : Expr} (h : e.Lies c s.vars.size) : e.Definite s := by
  have hknown : e.isValue = true → (∀ v, e ≠ .var v) → e.ty s ≠ .generic := by
    intro hvalue hvar hty
    obtain ⟨v, rfl⟩ := h.known s hvalue hty
    exact hvar v rfl
  cases e with
  | var v =>
    have hv : v < s.vars.size := h.nodes (.var v) List.mem_cons_self
    simp [Definite, Scope.origin?, Scope.get?, hv]
  | entry => exact hknown rfl (fun v hv => by cases hv) rfl
  | global | entryVar | call | verbatim => exact hknown rfl (fun v hv => by cases hv)
  | int | str | quoted | field | binary | compare | block => trivial

namespace Eval

/-- **A value has been found to be of a type**, and the machine knows more only if the type was a known one. -/
structure Finds (e : Expr) (t : Ty) (m m' : Machine) : Prop where
  taken : e.Taken .any m'.scope.vars.size
  proper : m'.Proper .any
  sharpens : m.scope.Sharpens m'.scope
  has : e.Has m'.scope t
  same : t = .generic → ∀ v, m'.scope.ty v = m.scope.ty v

theorem check_finds {e a : Expr} {t : Ty} {p : String} {m m' : Machine} (hm : m.Proper .any)
    (he : e.Lies .any m.scope.vars.size) (h : check e t p m = .ok a m') : a = e ∧ Finds e t m m' := by
  have hproper := proper_check Custom.lawful_any he t p m (Nat.le_refl _) hm
  rw [h] at hproper
  obtain ⟨-, hm', htaken⟩ := hproper
  unfold check at h
  obtain ⟨found, m₁, hty, hrest⟩ := bind_ok.1 h
  obtain ⟨rfl, rfl⟩ := tyOf_ok.1 hty
  split at hrest
  · exact absurd hrest (by rintro ⟨⟩)
  rename_i hgood
  obtain ⟨hvalue, hfits⟩ : e.isValue = true ∧ (e.ty m₁.scope).fits t = true := by simpa using hgood
  have hcases : e.ty m₁.scope = t ∨ e.ty m₁.scope = .generic ∨ t = .generic := by
    simpa [Ty.fits, or_assoc] using hfits
  split at hrest
  · rename_i v
    obtain ⟨_, m₂, hrefine, hreturn⟩ := bind_ok.1 hrest
    cases hrefine
    obtain ⟨rfl, rfl⟩ := pure_ok.1 hreturn
    refine ⟨rfl, htaken, hm', m₁.scope.sharpens_refine v t, fun ht => ?_, fun ht x => ?_⟩
    · exact Scope.ty_refine he.definite (hcases.imp_right (fun h => h.resolve_right ht))
    · rw [ht]
      exact m₁.scope.ty_refine_generic v x
  · rename_i hvar
    obtain ⟨rfl, rfl⟩ := pure_ok.1 hrest
    refine ⟨rfl, htaken, hm', .refl _, fun ht => ?_, fun _ _ => rfl⟩
    have hknown := he.definite.ty_ne hvalue (fun v hv => hvar v hv)
    exact hcases.resolve_right (fun h => h.elim hknown ht)

theorem popTyped_finds {e : Expr} {t : Ty} {p : String} {m m' : Machine} (hm : m.Proper .any)
    (h : popTyped t p m = .ok e m') : Finds e t m m' := by
  obtain ⟨a, m₁, hpop, hcheck⟩ := bind_ok.1 h
  have hproper := proper_popAs (c := .any) t m (Nat.le_refl _) hm
  rw [hpop] at hproper
  obtain ⟨-, hm₁, hlies⟩ := hproper
  obtain ⟨rfl, hfinds⟩ := check_finds hm₁ hlies hcheck
  refine { hfinds with sharpens := (builds_popAs ordinary_any t).sharpens hpop |>.trans hfinds.sharpens, same := ?_ }
  rintro rfl v
  rw [hfinds.same rfl]
  cases hstack : m.frame.stack with
  | nil =>
    rw [popAs_nil hstack] at hpop
    cases hpop
    exact m.scope.ty_param_generic _ v
  | cons e rest =>
    rw [popAs_cons hstack] at hpop
    cases hpop
    rfl

end Eval

/-! ## What is compared -/

/-- **Two expressions have one known type**, or are variables of unknown type. -/
def Expr.Alike (s : Scope) (l r : Expr) : Prop :=
  (l.ty s = r.ty s ∧ l.ty s ≠ .generic) ∨ ∃ x y, l = .var x ∧ r = .var y ∧ s.ty x = .generic ∧ s.ty y = .generic

namespace Eval

/-- **`=` finds one type for its operands**, unless it knows the type of neither. -/
theorem equal_alike {m m' : Machine} (hm : m.Proper .any) (h : equal m = .ok () m') :
    ∃ l r rest, m'.frame.stack = .compare .eq l r :: rest ∧ l.Alike m'.scope r := by
  rw [equal_eq] at h
  obtain ⟨⟨left, right⟩, m₄, hequands, hpush⟩ := bind_ok.1 h
  cases hpush
  refine ⟨left, right, _, rfl, ?_⟩
  show left.Alike m₄.scope right
  obtain ⟨right', m₁, hright, hequands⟩ := bind_ok.1 hequands
  obtain ⟨t, m₂, hty, hequands⟩ := bind_ok.1 hequands
  obtain ⟨rfl, rfl⟩ := tyOf_ok.1 hty
  obtain ⟨left', m₃, hleft, hequands⟩ := bind_ok.1 hequands
  obtain ⟨t', m₅, hty', hequands⟩ := bind_ok.1 hequands
  obtain ⟨rfl, rfl⟩ := tyOf_ok.1 hty'
  obtain ⟨right'', m₆, hagain, hreturn⟩ := bind_ok.1 hequands
  obtain ⟨hpair, rfl⟩ := pure_ok.1 hreturn
  have hr := popTyped_finds hm hright
  have hl := popTyped_finds hr.proper hleft
  have hlies := hr.taken.lies.mono (Scope.Grows.size_le hl.sharpens.grows)
  obtain ⟨rfl, hagain⟩ := check_finds hl.proper hlies hagain
  cases hpair
  by_cases hunknown : left.ty m₅.scope = .generic
  · -- a known type of the right operand would be that of the left one too
    have hright : right.ty m₂.scope = .generic :=
      Classical.byContradiction (fun hne => hne ((hl.has hne).symm.trans hunknown))
    obtain ⟨y, rfl⟩ := hr.taken.lies.known _ hr.taken.value hright
    obtain ⟨x, rfl⟩ := hl.taken.lies.known _ hl.taken.value hunknown
    exact .inr ⟨x, y, rfl, rfl, (hagain.same hunknown x).trans hunknown,
      (hagain.same hunknown y).trans ((hl.same hright y).trans hright)⟩
  · have hleft : left.ty m₄.scope = left.ty m₅.scope := Expr.ty_of_sharpens hagain.sharpens rfl hunknown
    have hright : right.ty m₄.scope = left.ty m₅.scope := hagain.has hunknown
    exact .inl ⟨hleft.trans hright.symm, hleft ▸ hunknown⟩

end Eval

/-! ## Finished methods -/

/-- **All expressions in a method**, each with all below it. -/
def Routine.nodes (r : Routine) : List Expr :=
  ((Stmt.actsAll false r.body).filterMap (·.2.expr?) ++ r.result.toList).flatMap Expr.nodes

theorem Routine.forall_nodes {N : Expr → Prop} {r : Routine} :
    (∀ x ∈ r.nodes, N x) ↔ Block.All N r.body ∧ ∀ e, r.result = some e → e.All N := by
  simp only [nodes, List.mem_flatMap, List.mem_append, List.mem_filterMap, Option.mem_toList, Block.All, Expr.All]
  constructor
  · intro h
    exact ⟨fun q hq e he x hx => h x ⟨e, .inl ⟨q, hq, he⟩, hx⟩, fun e he x hx => h x ⟨e, .inr he, hx⟩⟩
  · rintro ⟨hbody, hresult⟩ x ⟨e, ⟨q, hq, he⟩ | he, hx⟩
    · exact hbody q hq e he x hx
    · exact hresult e he x hx

/-- **What computing constants keeps of nodes, the reduction keeps.** -/
theorem Routine.nodes_reduce {N : Expr → Prop} (hN : Expr.Stable N) {r : Routine} (h : ∀ x ∈ r.nodes, N x) :
    ∀ x ∈ r.reduce.nodes, N x := by
  have hstable : Act.Stable (fun _ a => ∀ e, a.expr? = some e → e.All N) := by
    refine ⟨fun _ a h e he => ?_, fun _ a b hleaves h e he => h e (hleaves.expr?_eq ▸ he)⟩
    rw [Act.expr?_map, Option.map_eq_some_iff] at he
    obtain ⟨e', he', rfl⟩ := he
    exact hN.fold (h e' he')
  rw [forall_nodes] at h ⊢
  refine ⟨hstable.reduce h.1, fun e he => ?_⟩
  obtain ⟨e', he', rfl⟩ := Option.map_eq_some_iff.1 he
  exact hN.fold (h.2 e' he')

namespace Eval

/-- **Two variables were compared in a run while nothing was known of their types.** -/
def MetUnknown (d : Dictionary) (depth : Nat) (body : Group) (m : Machine) (a b : Expr) : Prop :=
  ∃ x y m₁ m₂ rest, a = .var x ∧ b = .var y ∧ Meets d (depth + 1) (.group body) m .eq m₁ ∧ equal m₁ = .ok () m₂ ∧
    m₂.frame.stack = .compare .eq a b :: rest ∧ m₂.scope.ty x = .generic ∧ m₂.scope.ty y = .generic

theorem MetUnknown.fold {d : Dictionary} {depth : Nat} {body : Group} {m : Machine} {a b : Expr}
    (h : MetUnknown d depth body m a b) : MetUnknown d depth body m (Expr.fold a) (Expr.fold b) := by
  obtain ⟨x, y, m₁, m₂, rest, rfl, rfl, hrest⟩ := h
  exact ⟨x, y, m₁, m₂, rest, rfl, rfl, hrest⟩

/-- A test of equality has sides of one known type, or ones that are excepted. -/
def Equated (s : Scope) (excepted : Expr → Expr → Prop) (x : Expr) : Prop :=
  ∀ a b, x = .compare .eq a b → (a.ty s = b.ty s ∧ a.ty s ≠ .generic) ∨ excepted a b

theorem ordinary_equated (s : Scope) (excepted : Expr → Expr → Prop) : Ordinary (Equated s excepted) := by
  rintro x hx - a b rfl
  cases hx

theorem stable_equated {s : Scope} {excepted : Expr → Expr → Prop}
    (h : ∀ a b, excepted a b → excepted (Expr.fold a) (Expr.fold b)) : Expr.Stable (Equated s excepted) where
  int _ _ _ heq := by cases heq
  str _ _ _ heq := by cases heq
  call _ _ _ _ _ _ _ heq := by cases heq
  binary _ _ _ _ _ _ heq := by cases heq
  compare op l r hlr a b heq := by
    cases heq
    rw [Expr.ty_fold, Expr.ty_fold]
    exact (hlr l r rfl).imp_right (h l r)
  join _ _ _ _ _ _ heq := by cases heq

/-- **What `=` finds when it is come to, the finished method keeps.** -/
theorem equates_terms {d : Dictionary} {depth : Nat} {body : Group} {linkage : Linkage} {log : Array Event} {m : Machine}
    (h : procedure d (depth + 1) (.group body) (.start linkage log) = .ok () m) :
    Equates (Equated m.scope (MetUnknown d depth body (.start linkage log))) d (depth + 1) (.group body)
      (.start linkage log) := by
  intro m₁ m₂ hmeets hequal x hx a b hab
  obtain ⟨fs, hpasses⟩ := hmeets.passes
  have hproper : m₁.Proper .any := hpasses.frames_proper _ List.mem_cons_self
  obtain ⟨k, m₃, hends, hsharp⟩ := hmeets.ends h
  obtain ⟨-, rfl⟩ := ok_unique hequal hends
  obtain ⟨l, r, rest, hstack, halike⟩ := equal_alike hproper hequal
  rw [hstack, List.head?_cons, Option.mem_some_iff] at hx
  cases hx.trans hab
  obtain ⟨hsame, hknown⟩ | ⟨y, z, rfl, rfl, hy, hz⟩ := halike
  · have hl := Expr.ty_of_sharpens hsharp rfl hknown
    have hr := Expr.ty_of_sharpens hsharp rfl (hsame ▸ hknown)
    exact .inl ⟨hl.trans (hsame.trans hr.symm), hl ▸ hknown⟩
  · exact .inr ⟨y, z, m₁, m₂, rest, rfl, rfl, hmeets, hequal, hstack, hy, hz⟩

/-- **What `=` compares has one type**, in a finished method and in its reduction: whatever becomes known of types, in the
same part of the body or in any other, both sides of a test of equality have the same known type.  The exception is two
variables that were compared while neither had a type. -/
theorem equations_typed {d : Dictionary} {depth : Nat} {function method : String} {body : Group} {vars : Variables}
    {linkage : Linkage} {log : Array Event} {r : Routine} {m : Machine}
    (h : routine d depth function method body (.ready vars linkage log) = .ok r m) :
    ∀ q, q = r ∨ q = r.reduce → ∀ a b, .compare .eq a b ∈ q.nodes →
      (a.ty q.scope = b.ty q.scope ∧ a.ty q.scope ≠ .generic) ∨ MetUnknown d depth body (.start linkage log) a b := by
  obtain ⟨m', value, hterms, hresult, rfl, -⟩ := routine_ok h
  have hframe := procedure_builds (ordinary_equated _ _) (fun x hx => by rintro a b rfl; cases hx) (depth + 1) (.group body) _ m'
    ⟨List.forall_mem_nil _, .nil⟩ (equates_terms hterms) hterms
  -- naming the variables changes no type
  have hnamed : ∀ e : Expr, e.ty m'.scope.named = e.ty m'.scope := by
    intro e
    cases e with
    | var v => exact m'.scope.ty_named v
    | binary op => cases op <;> rfl
    | _ => rfl
  have hall : ∀ x ∈ Routine.nodes ⟨function, method, m'.scope.named.params, m'.usesEntry, m'.frame.code, value, m'.scope.named⟩,
      Equated m'.scope (MetUnknown d depth body (.start linkage log)) x :=
    Routine.forall_nodes.2 ⟨hframe.code, fun e he => hframe.stack e (result_mem hresult e he)⟩
  rintro q hq a b hab
  have hscope : q.scope = m'.scope.named := by
    rcases hq with rfl | rfl <;> rfl
  rw [hscope, hnamed, hnamed]
  rcases hq with rfl | rfl
  · exact hall _ hab a b rfl
  · have hstable : Expr.Stable (Equated m'.scope (MetUnknown d depth body (.start linkage log))) :=
      stable_equated (fun _ _ hmet => hmet.fold)
    exact Routine.nodes_reduce hstable hall _ hab a b rfl

/-- Measures a value unless it is empty. -/
def measureFilled : Group where
  terms :=
    let place : Span := ⟨"", 1, 1, 1, 1⟩
    [.name "duplicate$" place, .string "" place, .name "=" place,
     .block [.name "pop$" place, .integer 0 place] place, .block [.name "text.length$" place] place, .name "if$" place]
  span := ⟨"", 1, 1, 1, 1⟩

/-- The value takes its type from what it is compared with, before it is measured. -/
theorem equations_typed_measureFilled :
    ∃ r m, routine .initial 1 "measure" "measure" measureFilled (.start .empty #[]) = .ok r m ∧
      .compare .eq (.var 0) (.str "") ∈ r.reduce.nodes ∧ r.reduce.scope.ty 0 = .string := by
  have hchecked : (EStateM.run' (routine .initial 1 "measure" "measure" measureFilled) (.start .empty #[])).any
      (fun r => r.reduce.nodes.contains (.compare .eq (.var 0) (.str ""))) = true := by decide +kernel
  obtain ⟨r, m, h, hnode⟩ := exists_value_of_check hchecked
  have hnode := List.contains_iff_mem.1 hnode
  refine ⟨r, m, h, hnode, ?_⟩
  obtain ⟨hsame, -⟩ | ⟨x, y, _, _, _, -, hy, -⟩ := equations_typed h r.reduce (.inr rfl) _ _ hnode
  · exact hsame
  · cases hy

/-- Compares two values in one side of a branch; in the other, one of them is added to and the other is joined to a text. -/
def compareUnknown : Group where
  terms :=
    let place : Span := ⟨"", 1, 1, 1, 1⟩
    [.integer 1 place, .block [.name "=" place] place,
     .block [.integer 1 place, .name "+" place, .name "swap$" place, .string "a" place, .name "*" place,
       .name "pop$" place] place, .name "if$" place]
  span := ⟨"", 1, 1, 1, 1⟩

/-- **A test of equality between a string and an integer** is what becomes of two values that nothing is known of. -/
theorem equation_of_string_and_integer :
    ∃ r m, routine .initial 1 "f" "f" compareUnknown (.start .empty #[]) = .ok r m ∧
      .compare .eq (.var 1) (.var 0) ∈ r.reduce.nodes ∧ r.reduce.scope.ty 1 = .string ∧ r.reduce.scope.ty 0 = .int := by
  have hchecked : (EStateM.run' (routine .initial 1 "f" "f" compareUnknown) (.start .empty #[])).any
      (fun r => r.reduce.nodes.contains (.compare .eq (.var 1) (.var 0)) &&
        decide (r.reduce.scope.ty 1 = .string ∧ r.reduce.scope.ty 0 = .int)) = true := by decide +kernel
  obtain ⟨r, m, h, hfound⟩ := exists_value_of_check hchecked
  rw [Bool.and_eq_true] at hfound
  exact ⟨r, m, h, List.contains_iff_mem.1 hfound.1, of_decide_eq_true hfound.2⟩

end Eval
end Bibstyle
