import Mathlib.Data.List.Forall2
import Bibstyle.Proofs.Acts
import Bibstyle.Proofs.Typing
/-!
# Knowledge — what a machine knows, and what it makes of it

Each node of each expression that a run makes is as it was meant to be: its operands have the types it needs, what it reads
has been declared, the helper it calls is linked, and the entry it reads has been touched.  All of this is known when the
node is made, from what the machine knows then, and a machine that knows more later knows it still: a scope only grows, a
type that is known stays, a helper once linked is linked, and an entry once touched is touched.

A type that is not known yet may become known after an expression was built around it.  So a node asks for no more than
what has been checked.  Only variables have unknown types, because whatever else lies on the stack says its type itself.
-/
namespace Bibstyle

/-! ## What a machine knows -/

namespace Scope

/-- **Types that become known**: the second scope has grown from the first, and known types are as they were. -/
structure Sharpens (s s' : Scope) : Prop where
  grows : s.Grows s'
  ty : ∀ v, s.ty v ≠ .generic → s'.ty v = s.ty v

theorem Sharpens.refl (s : Scope) : s.Sharpens s :=
  ⟨.refl s, fun _ _ => rfl⟩

theorem Sharpens.trans {s₁ s₂ s₃ : Scope} (h : s₁.Sharpens s₂) (h' : s₂.Sharpens s₃) : s₁.Sharpens s₃ := by
  refine ⟨h.grows.trans h'.grows, fun v hv => ?_⟩
  have hsame := h.ty v hv
  rw [← hsame] at hv ⊢
  exact h'.ty v hv

theorem sharpens_push (s : Scope) (o : Origin) (t : Ty) : s.Sharpens (s.push o t) := by
  refine ⟨s.grows_push o t, fun v hv => ?_⟩
  rw [ty_eq_map, ty_eq_map]
  simp only [get?, push, Array.getElem?_push]
  split
  · rename_i hsize
    exfalso
    apply hv
    rw [ty_eq_map, hsize]
    simp [get?]
  · rfl

theorem sharpens_param (s : Scope) (depth : Nat) (t : Ty) : s.Sharpens (s.param depth t).2 := by
  unfold param
  split
  · exact .refl s
  · exact s.sharpens_push _ t

theorem ty_refine_cases (s : Scope) (v : VarId) (t : Ty) (x : VarId) :
    (s.refine v t).ty x = s.ty x ∨ s.ty x = .generic := by
  rw [ty_eq_map, ty_eq_map]
  simp only [get?, refine, Array.getElem?_modify]
  split
  · cases s.vars[x]? with
    | none => exact .inl rfl
    | some y =>
      by_cases hy : y.ty = .generic
      · exact .inr hy
      · simp [hy]
  · exact .inl rfl

theorem sharpens_refine (s : Scope) (v : VarId) (t : Ty) : s.Sharpens (s.refine v t) :=
  ⟨.of_eq (s.origin?_refine v t), fun x hx => (s.ty_refine_cases v t x).resolve_right hx⟩

/-- A variable gets the type it is found to have. -/
theorem ty_refine {s : Scope} {v : VarId} {t : Ty} (hv : s.origin? v ≠ none) (ht : s.ty v = t ∨ s.ty v = .generic) :
    (s.refine v t).ty v = t := by
  rw [ty_eq_map] at ht ⊢
  simp only [origin?, get?, refine, Array.getElem?_modify, if_true] at hv ht ⊢
  cases hx : s.vars[v]? with
  | none => simp [hx] at hv
  | some y =>
    simp only [hx, Option.map_some, Option.getD_some] at ht ⊢
    split
    · rfl
    · rename_i hy
      exact ht.resolve_right hy

theorem ty_named (s : Scope) (v : VarId) : s.named.ty v = s.ty v := by
  rw [ty_eq_map, ty_eq_map]
  congr 1
  simpa [get?, named] using ty_nameFrom s.params 0 1 s.vars.toList v

theorem sharpens_named (s : Scope) : s.Sharpens s.named :=
  ⟨.of_eq s.origin?_named, fun v _ => s.ty_named v⟩

end Scope

theorem Expr.ty_of_sharpens {s s' : Scope} (h : s.Sharpens s') {e : Expr} {t : Ty} (he : e.ty s = t) (ht : t ≠ .generic) :
    e.ty s' = t := by
  cases e with
  | var v => exact (h.ty v (by rw [← he] at ht; exact ht)).trans he
  | binary op => cases op <;> exact he
  | _ => exact he

namespace Helper

theorem named?_name (h : Helper) : named? h.name = some h := by
  cases h <;> decide

theorem eq_of_name_eq {h h' : Helper} (heq : h.name = h'.name) : h = h' := by
  have hnamed := h.named?_name
  rw [heq, h'.named?_name] at hnamed
  exact (Option.some.inj hnamed).symm

/-- No helper has a name that is not a helper's. -/
theorem name_ne {f : String} (hf : named? f = none) (h : Helper) : h.name ≠ f := by
  rintro rfl
  rw [h.named?_name] at hf
  cases hf

end Helper

namespace Linkage

/-- The imports of every helper are there. -/
def Supplied (l : Linkage) : Prop :=
  ∀ h ∈ l.helpers, ∀ i ∈ h.imports, i ∈ l.imports

/-- **More is linked**, and helpers have their imports if they had them. -/
structure Within (l l' : Linkage) : Prop where
  helpers : ∀ h ∈ l.helpers, h ∈ l'.helpers
  imports : ∀ i ∈ l.imports, i ∈ l'.imports
  supplied : l.Supplied → l'.Supplied

theorem Within.refl (l : Linkage) : l.Within l :=
  ⟨fun _ h => h, fun _ h => h, id⟩

theorem Within.trans {l₁ l₂ l₃ : Linkage} (h : l₁.Within l₂) (h' : l₂.Within l₃) : l₁.Within l₃ :=
  ⟨fun x hx => h'.helpers x (h.helpers x hx), fun i hi => h'.imports i (h.imports i hi), fun hs => h'.supplied (h.supplied hs)⟩

theorem mem_insertOrdered {i t : String} : ∀ {us : List String}, i ∈ insertOrdered t us ↔ i = t ∨ i ∈ us
  | [] => by simp [insertOrdered]
  | u :: us => by
    unfold insertOrdered
    split
    · simp
    · split
      · rename_i heq
        simp [heq]
      · simp only [List.mem_cons, mem_insertOrdered]
        exact or_left_comm

theorem foldl_addImport (is : List String) : ∀ l : Linkage, (is.foldl addImport l).helpers = l.helpers ∧
    ∀ i, i ∈ (is.foldl addImport l).imports ↔ i ∈ is ∨ i ∈ l.imports := by
  induction is with
  | nil => exact fun l => ⟨rfl, fun i => by simp⟩
  | cons t is ih =>
    intro l
    obtain ⟨hhelpers, himports⟩ := ih (l.addImport t)
    refine ⟨hhelpers, fun i => ?_⟩
    rw [List.foldl_cons, himports, List.mem_cons, addImport, mem_insertOrdered]
    exact or_left_comm.trans or_assoc.symm

theorem within_add (l : Linkage) (h : Helper) : l.Within (l.add h) := by
  unfold add
  split
  · exact .refl l
  · obtain ⟨hhelpers, himports⟩ := foldl_addImport h.imports { l with helpers := l.helpers ++ [h] }
    refine ⟨fun x hx => ?_, fun i hi => (himports i).2 (.inr hi), fun hs x hx i hi => ?_⟩
    · rw [hhelpers]
      exact List.mem_append_left _ hx
    · rw [hhelpers, List.mem_append, List.mem_singleton] at hx
      rw [himports]
      rcases hx with hx | rfl
      · exact .inr (hs x hx i hi)
      · exact .inl hi

theorem mem_add (l : Linkage) (h : Helper) : h ∈ (l.add h).helpers := by
  unfold add
  split
  · rename_i hhas
    exact List.contains_iff_mem.1 hhas
  · rw [(foldl_addImport _ _).1]
    exact List.mem_append_right _ List.mem_cons_self

end Linkage

/-- **A machine that knows at least as much.** -/
structure Machine.Precedes (m m' : Machine) : Prop where
  scope : m.scope.Sharpens m'.scope
  linkage : m.linkage.Within m'.linkage
  entry : m.usesEntry = true → m'.usesEntry = true

theorem Machine.Precedes.refl (m : Machine) : m.Precedes m :=
  ⟨.refl _, .refl _, id⟩

theorem Machine.Precedes.trans {m₁ m₂ m₃ : Machine} (h : m₁.Precedes m₂) (h' : m₂.Precedes m₃) : m₁.Precedes m₃ :=
  ⟨h.scope.trans h'.scope, h.linkage.trans h'.linkage, fun he => h'.entry (h.entry he)⟩

/-! ## What is made -/

def BinaryOp.operandTy : BinaryOp → Ty
  | .add | .sub => .int
  | .concat => .string

/-- **The types of what a primitive takes off the stack** for a method of the runtime. -/
def operandTypes? : String → Option (List Ty)
  | "bibWriter.println" => some []
  | "addPeriod" | "bibProcessor.purify" | "bibProcessor.warning" | "bibProcessor.width" | "bibWriter.print" | "chrToInt"
  | "isEmpty" | "numNames" | "textLength" => some [.string]
  | "Integer.toString" | "intToChr" => some [.int]
  | "bibProcessor.changeCase" => some [.string, .string]
  | "textPrefix" => some [.string, .int]
  | "formatName" => some [.string, .int, .string]
  | "substring" => some [.string, .int, .int]
  | _ => none

/-- **The methods of the runtime whose arguments have no fixed types**: `missing$` takes any value, and the others are not
handed what lay on the stack. -/
def untypedMethods : List String :=
  ["isMissing", "entry.isMissing", "callType"]

/-- What a method is handed before its arguments. -/
def Signature.handed (s : Signature) : List Expr :=
  if s.usesEntry then [.entry] else []

/-- The identifier and the type of a global. -/
def Meaning.global? : Meaning → Option (String × Ty)
  | globalInteger id => some (id, .int)
  | globalString id => some (id, .string)
  | _ => none

/-- The type of a variable of the entry. -/
def Meaning.entryTy? : Meaning → Option Ty
  | entryInteger => some .int
  | entryString => some .string
  | _ => none

namespace Dictionary

/-- A global of a type goes by an identifier. -/
def Global (d : Dictionary) (id : String) (t : Ty) : Prop :=
  ∃ n m, d.get? n = some m ∧ m.global? = some (id, t)

/-- A name is a variable of the entry, of a type. -/
def EntryVar (d : Dictionary) (n : String) (t : Ty) : Prop :=
  ∃ m, d.get? n = some m ∧ m.entryTy? = some t

theorem Global.ne_generic {d : Dictionary} {id : String} {t : Ty} (h : d.Global id t) : t ≠ .generic := by
  obtain ⟨n, m, -, hm⟩ := h
  cases m <;> cases hm <;> decide

theorem EntryVar.ne_generic {d : Dictionary} {n : String} {t : Ty} (h : d.EntryVar n t) : t ≠ .generic := by
  obtain ⟨m, -, hm⟩ := h
  cases m <;> cases hm <;> decide

end Dictionary

/-- The texts that are read of the entry. -/
def entryTexts : List String :=
  ["entry.key", "entry.type"]

/-- **The texts that are written as they are.** -/
def fixedTexts : List String :=
  entryTexts ++ ["bibDB.preamble"]

namespace Expr

/-- An expression has a type, if that is to be a known one. -/
def Has (s : Scope) (t : Ty) (e : Expr) : Prop :=
  t ≠ .generic → e.ty s = t

theorem Has.mono {s s' : Scope} {t : Ty} {e : Expr} (h : e.Has s t) (hs : s.Sharpens s') : e.Has s' t :=
  fun ht => ty_of_sharpens hs (h ht) ht

/-- **A node as a run makes it**, looked at without what is below it. -/
def Made (d : Dictionary) (m : Machine) : Expr → Prop
  | int _ | str _ | quoted _ | block _ | var _ => True
  | global id t => d.Global id t
  | field _ | entryVar _ _ | entry => m.usesEntry = true
  | verbatim text _ => text ∈ fixedTexts ∧ (text ∈ entryTexts → m.usesEntry = true)
  | binary op l r => l.ty m.scope = op.operandTy ∧ r.ty m.scope = op.operandTy
  | compare op l r => op ≠ .eq → l.ty m.scope = .int ∧ r.ty m.scope = .int
  | call (.runtime f) args _ _ =>
    (operandTypes? f = some (args.map (·.ty m.scope)) ∨ f ∈ untypedMethods) ∧
      (∀ h : Helper, h.name = f → h ∈ m.linkage.helpers) ∧ (f = "entry.isMissing" → m.usesEntry = true)
  | call (.style f) args _ _ =>
    ∃ n sig rest, d.get? n = some (.routine sig) ∧ sig.method = f ∧ args = sig.handed ++ rest ∧
      List.Forall₂ (fun t e => e ≠ .entry ∧ e.Has m.scope t) sig.params rest

/-- **An expression as it may lie on the stack**: a variable is in the scope, and anything else has a known type. -/
def Definite (s : Scope) : Expr → Prop
  | var v => s.origin? v ≠ none
  | entry => False
  | global _ t | entryVar _ t | call _ _ t _ | verbatim _ t => t ≠ .generic
  | int _ | str _ | quoted _ | field _ | binary _ _ _ | compare _ _ _ | block _ => True

/-- **What a run puts on the stack.** -/
structure Stacked (d : Dictionary) (m : Machine) (e : Expr) : Prop where
  definite : e.Definite m.scope
  nodes : ∀ x ∈ e.nodes, x.Made d m

/-- What is taken off the stack where a type is wanted. -/
structure Suits (d : Dictionary) (m : Machine) (t : Ty) (e : Expr) : Prop where
  stacked : e.Stacked d m
  has : e.Has m.scope t

end Expr

/-- **An act as a run writes it.** -/
structure Act.Made (d : Dictionary) (m : Machine) (a : Act) : Prop where
  nodes : ∀ e, a.expr? = some e → ∀ x ∈ e.nodes, x.Made d m
  fits : match a with
    | .test c => c.ty m.scope = .int
    | .assign (.global id) e => d.Global id (e.ty m.scope)
    | .assign (.entryVar n) e => d.EntryVar n (e.ty m.scope) ∧ m.usesEntry = true
    | _ => True

/-- Statements all of whose acts are so. -/
def Block.Made (d : Dictionary) (m : Machine) (b : Block) : Prop :=
  ∀ q ∈ Stmt.actsAll false b, q.2.Made d m

/-- **A machine between two steps.** -/
structure Machine.Made (d : Dictionary) (m : Machine) : Prop where
  stack : ∀ e ∈ m.frame.stack, e.Stacked d m
  code : Block.Made d m m.frame.code

theorem operandTypes?_known {f : String} {ts : List Ty} (h : operandTypes? f = some ts) : ∀ t ∈ ts, t ≠ .generic := by
  unfold operandTypes? at h
  split at h <;> cases h <;> decide

section Later

variable {d : Dictionary} {m m' : Machine}

theorem Expr.Made.later {x : Expr} (h : x.Made d m) (hm : m.Precedes m') : x.Made d m' := by
  cases x with
  | int | str | quoted | block | var => trivial
  | global => exact h
  | field | entryVar | entry => exact hm.entry h
  | verbatim => exact ⟨h.1, fun ht => hm.entry (h.2 ht)⟩
  | binary op l r =>
    have hop : op.operandTy ≠ .generic := by cases op <;> decide
    exact ⟨ty_of_sharpens hm.scope h.1 hop, ty_of_sharpens hm.scope h.2 hop⟩
  | compare op l r =>
    intro hop
    exact ⟨ty_of_sharpens hm.scope (h hop).1 (by decide), ty_of_sharpens hm.scope (h hop).2 (by decide)⟩
  | call c args t effect =>
    cases c with
    | runtime f =>
      obtain ⟨hoperands, hhelpers, hentry⟩ := h
      refine ⟨hoperands.imp_left (fun hf => ?_), fun x hx => hm.linkage.helpers x (hhelpers x hx), fun he => hm.entry (hentry he)⟩
      rw [hf]
      -- the table asks for known types only, so every operand keeps the one it was found to have
      have hknown : ∀ t ∈ args.map (·.ty m.scope), t ≠ .generic := operandTypes?_known hf
      congr 1
      refine List.map_congr_left (fun e he => ?_)
      exact (ty_of_sharpens hm.scope rfl (hknown _ (List.mem_map_of_mem he))).symm
    | style f =>
      obtain ⟨n, sig, rest, hn, hf, hargs, hrest⟩ := h
      exact ⟨n, sig, rest, hn, hf, hargs, hrest.imp (fun _ _ he => ⟨he.1, he.2.mono hm.scope⟩)⟩

theorem Expr.Stacked.later {e : Expr} (h : e.Stacked d m) (hm : m.Precedes m') : e.Stacked d m' := by
  refine ⟨?_, fun x hx => (h.nodes x hx).later hm⟩
  have hdefinite := h.definite
  cases e with
  | var v => exact fun hnone => hdefinite (hm.scope.grows.eq_none hnone)
  | _ => exact hdefinite

theorem Expr.Suits.later {t : Ty} {e : Expr} (h : e.Suits d m t) (hm : m.Precedes m') : e.Suits d m' t :=
  ⟨h.stacked.later hm, h.has.mono hm.scope⟩

theorem Act.Made.later {a : Act} (h : a.Made d m) (hm : m.Precedes m') : a.Made d m' := by
  refine ⟨fun e he x hx => (h.nodes e he x hx).later hm, ?_⟩
  have hfits := h.fits
  cases a with
  | eval | declare => trivial
  | test c => exact Expr.ty_of_sharpens hm.scope hfits (by decide)
  | assign target e =>
    cases target with
    | var => trivial
    | global id =>
      have hsame := Expr.ty_of_sharpens (e := e) hm.scope rfl hfits.ne_generic
      change d.Global id (e.ty m'.scope)
      rw [hsame]
      exact hfits
    | entryVar n =>
      have hsame := Expr.ty_of_sharpens (e := e) hm.scope rfl hfits.1.ne_generic
      change d.EntryVar n (e.ty m'.scope) ∧ _
      rw [hsame]
      exact ⟨hfits.1, hm.entry hfits.2⟩

theorem Block.Made.later {b : Block} (h : Block.Made d m b) (hm : m.Precedes m') : Block.Made d m' b :=
  fun q hq => (h q hq).later hm

theorem Machine.precedes_frame (m : Machine) (f : Frame) : m.Precedes { m with frame := f } :=
  ⟨.refl _, .refl _, id⟩

theorem Machine.Made.later (hm : m.Precedes m') (hframe : m'.frame = m.frame) (h : m.Made d) : m'.Made d := by
  refine ⟨?_, ?_⟩
  · rw [hframe]
    exact fun e he => (h.stack e he).later hm
  · rw [hframe]
    exact h.code.later hm

theorem Machine.Made.framed {f : Frame} (hstack : ∀ e ∈ f.stack, e.Stacked d m) (hcode : Block.Made d m f.code) :
    Machine.Made d { m with frame := f } :=
  ⟨fun e he => (hstack e he).later (m.precedes_frame f), hcode.later (m.precedes_frame f)⟩

end Later

section Parts

variable {d : Dictionary} {m : Machine}

theorem Block.Made.nil : Block.Made d m [] :=
  nofun

theorem Block.Made.append {a b : Block} (ha : Block.Made d m a) (hb : Block.Made d m b) : Block.Made d m (a ++ b) := by
  intro q hq
  rw [Stmt.actsAll_append] at hq
  exact (List.mem_append.1 hq).elim (ha q) (hb q)

theorem Block.Made.single {t : Stmt} (h : ∀ q ∈ t.acts false, q.2.Made d m) : Block.Made d m [t] := by
  intro q hq
  rw [Stmt.actsAll_single] at hq
  exact h q hq

theorem Block.Made.eval {e : Expr} (h : ∀ x ∈ e.nodes, x.Made d m) : Block.Made d m [.eval e] :=
  .single (List.forall_mem_singleton.2 ⟨fun x hx => by cases hx; exact h, trivial⟩)

theorem Block.Made.declare {v : VarId} {e : Expr} (h : ∀ x ∈ e.nodes, x.Made d m) : Block.Made d m [.declare v (some e)] :=
  .single (List.forall_mem_singleton.2 ⟨fun x hx => by cases hx; exact h, trivial⟩)

theorem Block.Made.bare (v : VarId) : Block.Made d m [.declare v none] :=
  .single (List.forall_mem_singleton.2 ⟨nofun, trivial⟩)

theorem Block.Made.store {v : VarId} {e : Expr} (h : ∀ x ∈ e.nodes, x.Made d m) : Block.Made d m [.assign (.var v) e] :=
  .single (List.forall_mem_singleton.2 ⟨fun x hx => by cases hx; exact h, trivial⟩)

/-- A tested value is an integer; branches and loops do nothing else themselves. -/
theorem Act.made_test {c : Expr} (h : c.Suits d m .int) : Act.Made d m (.test c) :=
  ⟨fun x hx => by cases hx; exact h.stacked.nodes, h.has (by decide)⟩

theorem Block.Made.branch {c : Expr} {yes no : Block} (hc : c.Suits d m .int) (hyes : Block.Made d m yes)
    (hno : Block.Made d m no) : Block.Made d m [.branch c yes no] :=
  .single (List.forall_mem_cons.2 ⟨Act.made_test hc, List.forall_mem_append.2 ⟨hyes, hno⟩⟩)

theorem Block.Made.loop {c : Expr} {setup body : Block} (hsetup : Block.Made d m setup) (hc : c.Suits d m .int)
    (hbody : Block.Made d m body) : Block.Made d m [.loop setup c body] :=
  .single (List.forall_mem_cons.2 ⟨Act.made_test hc, List.forall_mem_append.2 ⟨hsetup, hbody⟩⟩)

theorem Act.made_global {id : String} {t : Ty} {e : Expr} (hid : d.Global id t) (he : e.Suits d m t) :
    Act.Made d m (.assign (.global id) e) := by
  refine ⟨fun x hx => by cases hx; exact he.stacked.nodes, ?_⟩
  change d.Global id (e.ty m.scope)
  rw [he.has hid.ne_generic]
  exact hid

theorem Act.made_entryVar {n : String} {t : Ty} {e : Expr} (hn : d.EntryVar n t) (hentry : m.usesEntry = true)
    (he : e.Suits d m t) : Act.Made d m (.assign (.entryVar n) e) := by
  refine ⟨fun x hx => by cases hx; exact he.stacked.nodes, ?_⟩
  change d.EntryVar n (e.ty m.scope) ∧ _
  rw [he.has hn.ne_generic]
  exact ⟨hn, hentry⟩

theorem Expr.Stacked.leaf {e : Expr} (hleaf : e.nodes = [e]) (hdefinite : e.Definite m.scope) (hmade : e.Made d m) :
    e.Stacked d m := by
  refine ⟨hdefinite, ?_⟩
  rw [hleaf]
  exact List.forall_mem_singleton.2 hmade

theorem Expr.stacked_var {v : VarId} (h : m.scope.origin? v ≠ none) : (Expr.var v).Stacked d m :=
  .leaf rfl h trivial

theorem Expr.Stacked.ne_entry {e : Expr} (h : e.Stacked d m) : e ≠ .entry := by
  rintro rfl
  exact h.definite

/-- **Only a variable is of unknown type.** -/
theorem Expr.Definite.ty_ne {s : Scope} {e : Expr} (h : e.Definite s) (hvalue : e.isValue = true) (hvar : ∀ v, e ≠ .var v) :
    e.ty s ≠ .generic := by
  cases e with
  | var v => exact absurd rfl (hvar v)
  | quoted | block => cases hvalue
  | entry => exact h.elim
  | global | entryVar | call | verbatim => exact h
  | binary op => cases op <;> exact nofun
  | int | str | field | compare => exact nofun

end Parts

/-! ## What the reduction keeps -/

namespace Expr

theorem fold_ne_entry {e : Expr} (h : e ≠ .entry) : fold e ≠ .entry := by
  -- the entry has no known type, and what is computed has one
  have htyped : e.ty .empty ≠ .generic → fold e ≠ .entry := by
    intro hty hentry
    rw [← ty_fold, hentry] at hty
    exact hty rfl
  cases e with
  | binary op => exact htyped (by cases op <;> exact nofun)
  | compare => exact htyped nofun
  | entry => exact absurd rfl h
  | _ => exact nofun

theorem Has.fold {s : Scope} {t : Ty} {e : Expr} (h : e.Has s t) : (Expr.fold e).Has s t :=
  fun ht => (ty_fold s e).trans (h ht)

theorem stable_made (d : Dictionary) (m : Machine) : Stable (Made d m) where
  int _ := trivial
  str _ := trivial
  call c args t effect h := by
    cases c with
    | runtime f =>
      obtain ⟨hoperands, hrest⟩ := h
      refine ⟨hoperands.imp_left (fun hf => ?_), hrest⟩
      rw [hf, foldAll_eq_map, List.map_map]
      congr 1
      exact List.map_congr_left (fun e _ => (ty_fold m.scope e).symm)
    | style f =>
      obtain ⟨n, sig, rest, hn, hf, hargs, hrest⟩ := h
      refine ⟨n, sig, rest.map Expr.fold, hn, hf, ?_, ?_⟩
      · have hhanded : sig.handed.map Expr.fold = sig.handed := by
          unfold Signature.handed
          split <;> rfl
        rw [foldAll_eq_map, hargs, List.map_append, hhanded]
      · rw [List.forall₂_map_right_iff]
        exact hrest.imp (fun _ _ he => ⟨fold_ne_entry he.1, he.2.fold⟩)
  binary op l r h := ⟨(ty_fold m.scope l).trans h.1, (ty_fold m.scope r).trans h.2⟩
  compare op l r h hop := ⟨(ty_fold m.scope l).trans (h hop).1, (ty_fold m.scope r).trans (h hop).2⟩
  join e a b h := ⟨h.1, rfl⟩

end Expr

theorem Act.stable_made (d : Dictionary) (m : Machine) : Act.Stable (fun _ a => a.Made d m) where
  fold _ a h := by
    refine ⟨fun e he => ?_, ?_⟩
    · rw [Act.expr?_map, Option.map_eq_some_iff] at he
      obtain ⟨e', he', rfl⟩ := he
      exact (Expr.stable_made d m).fold (h.nodes e' he')
    · have hfits := h.fits
      cases a with
      | eval | declare => trivial
      | test c => exact (Expr.ty_fold m.scope c).trans hfits
      | assign target e =>
        have hty := Expr.ty_fold m.scope e
        cases target with
        | var => trivial
        | global id =>
          change d.Global id ((Expr.fold e).ty m.scope)
          rw [hty]
          exact hfits
        | entryVar n =>
          change d.EntryVar n ((Expr.fold e).ty m.scope) ∧ _
          rw [hty]
          exact hfits
  leaves _ a b hleaves h := by
    refine ⟨fun e he => h.nodes e (hleaves.expr?_eq ▸ he), ?_⟩
    cases hleaves with
    | all => exact h.fits
    | declared | assigned => trivial

/-! ## Methods and commands -/

/-- What is known of finished code: its variables, what is linked, and whether there is an entry. -/
def Machine.knowing (s : Scope) (l : Linkage) (entry : Bool) : Machine :=
  ⟨.of s, .empty, l, entry, #[]⟩

/-- **A method as it is made.** -/
structure Routine.Made (d : Dictionary) (l : Linkage) (r : Routine) : Prop where
  body : Block.Made d (.knowing r.scope l r.usesEntry) r.body
  result : ∀ e, r.result = some e → ∀ x ∈ e.nodes, x.Made d (.knowing r.scope l r.usesEntry)

theorem Routine.Made.reduce {d : Dictionary} {l : Linkage} {r : Routine} (h : r.Made d l) : r.reduce.Made d l where
  body := (Act.stable_made d _).reduce h.body
  result e he := by
    obtain ⟨e', he', rfl⟩ := Option.map_eq_some_iff.1 he
    exact (Expr.stable_made d _).fold (h.result e' he')

end Bibstyle
