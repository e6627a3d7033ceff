import Bibstyle.Proofs.Bookkeeping
import Bibstyle.Proofs.Contracts
import Bibstyle.Proofs.Precedence
/-!
# Naming — what stands in a method besides literals

A method is written with names, signs, numbers and literals, and everything but the literals is the compiler's own: its
methods and globals go by words, however they are called in the style, its variables are numbered, and what it takes of the
runtime are fixed names.  Code that a run adds holds no remarks, and no procedure is left in it.  So every method of every
session is clean, whatever the session has been given.
-/
namespace Bibstyle

open Identifier (IsWord)

/-! ## Names -/

theorem Identifier.IsWord.isName {id : String} (h : IsWord id) : Piece.isName id = true := by
  obtain ⟨c, s, hid, hc, hs⟩ := h
  refine Piece.isName_iff.2 ⟨c, s, hid, ?_, fun d hd => ?_⟩
  · rcases hc with hc | rfl
    · simp [Piece.startsName, hc]
    · rfl
  · rcases hs d hd with hd | rfl
    · simp [Piece.inName, hd]
    · rfl

theorem Identifier.IsWord.numbered {id : String} (h : IsWord id) (k : Nat) : IsWord (id ++ Decimal.nat k) := by
  refine h.append (fun d hd => .inl ?_)
  simp [Char.isAlphanum, Decimal.isDigit_nat k d hd]

theorem Identifiers.Formed.isWord {t : Identifiers} (h : t.Formed) {n id : String} (hid : t.assigned.lookup n = some id) :
    IsWord id := by
  obtain rfl | ⟨k, rfl⟩ := h n id hid
  · exact Identifier.isWord_wish n
  · exact (Identifier.isWord_wish n).numbered k

/-- **Every variable of a finished scope goes by a word.** -/
theorem Scope.isWord_name (s : Scope) (v : VarId) : IsWord (s.named.name v) := by
  have hletter : ∀ c : Char, c.isAlpha = true ∨ c = '_' → IsWord (String.ofList [c]) :=
    fun c hc => ⟨c, [], String.toList_ofList, hc, List.forall_mem_nil _⟩
  unfold Scope.name
  cases hx : s.named.get? v with
  | none => exact hletter '_' (.inr rfl)
  | some x =>
    have hmem : x ∈ nameFrom s.params 0 1 s.vars.toList := by
      rw [Scope.get?, Scope.named, List.getElem?_toArray] at hx
      exact List.mem_of_getElem? hx
    rw [Option.bind_some]
    rcases name_cases _ hmem with ⟨i, d, -, hname⟩ | ⟨j, -, hname⟩
    · rw [hname]
      exact (hletter 'p' (.inl rfl)).numbered _
    · rw [hname]
      exact (hletter 'v' (.inl rfl)).numbered _

theorem isName_of_operandTypes? {f : String} {ts : List Ty} (h : operandTypes? f = some ts) : Piece.isName f = true := by
  unfold operandTypes? at h
  split at h <;> cases h <;> decide

theorem Dictionary.mem_entries {d : Dictionary} {n : String} {m : Meaning} (h : d.get? n = some m) : (n, m) ∈ d.entries := by
  obtain ⟨before, after, hentries, -⟩ := List.lookup_eq_some_iff.1 h
  rw [hentries]
  exact List.mem_append_right _ List.mem_cons_self

/-- **A dictionary whose globals and methods go by words.** -/
structure Dictionary.Worded (d : Dictionary) : Prop where
  global : ∀ id t, d.Global id t → IsWord id
  method : ∀ n sig, d.get? n = some (.routine sig) → IsWord sig.method

/-- A node that a run makes and that is a value is written with names. -/
theorem Expr.Made.isNamed {d : Dictionary} {l : Linkage} {entry : Bool} {s : Scope} {x : Expr}
    (h : x.Made d (.knowing s l entry)) (hd : d.Worded) (hs : ∀ v, IsWord (s.name v)) (hvalue : x.isValue = true) :
    x.isNamed s = true := by
  cases x with
  | var v => exact (hs v).isName
  | global id t => exact (hd.global id t h).isName
  | verbatim text t =>
    have hfixed : fixedTexts.all Piece.isName = true := by decide
    exact List.all_eq_true.1 hfixed text h.1
  | call c args t effect =>
    cases c with
    | runtime f =>
      have huntyped : untypedMethods.all Piece.isName = true := by decide
      exact h.1.elim isName_of_operandTypes? (List.all_eq_true.1 huntyped f)
    | style f =>
      obtain ⟨n, sig, rest, hn, rfl, -⟩ := h
      exact (hd.method n sig hn).isName
  | block g => cases hvalue
  | _ => rfl

/-! ## Remarks -/

namespace Stmt

mutual

/-- **The remarks in a statement**, at any depth. -/
def remarks : Stmt → List String
  | comment text => [text]
  | branch _ yes no => remarksAll yes ++ remarksAll no
  | loop setup _ body => remarksAll setup ++ remarksAll body
  | each _ body => remarksAll body
  | eval _ | declare _ _ | assign _ _ => []

def remarksAll : List Stmt → List String
  | [] => []
  | t :: ts => remarks t ++ remarksAll ts

end

theorem remarksAll_append : ∀ a b : List Stmt, remarksAll (a ++ b) = remarksAll a ++ remarksAll b
  | [], b => rfl
  | t :: a, b => by rw [List.cons_append, remarksAll, remarksAll, remarksAll_append a b, List.append_assoc]

theorem remarksAll_single (t : Stmt) : remarksAll [t] = remarks t :=
  List.append_nil _

mutual

theorem remarks_map (f : Expr → Expr) : ∀ t : Stmt, remarks (map f t) = remarks t
  | eval _ | declare _ _ | assign _ _ | comment _ => rfl
  | branch c yes no => by rw [map, remarks, remarks, remarksAll_mapAll f yes, remarksAll_mapAll f no]
  | loop setup c body => by rw [map, remarks, remarks, remarksAll_mapAll f setup, remarksAll_mapAll f body]
  | each reverse body => remarksAll_mapAll f body

theorem remarksAll_mapAll (f : Expr → Expr) : ∀ b : List Stmt, remarksAll (mapAll f b) = remarksAll b
  | [] => rfl
  | t :: ts => by rw [mapAll, remarksAll, remarksAll, remarks_map f t, remarksAll_mapAll f ts]

end

mutual

/-- Pruning adds no remark. -/
theorem remarks_prune : ∀ t : Stmt, remarksAll (prune t).block ⊆ remarks t
  | eval _ | declare _ _ | assign _ _ | comment _ => by simp [prune, Pass.keep, remarksAll_single]
  | branch c yes no => by
    have hyes := remarksAll_pruneAll yes
    have hno := remarksAll_pruneAll no
    rw [prune, remarks]
    split
    · split
      · exact List.subset_append_of_subset_left _ hyes
      · exact List.subset_append_of_subset_right _ hno
    · split
      · exact List.nil_subset _
      · rw [remarksAll_single, remarks]
        exact append_subset_append hyes hno
  | loop setup c body => by
    have hsetup := remarksAll_pruneAll setup
    have hbody := remarksAll_pruneAll body
    rw [prune, remarks]
    split
    · exact List.nil_subset _
    · rw [remarksAll_single, remarks]
      exact append_subset_append hsetup hbody
  | each reverse body => by
    rw [prune, remarksAll_single]
    exact remarksAll_pruneAll body

theorem remarksAll_pruneAll : ∀ b : List Stmt, remarksAll (pruneAll b).block ⊆ remarksAll b
  | [] => List.Subset.refl _
  | t :: ts => by
    rw [pruneAll, Pass.append, remarksAll_append, remarksAll]
    exact append_subset_append (remarks_prune t) (remarksAll_pruneAll ts)

end

theorem remarksAll_residue (e : Expr) : remarksAll (residue e) = [] := by
  unfold residue
  split <;> rfl

mutual

/-- Sweeping leaves all remarks. -/
theorem remarks_sweep (dead : VarId → Bool) : ∀ t : Stmt, remarksAll (sweep dead t).block = remarks t
  | eval _ | comment _ | assign (.global _) _ | assign (.entryVar _) _ => by simp [sweep, Pass.keep, remarksAll_single]
  | declare v none => by
    rw [sweep]
    split <;> rfl
  | declare v (some e) => by
    rw [sweep]
    split
    · exact remarksAll_residue e
    · rfl
  | assign (.var v) e => by
    rw [sweep]
    split
    · exact remarksAll_residue e
    · rfl
  | branch c yes no => by
    rw [sweep, remarksAll_single, remarks, remarks, remarksAll_sweepAll dead yes, remarksAll_sweepAll dead no]
  | loop setup c body => by
    rw [sweep, remarksAll_single, remarks, remarks, remarksAll_sweepAll dead setup, remarksAll_sweepAll dead body]
  | each reverse body => by
    rw [sweep, remarksAll_single]
    exact remarksAll_sweepAll dead body

theorem remarksAll_sweepAll (dead : VarId → Bool) : ∀ b : List Stmt, remarksAll (sweepAll dead b).block = remarksAll b
  | [] => rfl
  | t :: ts => by
    rw [sweepAll, Pass.append, remarksAll_append, remarks_sweep dead t, remarksAll_sweepAll dead ts, remarksAll]

end

end Stmt

/-- **Reducing a method adds no remark.** -/
theorem Routine.remarks_reduce (r : Routine) : Stmt.remarksAll r.reduce.body ⊆ Stmt.remarksAll r.body := by
  have hround : ∀ s result (b : Block), Stmt.remarksAll (Block.round s result b).block ⊆ Stmt.remarksAll b := by
    intro s result b
    rw [Block.round, Stmt.remarksAll_sweepAll]
    exact Stmt.remarksAll_pruneAll b
  have hfold := Stmt.remarksAll_mapAll Expr.fold r.body
  exact Block.settle_keeps (P := fun b => Stmt.remarksAll b ⊆ Stmt.remarksAll r.body)
    (fun b h => List.Subset.trans (hround _ _ b) h) (hfold ▸ List.Subset.refl _)

/-- **Code without remarks** is a kind of code that runs add. -/
def Block.unremarked : Block.Kind 0 where
  Is b := Stmt.remarksAll b = []
  nil := rfl
  append ha hb := by rw [Stmt.remarksAll_append, ha, hb]; rfl
  eval _ := rfl
  declare _ _ := rfl
  assign _ _ := rfl
  branch _ ha hb := by rw [Stmt.remarksAll_single, Stmt.remarks, ha, hb]; rfl
  loop _ ha hb := by rw [Stmt.remarksAll_single, Stmt.remarks, ha, hb]; rfl

/-! ## Code -/

/-- **An act that holds nothing of a style but in literals**: its expression is written with names, and a global that it
assigns to goes by a word. -/
structure Act.Clean (s : Scope) (a : Act) : Prop where
  expr : ∀ e, a.expr? = some e → ∀ x ∈ e.nodes, x.isNamed s = true
  target : ∀ n e, a = .assign (.global n) e → IsWord n

theorem Act.Made.clean {d : Dictionary} {l : Linkage} {entry : Bool} {s : Scope} {a : Act}
    (h : a.Made d (.knowing s l entry)) (hd : d.Worded) (hs : ∀ v, IsWord (s.name v)) (hconfined : a.Confined) : a.Clean s where
  expr e he x hx := (h.nodes e he x hx).isNamed hd hs (hconfined.values e he x hx)
  target n e heq := by
    rw [heq] at h
    exact hd.global n _ h.fits

/-- **Code that holds nothing of a style but in literals**: its acts are clean, and its remarks are names. -/
structure Block.Clean (s : Scope) (b : Block) : Prop where
  acts : ∀ q ∈ Stmt.actsAll false b, q.2.Clean s
  remarks : ∀ t ∈ Stmt.remarksAll b, Piece.isName t = true

theorem Block.Clean.append {s : Scope} {b b' : Block} (h : Block.Clean s b) (h' : Block.Clean s b') : Block.Clean s (b ++ b') where
  acts := by
    rw [Stmt.actsAll_append]
    exact List.forall_mem_append.2 ⟨h.acts, h'.acts⟩
  remarks := by
    rw [Stmt.remarksAll_append]
    exact List.forall_mem_append.2 ⟨h.remarks, h'.remarks⟩

/-- **A method that holds nothing of a style but in literals**: it goes by a word, as do its variables, its code is clean,
and its value is written with names. -/
structure Routine.Clean (r : Routine) : Prop where
  method : IsWord r.method
  vars : ∀ v, IsWord (r.scope.name v)
  body : Block.Clean r.scope r.body
  result : ∀ e, r.result = some e → ∀ x ∈ e.nodes, x.isNamed r.scope = true

theorem Routine.clean_of_made {d : Dictionary} {l : Linkage} {r : Routine} (hd : d.Worded) (hmethod : IsWord r.method)
    (hvars : ∀ v, IsWord (r.scope.name v)) (hmade : r.Made d l) (hproper : r.Proper)
    (hremarks : Stmt.remarksAll r.body = []) : r.Clean where
  method := hmethod
  vars := hvars
  body := ⟨fun q hq => (hmade.body q hq).clean hd hvars (hproper.confined.body q hq), hremarks ▸ List.forall_mem_nil _⟩
  result e he x hx := (hmade.result e he x hx).isNamed hd hvars (hproper.confined.result e he x hx).1

namespace Eval

variable {d : Dictionary} {depth : Nat} {vars : Variables} {linkage : Linkage} {log : Array Event} {m : Machine}

/-- A run that has begun with nothing has left no remarks. -/
theorem Adds.unremarked {x : Eval Unit} (h : Adds Block.unremarked x (fun _ => True)) (hx : x (.start linkage log) = .ok () m) :
    Stmt.remarksAll m.frame.code = [] := by
  obtain ⟨new, hcode, hnew⟩ := (h.ok (Nat.zero_le _) hx).2.added
  rw [hcode]
  exact hnew

/-- **A compiled method is clean**, and so is what its reduction leaves. -/
theorem routine_clean (hd : d.Worded) {function method : String} (hmethod : IsWord method) {body : Group} {r : Routine}
    (h : routine d depth function method body (.ready vars linkage log) = .ok r m) : r.Clean ∧ r.reduce.Clean := by
  have hproper := routine_proper h
  have hmakes := makes_routine (d := d) depth function method body linkage vars log
  rw [h] at hmakes
  obtain ⟨-, -, hmade⟩ := hmakes
  obtain ⟨m', value, hterms, -, rfl, -⟩ := routine_ok h
  have hremarks := (adds_terms (adds_procedure d depth) body.terms).unremarked hterms
  have hvars := fun v => m'.scope.isWord_name v
  refine ⟨Routine.clean_of_made hd hmethod hvars hmade hproper hremarks, ?_⟩
  refine Routine.clean_of_made hd hmethod hvars hmade.reduce hproper.reduce ?_
  exact List.subset_nil.1 (hremarks ▸ Routine.remarks_reduce _)

theorem remarksAll_performs (mode : RunMode) (b : Block) : Stmt.remarksAll (performs mode b) = Stmt.remarksAll b := by
  cases mode with
  | execute => rfl
  | iterate | reverse => exact Stmt.remarksAll_single _

/-- **The code of a command that runs a function is clean.** -/
theorem command_clean (hd : d.Worded) {mode : RunMode} {f : String} {code : Block}
    (h : command d depth mode f (.ready vars linkage log) = .ok code m) : Block.Clean .empty code := by
  have hproper := command_proper h
  have hmakes := makes_command (d := d) depth mode f linkage vars log
  rw [h] at hmakes
  obtain ⟨-, hmade⟩ := hmakes
  obtain ⟨hname, -, rfl⟩ := command_ok h
  have hvars : ∀ v, IsWord (Scope.empty.name v) := fun v => Scope.empty.isWord_name v
  refine ⟨fun q hq => (hmade q hq).clean hd hvars (hproper q hq).confined, ?_⟩
  have hremarks := (adds_name (adds_procedure d depth) f).unremarked hname
  rw [remarksAll_performs, hremarks]
  exact List.forall_mem_nil _

end Eval

/-! ## Sessions -/

namespace Session

/-- A session whose names are words and whose code is clean. -/
structure Tidy (s : Session) : Prop extends s.Kept where
  formed : s.identifiers.Formed
  routines : ∀ r ∈ s.routines, r.Clean
  run : Block.Clean .empty s.run

namespace Tidy

variable {s : Session}

theorem isWord (h : s.Tidy) : ∀ id ∈ s.given, IsWord id := by
  intro id hid
  obtain ⟨n, hn, -⟩ := h.named id hid
  exact h.formed.isWord hn

/-- **What the dictionary of a session names goes by words.** -/
theorem worded (h : s.Tidy) : s.dictionary.Worded where
  global id t hglobal := by
    obtain ⟨n, m, hn, hm⟩ := hglobal
    have hmem : (id, t) ∈ s.globals := by
      rw [← h.globals]
      exact List.mem_filterMap.2 ⟨(n, m), Dictionary.mem_entries hn, hm⟩
    exact h.isWord id (List.mem_append_left _ (List.mem_map_of_mem hmem))
  method n sig hn := by
    have hmem : (n, sig) ∈ s.routines.map (fun r => (r.name, r.signature)) := by
      rw [← h.functions]
      exact List.mem_filterMap.2 ⟨(n, .routine sig), Dictionary.mem_entries hn, rfl⟩
    obtain ⟨r, hr, heq⟩ := List.mem_map.1 hmem
    obtain ⟨-, rfl⟩ := Prod.mk.inj heq
    exact (h.routines r hr).method

theorem clean_of_compiles (h : s.Tidy) {r : Routine} (hid : s.identifiers.assigned.lookup r.name = some r.method)
    (hr : s.Compiles r) : r.Clean := by
  obtain ⟨method, body, vars, linkage, log, compiled, m, hrun, hfrom⟩ := hr
  have hmethod : compiled.method = method := by
    obtain ⟨m', value, -, -, rfl, -⟩ := Eval.routine_ok hrun
    rfl
  -- the method has the identifier of the function, before the reduction and after it
  have hword : IsWord method := by
    rw [← hmethod]
    obtain rfl | rfl := hfrom <;> exact h.formed.isWord hid
  have hclean := Eval.routine_clean h.worded hword hrun
  obtain rfl | rfl := hfrom
  · exact hclean.1
  · exact hclean.2

theorem clean_of_runs (h : s.Tidy) {code : Block} (hcode : s.Runs code) : Block.Clean .empty code := by
  rcases hcode with rfl | rfl | ⟨mode, n, vars, linkage, log, m, hrun⟩
  · exact ⟨List.forall_mem_nil _, List.forall_mem_singleton.2 (by decide)⟩
  · refine ⟨List.forall_mem_singleton.2 ⟨?_, fun n e heq => by cases heq⟩, List.forall_mem_nil _⟩
    rintro e ⟨⟩
    exact List.forall_mem_singleton.2 (by decide)
  · exact Eval.command_clean h.worded hrun

theorem change {s' : Session} (hchange : s.Change s') (h : s.Tidy) : s'.Tidy := by
  have hkept := h.toKept.change hchange
  cases hchange with
  | note | declare => exact { hkept with formed := h.formed, routines := h.routines, run := h.run }
  | assign n | @global n => exact { hkept with formed := h.formed.assign n, routines := h.routines, run := h.run }
  | define hn hid hr =>
    have hall := List.forall_mem_append.2 ⟨h.routines, List.forall_mem_singleton.2 (h.clean_of_compiles hid hr)⟩
    exact { hkept with formed := h.formed, routines := hall, run := h.run }
  | run hcode => exact { hkept with formed := h.formed, routines := h.routines, run := h.run.append (h.clean_of_runs hcode) }

end Tidy

/-- **Every session is tidy**, whatever it has been given and whatever failed of it. -/
theorem afterAll_tidy (sourceName : String) (o : Options) (inputs : List Input) : (afterAll inputs (new sourceName o)).Tidy := by
  have hempty : Block.Clean .empty [] := ⟨List.forall_mem_nil _, List.forall_mem_nil _⟩
  have hnew : (new sourceName o).Tidy :=
    { kept_new sourceName o with formed := (fun n id h => by cases h), routines := List.forall_mem_nil _, run := hempty }
  refine (Took.takeAll inputs .start).keeps (fun hchange h => h.change hchange) (fun known h => ?_) hnew
  exact { h with }

end Session
end Bibstyle
