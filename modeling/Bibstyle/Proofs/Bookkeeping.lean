import Bibstyle.Proofs.Assignment
import Bibstyle.Proofs.Changes
/-!
# Bookkeeping — the tables of a session agree

A session keeps the same facts in several places: a function is a name of the dictionary, a method, perhaps a handler, and an
identifier; a global is a name, a variable of the script, and an identifier.  Whatever a session has been given, and whatever
failed of it, these places agree.  A function that cannot be compiled, or a command that cannot be run, is seen in none of
them.
-/
namespace Bibstyle
namespace Session

/-- The identifiers that stand for a global or a method. -/
def given (s : Session) : List String :=
  s.globals.map (·.1) ++ s.routines.map (·.method)

/-- **The tables of a session agree.** -/
structure Consistent (s : Session) : Prop where
  /-- The functions of the dictionary are the methods, in order. -/
  functions : s.dictionary.entries.filterMap (fun q => q.2.signature?.map (q.1, ·)) =
    s.routines.map (fun r => (r.name, r.signature))
  /-- The globals of the dictionary are those of the script, in order. -/
  globals : s.dictionary.entries.filterMap (·.2.global?) = s.globals
  /-- A function handles an entry type if it needs the entry and nothing else. -/
  handlers : ∀ n id, (n, id) ∈ s.handlers ↔
    ∃ r ∈ s.routines, r.name = n ∧ r.method = id ∧ r.returnType = .void ∧ r.usesEntry = true ∧ r.params = []
  handled : (s.handlers.map (·.1)).Nodup
  /-- No two globals or methods share an identifier. -/
  distinct : s.given.Nodup
  apart : ∀ id ∈ s.given, id ≠ s.options.className ∧ ∀ h : Helper, id ≠ h.name

/-- **One session knows no more than another**: all tables are the same. -/
structure SameTables (s s' : Session) : Prop where
  dictionary : s'.dictionary = s.dictionary
  routines : s'.routines = s.routines
  globals : s'.globals = s.globals
  handlers : s'.handlers = s.handlers
  abbreviations : s'.abbreviations = s.abbreviations
  run : s'.run = s.run

/-! ## Handlers -/

theorem isHandler_iff (r : Routine) :
    r.signature.isHandler = true ↔ r.returnType = .void ∧ r.usesEntry = true ∧ r.params = [] := by
  simp [Signature.isHandler, Routine.signature, and_assoc]

theorem insertByName_perm {n id : String} : ∀ {hs : List (String × String)}, n ∉ hs.map (·.1) →
    (insertByName n id hs).Perm ((n, id) :: hs)
  | [], _ => .refl _
  | p :: ps, hn => by
    rw [List.map_cons, List.mem_cons, not_or] at hn
    unfold insertByName
    by_cases hlt : n < p.1
    · rw [if_pos hlt]
    · rw [if_neg hlt, if_neg hn.1]
      exact ((insertByName_perm hn.2).cons p).trans (.swap _ _ _)

/-! ## What every change keeps -/

/-- Tables that agree, and the identifiers behind them. -/
structure Kept (s : Session) : Prop extends s.Consistent where
  identifiers : s.identifiers.Apart
  named : ∀ id ∈ s.given, ∃ n, s.identifiers.assigned.lookup n = some id ∧ s.dictionary.get? n ≠ none
  barred : ∀ w, (w = s.options.className ∨ ∃ h : Helper, h.name = w) → ∀ n, s.identifiers.Barred w n

namespace Kept

variable {s : Session}

theorem get?_name (h : s.Kept) {r : Routine} (hr : r ∈ s.routines) : s.dictionary.get? r.name ≠ none := by
  have hmem : (r.name, r.signature) ∈ s.routines.map (fun r => (r.name, r.signature)) := List.mem_map_of_mem hr
  rw [← h.functions] at hmem
  obtain ⟨q, hq, hsig⟩ := List.mem_filterMap.1 hmem
  obtain ⟨sig, -, heq⟩ := Option.map_eq_some_iff.1 hsig
  intro hnone
  have hne := List.lookup_eq_none_iff.1 hnone q hq
  rw [(Prod.mk.inj heq).1, bne_self_eq_false] at hne
  cases hne

/-- The identifier of a name that means nothing yet stands for nothing. -/
theorem fresh (h : s.Kept) {n id : String} (hn : s.dictionary.get? n = none)
    (hid : s.identifiers.assigned.lookup n = some id) :
    id ∉ s.given ∧ id ≠ s.options.className ∧ ∀ x : Helper, id ≠ x.name := by
  refine ⟨fun hmem => ?_, fun hclass => ?_, fun x hx => ?_⟩
  · obtain ⟨k, hk, hknown⟩ := h.named id hmem
    rw [h.identifiers.unique k n id hk hid] at hknown
    exact hknown hn
  · subst hclass
    exact (h.barred _ (.inl rfl) n).other hid
  · subst hx
    exact (h.barred _ (.inr ⟨x, rfl⟩) n).other hid

theorem assign (h : s.Kept) (n : String) : Kept { s with identifiers := (s.identifiers.assign n).2 } :=
  { h with
    identifiers := h.identifiers.assign n
    named := fun id hmem => by
      obtain ⟨k, hk, hknown⟩ := h.named id hmem
      exact ⟨k, Identifiers.lookup_assign_old n hk, hknown⟩
    barred := fun w hw k => (h.barred w hw k).assign n }

theorem extend {d : Dictionary} {n k : String} {m : Meaning} (hn : d.get? n = none) (hk : d.get? k ≠ none) :
    (d.extend n m).get? k ≠ none := by
  obtain ⟨found, hfound⟩ := Option.ne_none_iff_exists'.1 hk
  rw [Dictionary.within_extend hn m k found hfound]
  exact Option.some_ne_none found

theorem declare (h : s.Kept) {n : String} {m : Meaning} (hn : s.dictionary.get? n = none) (hroutine : m.signature? = none)
    (hglobal : m.global? = none) : Kept { s with dictionary := s.dictionary.extend n m } :=
  { h with
    functions := by simp [Dictionary.extend, hroutine, h.functions]
    globals := by simp [Dictionary.extend, hglobal, h.globals]
    named := fun id hmem => by
      obtain ⟨k, hk, hknown⟩ := h.named id hmem
      exact ⟨k, hk, extend hn hknown⟩ }

theorem addGlobal (h : s.Kept) {n id : String} {m : Meaning} {t : Ty} (hn : s.dictionary.get? n = none)
    (hid : s.identifiers.assigned.lookup n = some id) (hm : m.global? = some (id, t)) :
    Kept { s with globals := s.globals ++ [(id, t)], dictionary := s.dictionary.extend n m } := by
  have hroutine : m.signature? = none := by cases m <;> cases hm <;> rfl
  obtain ⟨hnew, hclass, hhelper⟩ := h.fresh hn hid
  have hgiven : ∀ x, x ∈ given { s with globals := s.globals ++ [(id, t)], dictionary := s.dictionary.extend n m } ↔
      x ∈ s.given ∨ x = id := by
    intro x
    simp only [given, List.map_append, List.map_cons, List.map_nil, List.mem_append, List.mem_singleton]
    tauto
  refine { h with functions := ?_, globals := ?_, distinct := ?_, apart := fun x hx => ?_, named := fun x hx => ?_ }
  · simp [Dictionary.extend, hroutine, h.functions]
  · simp [Dictionary.extend, hm, h.globals]
  · have hdistinct := h.distinct
    simp only [given, List.map_append, List.map_cons, List.map_nil, List.append_assoc, List.singleton_append] at hdistinct ⊢
    exact List.nodup_middle.2 (List.nodup_cons.2 ⟨hnew, hdistinct⟩)
  · rcases (hgiven x).1 hx with hx | rfl
    · exact h.apart x hx
    · exact ⟨hclass, hhelper⟩
  · rcases (hgiven x).1 hx with hx | rfl
    · obtain ⟨k, hk, hknown⟩ := h.named x hx
      exact ⟨k, hk, extend hn hknown⟩
    · exact ⟨n, hid, by simp [Dictionary.get?_extend hn]⟩

theorem define (h : s.Kept) {r : Routine} (hn : s.dictionary.get? r.name = none)
    (hid : s.identifiers.assigned.lookup r.name = some r.method) : Kept (Step.defined r s) := by
  obtain ⟨hnew, hclass, hhelper⟩ := h.fresh hn hid
  have hunhandled : r.name ∉ s.handlers.map (·.1) := by
    intro hmem
    obtain ⟨⟨n, id⟩, hp, hname⟩ := List.mem_map.1 hmem
    obtain ⟨r', hr', rfl, -⟩ := (h.handlers n id).1 hp
    rw [← show r'.name = r.name from hname] at hn
    exact h.get?_name hr' hn
  have hgiven : (Step.defined r s).given = s.given ++ [r.method] := by
    simp [given, Step.defined]
  refine { h with functions := ?_, globals := ?_, handlers := fun n id => ?_, handled := ?_, distinct := ?_,
                  apart := fun x hx => ?_, named := fun x hx => ?_ }
  · have hsignature : (Meaning.routine r.signature).signature? = some r.signature := rfl
    simp [Step.defined, Dictionary.extend, hsignature, h.functions]
  · have hglobal : (Meaning.routine r.signature).global? = none := rfl
    simp [Step.defined, Dictionary.extend, hglobal, h.globals]
  · have hmem := h.handlers n id
    have hsame : (∃ r' ∈ s.routines ++ [r], r'.name = n ∧ r'.method = id ∧ r'.returnType = .void ∧ r'.usesEntry = true ∧
        r'.params = []) ↔ (n, id) ∈ s.handlers ∨ (r.name = n ∧ r.method = id) ∧ r.signature.isHandler = true := by
      rw [hmem, isHandler_iff]
      simp only [List.mem_append, List.mem_singleton, or_and_right, exists_or, exists_eq_left, and_assoc]
    refine Iff.trans ?_ hsame.symm
    dsimp only [Step.defined]
    by_cases hhandler : r.signature.isHandler = true
    · rw [if_pos hhandler, (insertByName_perm hunhandled).mem_iff, List.mem_cons, Prod.mk.injEq]
      simp only [hhandler, and_true]
      exact ⟨fun h => h.elim (fun h => .inr ⟨h.1.symm, h.2.symm⟩) .inl,
        fun h => h.elim .inr (fun h => .inl ⟨h.1.symm, h.2.symm⟩)⟩
    · rw [if_neg hhandler]
      simp [hhandler]
  · dsimp only [Step.defined]
    split
    · rw [((insertByName_perm hunhandled).map _).nodup_iff, List.map_cons, List.nodup_cons]
      exact ⟨hunhandled, h.handled⟩
    · exact h.handled
  · rw [hgiven, List.nodup_append_comm]
    exact List.nodup_cons.2 ⟨hnew, h.distinct⟩
  · rw [hgiven, List.mem_append, List.mem_singleton] at hx
    rcases hx with hx | rfl
    · exact h.apart x hx
    · exact ⟨hclass, hhelper⟩
  · rw [hgiven, List.mem_append, List.mem_singleton] at hx
    rcases hx with hx | rfl
    · obtain ⟨k, hk, hknown⟩ := h.named x hx
      exact ⟨k, hk, extend hn hknown⟩
    · exact ⟨r.name, hid, by simp [Step.defined, Dictionary.get?_extend hn]⟩

theorem change {s' : Session} (hchange : s.Change s') (h : s.Kept) : s'.Kept := by
  cases hchange with
  | note | run => exact { h with }
  | assign n => exact h.assign n
  | declare hn hroutine hglobal => exact h.declare hn hroutine hglobal
  | @global n m t hn hm => exact (h.assign n).addGlobal hn (s.identifiers.lookup_assign n) hm
  | define hn hid => exact h.define hn hid

end Kept

theorem kept_new (sourceName : String) (o : Options) : (new sourceName o).Kept := by
  have hassigned : ∀ n, (new sourceName o).identifiers.assigned.lookup n = none := fun _ => rfl
  have htaken : (new sourceName o).identifiers.taken = (Helper.all.map Helper.name).reverse ++ [o.className] := rfl
  have hfunctions : Dictionary.initial.entries.filterMap (fun q => q.2.signature?.map (q.1, ·)) = [] := by decide
  have hglobals : Dictionary.initial.entries.filterMap (·.2.global?) = [] := by decide
  refine ⟨⟨hfunctions, hglobals, fun n id => ⟨nofun, nofun⟩, .nil, .nil, nofun⟩, ⟨nofun, nofun⟩, nofun,
    fun w hw n => ⟨?_, ?_⟩⟩
  · rw [htaken, List.mem_append, List.mem_reverse, List.mem_singleton]
    rcases hw with rfl | ⟨h, rfl⟩
    · exact .inr rfl
    · exact .inl (List.mem_map_of_mem (by cases h <;> decide))
  · rw [hassigned n]
    exact Option.some_ne_none w |>.symm

/-! ## Abbreviations -/

theorem lookup_pair_cons (k n value : String) (known : List (String × String)) :
    ((n, value) :: known).lookup k = if k = n then some value else known.lookup k := by
  rw [List.lookup_cons]
  by_cases hk : k = n
  · rw [if_pos hk, beq_iff_eq.2 hk]
  · rw [if_neg hk, beq_eq_false_iff_ne.2 hk]

theorem lookup_replaceOrAppend (n value k : String) (known : List (String × String)) :
    (replaceOrAppend n value known).lookup k = if k = n then some value else known.lookup k := by
  induction known with
  | nil => exact lookup_pair_cons k n value []
  | cons p ps ih =>
    unfold replaceOrAppend
    by_cases hp : p.1 = n
    · rw [if_pos hp, lookup_pair_cons, lookup_pair_cons k p.1 p.2, hp]
      by_cases hk : k = n <;> simp [hk]
    · rw [if_neg hp, lookup_pair_cons k p.1 p.2, lookup_pair_cons k p.1 p.2, ih]
      by_cases hk : k = n
      · simp [hk, Ne.symm hp]
      · simp [hk]

theorem replaceOrAppend_keys (n value : String) (known : List (String × String)) :
    (replaceOrAppend n value known).map (·.1) =
      if n ∈ known.map (·.1) then known.map (·.1) else known.map (·.1) ++ [n] := by
  induction known with
  | nil => rfl
  | cons p ps ih =>
    unfold replaceOrAppend
    by_cases hp : p.1 = n
    · simp [hp]
    · by_cases hps : n ∈ ps.map (·.1) <;> simp_all [Ne.symm hp]

/-- The abbreviation that a command gives. -/
def abbreviation? : Command → Option (String × String)
  | .abbreviation n value _ => some (n, value)
  | _ => none

theorem abbreviated_nodup {known : List (String × String)} (c : Command) (h : (known.map (·.1)).Nodup) :
    ((abbreviated c known).map (·.1)).Nodup := by
  cases c with
  | abbreviation n value span =>
    change ((replaceOrAppend n value known).map (·.1)).Nodup
    rw [replaceOrAppend_keys]
    split
    · exact h
    · rw [List.nodup_append_comm]
      exact List.nodup_cons.2 ⟨by assumption, h⟩
  | _ => exact h

theorem abbreviatedAll_nodup : ∀ (cs : List Command) {known : List (String × String)}, (known.map (·.1)).Nodup →
    ((cs.foldl (fun known c => abbreviated c known) known).map (·.1)).Nodup
  | [], _, h => h
  | c :: cs, _, h => abbreviatedAll_nodup cs (abbreviated_nodup c h)

/-- **The last value that was given to a name counts.** -/
theorem lookup_abbreviatedAll (k : String) : ∀ (cs : List Command) (known : List (String × String)),
    (cs.foldl (fun known c => abbreviated c known) known).lookup k =
      ((cs.filterMap abbreviation?).reverse.lookup k).or (known.lookup k)
  | [], _ => rfl
  | c :: cs, known => by
    rw [List.foldl_cons, lookup_abbreviatedAll k cs]
    cases c with
    | abbreviation n value span =>
      have hone : (abbreviated (.abbreviation n value span) known).lookup k = ([(n, value)].lookup k).or (known.lookup k) := by
        rw [show abbreviated (.abbreviation n value span) known = replaceOrAppend n value known from rfl,
          lookup_replaceOrAppend, lookup_pair_cons]
        by_cases hk : k = n <;> simp [hk]
      rw [hone, List.filterMap_cons_some (show abbreviation? _ = some (n, value) from rfl), List.reverse_cons,
        List.lookup_append, Option.or_assoc]
    | _ => rfl

/-! ## Faults -/

/-- **A function or a command that fails leaves all tables as they were.** -/
theorem sameTables_of_fault {s s' : Session} {c : Command} {e : AnalysisFault}
    (hc : (∃ n body span, c = .function n body span) ∨ ∃ mode n span, c = .run mode n span)
    (h : Step.command c s = .error e s') : s.SameTables s' := by
  rcases hc with ⟨n, body, span, rfl⟩ | ⟨mode, n, span, rfl⟩
  · change Step.function n body s = _ at h
    rw [Step.function_apply] at h
    split at h
    · cases h
      exact ⟨rfl, rfl, rfl, rfl, rfl, rfl⟩
    · dsimp only at h
      split at h <;> cases h
      exact ⟨rfl, rfl, rfl, rfl, rfl, rfl⟩
  · change Step.run mode n span s = _ at h
    rw [Step.run_apply] at h
    split at h <;> cases h
    exact ⟨rfl, rfl, rfl, rfl, rfl, rfl⟩

/-- **The tables of a session agree**, whatever sources and commands it has been given and whatever failed of them: functions,
globals and handlers are where they belong, identifiers stand for one thing each, every abbreviation has the last value that
was given to it, and a function or a command that fails is seen in no table. -/
theorem afterAll_consistent (sourceName : String) (o : Options) (inputs : List Input) :
    (afterAll inputs (new sourceName o)).Consistent ∧
    ((afterAll inputs (new sourceName o)).abbreviations.map (·.1)).Nodup ∧
    (∀ n, (afterAll inputs (new sourceName o)).abbreviations.lookup n =
      ((triedAll inputs (new sourceName o)).filterMap abbreviation?).reverse.lookup n) ∧
    ∀ s c e s', ((∃ n body span, c = .function n body span) ∨ ∃ mode n span, c = .run mode n span) →
      Step.command c s = .error e s' → s.SameTables s' := by
  have htook := Took.takeAll inputs (Took.start (s := new sourceName o))
  rw [List.nil_append] at htook
  have hkept : (afterAll inputs (new sourceName o)).Kept :=
    htook.keeps Kept.change (fun _ h => { h with }) (kept_new sourceName o)
  refine ⟨hkept.toConsistent, ?_, fun n => ?_, fun s c e s' => sameTables_of_fault⟩
  · rw [htook.abbreviations]
    exact abbreviatedAll_nodup _ .nil
  · rw [htook.abbreviations, lookup_abbreviatedAll]
    exact Option.or_none

end Session
end Bibstyle
