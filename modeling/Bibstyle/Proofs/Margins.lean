import Bibstyle.Code.Printing
import Bibstyle.Proofs.Equality
import Bibstyle.Proofs.Quotation
/-!
# Margins — methods behind a margin

A method is written from left to right, with a margin that is handed down, and what is written so are its lines: that is shown
by an induction over statements, in which a branch that is chained to another begins in the middle of a line.  Nothing that a
style gives ends a line: strings are escaped, and everything else is written with the compiler's own names.  So a margin stands
where a line begins, and nowhere else; and a method that is printed deeper is the method behind a wider margin.
-/
namespace Bibstyle

namespace Text

/-- **Text with a margin at the start of every line**, and of the first one if the text starts a line. -/
def behind (margin : List Char) : Bool → List Char → List Char
  | _, [] => []
  | starts, c :: t => (if starts then margin else []) ++ c :: behind margin (c == '\n') t

theorem behind_line (margin : List Char) {t : List Char} (h : Unbroken t) (u : List Char) (starts : Bool) :
    behind margin starts (t ++ '\n' :: u) = (if starts then margin else []) ++ t ++ '\n' :: behind margin true u := by
  induction t generalizing starts with
  | nil => simp [behind]
  | cons c t ih =>
    rw [unbroken_cons, endsLine_eq_false_iff] at h
    rw [List.cons_append, behind, ih h.2, beq_eq_false_iff_ne.2 h.1.1]
    simp

end Text

namespace Line

/-- **Lines that do not end before their end are printed alike behind every margin.** -/
theorem toList_renderAll_behind (margin : String) : ∀ {ls : List Line}, (∀ l ∈ ls, Text.Unbroken l.text.toList) →
    (renderAll margin ls).toList = Text.behind margin.toList true (renderAll "" ls).toList
  | [], _ => rfl
  | l :: ls, h => by
    rw [List.forall_mem_cons] at h
    have hindent : Text.Unbroken (indentation l.depth).toList :=
      fun c hc => not_endsLine_of_indents (indents_indentation l.depth c hc)
    have hline : Text.Unbroken ((indentation l.depth).toList ++ l.text.toList) := List.forall_mem_append.2 ⟨hindent, h.1⟩
    -- the margin stands before the indentation, so it is the indented text that must not end the line
    rw [toList_renderAll, toList_renderAll, List.append_assoc margin.toList, toList_renderAll_behind margin h.2]
    exact (Text.behind_line margin.toList hline _ true).symm

end Line

/-! ## Printing -/

namespace Line

theorem indentation_succ (n : Nat) : indentation (n + 1) = indentation n ++ indent := by
  induction n with
  | zero => rfl
  | succ n ih => rw [indentation, ih, ← String.append_assoc, ← ih, indentation]

theorem renderAll_nil (margin : String) : renderAll margin [] = "" := rfl

theorem renderAll_cons (margin : String) (l : Line) (ls : List Line) :
    renderAll margin (l :: ls) = margin ++ indentation l.depth ++ l.text ++ "\n" ++ renderAll margin ls := by
  rw [renderAll, List.map_cons, String.join_cons, ← renderAll, render]

theorem renderAll_append (margin : String) (ls ms : List Line) :
    renderAll margin (ls ++ ms) = renderAll margin ls ++ renderAll margin ms := by
  rw [renderAll, List.map_append, String.join_append, ← renderAll, ← renderAll]

theorem lead_empty (ls : List Line) : lead "" ls = ls := by
  cases ls with
  | nil => rfl
  | cons l ls => rw [lead, String.empty_append]

end Line

namespace Stmt

open Line (renderAll lead indentation indentation_succ renderAll_nil renderAll_cons renderAll_append)

/-- Braces around lines are braces around their text. -/
theorem renderAll_lead_braced (m word : String) (d : Nat) (head : String) (inner : List Line) :
    renderAll m (lead word (braced d head inner)) =
      m ++ indentation d ++ word ++ (head ++ " \x7b\n" ++ renderAll m inner ++ (m ++ indentation d) ++ "\x7d\n") := by
  have hopen : " \x7b\n" = " \x7b" ++ "\n" := rfl
  have hclose : "\x7d\n" = "\x7d" ++ "\n" := rfl
  rw [braced, lead, renderAll_cons, renderAll_append, renderAll_cons, renderAll_nil, hopen, hclose]
  simp only [String.append_assoc, String.append_empty]

theorem renderAll_braced (m : String) (d : Nat) (head : String) (inner : List Line) :
    renderAll m (braced d head inner) =
      m ++ indentation d ++ (head ++ " \x7b\n" ++ renderAll m inner ++ (m ++ indentation d) ++ "\x7d\n") := by
  rw [← Line.lead_empty (braced d head inner), renderAll_lead_braced, String.append_empty]

theorem renderAll_lead_single (m word : String) (d : Nat) (text : String) :
    renderAll m (lead word [⟨d, text⟩]) = m ++ indentation d ++ word ++ (text ++ "\n") := by
  rw [lead, renderAll_cons, renderAll_nil]
  simp only [String.append_assoc, String.append_empty]

mutual

/-- **A statement is written as its lines are**, behind the margin and its indentation and a word that is there already. -/
theorem renderAll_lines (s : Scope) (m : String) (d : Nat) (word : String) : ∀ t : Stmt,
    renderAll m (lead word (lines s d t)) = m ++ indentation d ++ word ++ written s (m ++ indentation d) t
  | eval _ | declare _ _ | assign _ _ | comment _ => renderAll_lead_single m word d _
  | each reverse body => by
    have hopen : " \x7b entry ->\n" = " \x7b entry ->" ++ "\n" := rfl
    have hclose : "\x7d\n" = "\x7d" ++ "\n" := rfl
    rw [lines, written, lead, renderAll_cons, renderAll_append, renderAll_linesAll s m (d + 1) body, indentation_succ,
      renderAll_cons, renderAll_nil, hopen, hclose]
    simp only [String.append_assoc, String.append_empty]
  | loop [] c body => by
    have hopen : ") \x7b\n" = ")" ++ " \x7b\n" := rfl
    rw [lines, written, renderAll_lead_braced, renderAll_linesAll s m (d + 1) body, indentation_succ, hopen]
    simp only [String.append_assoc]
  | loop (t :: ts) c body => by
    have hopen : ") \x7b\n" = ")" ++ " \x7b\n" := rfl
    have hforever : "while (true) \x7b\n" = "while (true)" ++ " \x7b\n" := rfl
    have hbreak : "break\n" = "break" ++ "\n" := rfl
    rw [lines, written, renderAll_lead_braced, renderAll_append, renderAll_append, renderAll_linesAll s m (d + 1) (t :: ts),
      renderAll_linesAll s m (d + 1) body, renderAll_braced, renderAll_cons, renderAll_nil, hopen, hforever, hbreak]
    · simp only [indentation_succ, String.append_assoc, String.append_empty]
    · exact fun h => by cases h
    · exact fun h => by cases h
  | branch c yes no => by
    have hopen : ") \x7b\n" = ")" ++ " \x7b\n" := rfl
    have hline : ") \x7b\n" = ") \x7b" ++ "\n" := rfl
    rw [lines, written]
    split
    · rw [renderAll_lead_braced, renderAll_linesAll s m (d + 1) no, indentation_succ, hopen]
      simp only [String.append_assoc]
    · rw [lead, renderAll_cons, renderAll_append, renderAll_linesAll s m (d + 1) yes, renderAll_linesElse s m d no,
        indentation_succ, hline]
      simp only [String.append_assoc]

theorem renderAll_linesElse (s : Scope) (m : String) (d : Nat) : ∀ ts : List Stmt,
    renderAll m (linesElse s d ts) = printElse s (m ++ indentation d) ts
  | [] => by
    rw [linesElse, printElse, renderAll_cons, renderAll_nil]
    simp only [String.append_assoc]
    rfl
  | [t] => by
    have hopen : "\x7d else \x7b\n" = "\x7d else" ++ " \x7b\n" := rfl
    rw [linesElse, printElse]
    split
    · exact renderAll_lines s m d "\x7d else " t
    · rw [renderAll_braced, ← Line.lead_empty (lines s (d + 1) t), renderAll_lines s m (d + 1) "" t, indentation_succ, hopen]
      simp only [String.append_assoc, String.empty_append]
  | t :: u :: ts => by
    have hopen : "\x7d else \x7b\n" = "\x7d else" ++ " \x7b\n" := rfl
    rw [linesElse, printElse, renderAll_braced, renderAll_append, ← Line.lead_empty (lines s (d + 1) t),
      renderAll_lines s m (d + 1) "" t, renderAll_linesAll s m (d + 1) (u :: ts), indentation_succ, hopen]
    · simp only [String.append_assoc, String.empty_append]
    · exact fun h => by cases h
    · exact fun h => by cases h

theorem renderAll_linesAll (s : Scope) (m : String) (d : Nat) : ∀ ts : List Stmt,
    renderAll m (linesAll s d ts) = printAll s (m ++ indentation d) ts
  | [] => rfl
  | t :: ts => by
    rw [linesAll, printAll, renderAll_append, ← Line.lead_empty (lines s d t), renderAll_lines s m d "" t,
      renderAll_linesAll s m d ts, String.append_empty]

end

end Stmt

/-- **A method is printed line by line**, deeper as behind a wider margin. -/
theorem Routine.renderAll_lines (r : Routine) (m : String) (d : Nat) :
    Line.renderAll m (r.lines d) = r.print (m ++ Line.indentation d) := by
  have hopen : ") \x7b\n" = ")" ++ " \x7b\n" := rfl
  rw [lines, print, Stmt.renderAll_braced, Line.renderAll_append, Block.lines, Block.print, Stmt.renderAll_linesAll,
    Line.indentation_succ, hopen]
  cases r.result with
  | none =>
    dsimp only
    rw [Line.renderAll_nil]
    simp only [String.append_assoc, String.append_empty]
  | some e =>
    dsimp only
    rw [Line.renderAll_cons, Line.renderAll_nil, Line.indentation_succ]
    simp only [String.append_assoc, String.append_empty]

theorem Routine.print_eq (r : Routine) (m : String) : r.print m = Line.renderAll m (r.lines 0) := by
  rw [r.renderAll_lines, Line.indentation, String.append_empty]

/-- **The methods of a script are printed one level in**, each behind a blank line. -/
theorem Session.renderAll_routineLines (s : Session) :
    Line.renderAll "" s.routineLines = String.join (s.routines.map (fun r => "\n" ++ r.print Line.indent)) := by
  rw [routineLines]
  induction s.routines with
  | nil => rfl
  | cons r rs ih =>
    have hblank : Line.renderAll "" (.blank :: r.lines 1) = "\n" ++ r.print Line.indent := by
      rw [Line.renderAll_cons, r.renderAll_lines]
      rfl
    rw [List.flatMap_cons, Line.renderAll_append, hblank, ih, List.map_cons, String.join_cons]

/-- **What the script runs is printed two levels in**, in a method of its own. -/
theorem Session.renderAll_runLines (s : Session) :
    Line.renderAll "" s.runLines = "\n" ++ Line.indent ++ "void run() \x7b\n" ++
      Block.print s.run .empty (Line.indent ++ Line.indent) ++ Line.indent ++ "\x7d\n" := by
  have hbody : Line.renderAll "" (Block.lines s.run .empty 2) = Block.print s.run .empty (Line.indent ++ Line.indent) :=
    Stmt.renderAll_linesAll .empty "" 2 s.run
  have hopen : Line.renderAll "" [.blank, ⟨1, "void run() \x7b"⟩] = "\n" ++ Line.indent ++ "void run() \x7b\n" := rfl
  have hclose : Line.renderAll "" [⟨1, "\x7d"⟩] = Line.indent ++ "\x7d\n" := rfl
  rw [runLines, Line.renderAll_append, Line.renderAll_append, hbody, hopen, hclose]
  simp only [String.append_assoc]

/-! ## Names and expressions -/

namespace Expr

/-- The name that a node is written with, if there is one. -/
def name? (s : Scope) : Expr → Option String
  | var v => some (s.name v)
  | global n _ | verbatim n _ => some n
  | call c _ _ _ => some c.method
  | _ => none

theorem isName_of_isNamed {s : Scope} {x : Expr} (h : x.isNamed s = true) {n : String} (hn : x.name? s = some n) :
    Piece.isName n = true := by
  cases x <;> cases hn <;> exact h

mutual

/-- What is below a node of an expression is below the expression. -/
theorem nodes_subset {x : Expr} : ∀ e : Expr, x ∈ e.nodes → x.nodes ⊆ e.nodes
  | int _, h | str _, h | quoted _, h | var _, h | global _ _, h | field _, h | entryVar _ _, h | entry, h | verbatim _ _, h
  | block _, h => by
    rw [List.mem_singleton.1 h]
    exact List.Subset.refl _
  | call c args t effect, h => by
    rcases List.mem_cons.1 h with rfl | h
    · exact List.Subset.refl _
    · exact List.subset_cons_of_subset _ (nodes_subset_nodesAll args h)
  | binary _ l r, h | compare _ l r, h => by
    rcases List.mem_cons.1 h with rfl | h
    · exact List.Subset.refl _
    refine List.subset_cons_of_subset _ ?_
    rcases List.mem_append.1 h with h | h
    · exact List.subset_append_of_subset_left _ (nodes_subset l h)
    · exact List.subset_append_of_subset_right _ (nodes_subset r h)

theorem nodes_subset_nodesAll {x : Expr} : ∀ es : List Expr, x ∈ nodesAll es → x.nodes ⊆ nodesAll es
  | [], h => absurd h List.not_mem_nil
  | e :: es, h => by
    rw [nodesAll, List.mem_append] at h
    rw [nodesAll]
    rcases h with h | h
    · exact List.subset_append_of_subset_left _ (nodes_subset e h)
    · exact List.subset_append_of_subset_right _ (nodes_subset_nodesAll es h)

end

end Expr

/-- The name that an act stores to, if there is one. -/
def Act.name? (s : Scope) : Act → Option String
  | declare v _ | assign (.var v) _ => some (s.name v)
  | assign (.global n) _ => some n
  | _ => none

theorem Act.Clean.isName {s : Scope} (hvars : ∀ v, Identifier.IsWord (s.name v)) {a : Act} (h : a.Clean s) {n : String}
    (hn : a.name? s = some n) : Piece.isName n = true := by
  cases a with
  | eval e | test e => cases hn
  | declare v init =>
    cases hn
    exact (hvars v).isName
  | assign x e =>
    cases x with
    | var v =>
      cases hn
      exact (hvars v).isName
    | global m =>
      cases hn
      exact (h.target n e rfl).isName
    | entryVar m => cases hn

namespace Routine

/-- **The names in a method**: its own, those of its parameters, of what it stores to, and of what it reads and calls. -/
def names (r : Routine) : List String :=
  r.method :: (r.params.map r.scope.name ++ (Stmt.actsAll false r.body).filterMap (·.2.name? r.scope) ++
    r.nodes.filterMap (Expr.name? r.scope))

variable {r : Routine}

theorem Clean.nodes (h : r.Clean) : ∀ x ∈ r.nodes, x.isNamed r.scope = true :=
  forall_nodes.2 ⟨fun q hq => (h.body.acts q hq).expr, h.result⟩

theorem Clean.isName (h : r.Clean) : ∀ n ∈ r.names, Piece.isName n = true := by
  refine List.forall_mem_cons.2 ⟨h.method.isName, List.forall_mem_append.2 ⟨List.forall_mem_append.2 ⟨?_, ?_⟩, ?_⟩⟩
  · exact List.forall_mem_map.2 (fun v _ => (h.vars v).isName)
  · intro n hn
    obtain ⟨q, hq, hname⟩ := List.mem_filterMap.1 hn
    exact (h.body.acts q hq).isName h.vars hname
  · intro n hn
    obtain ⟨x, hx, hname⟩ := List.mem_filterMap.1 hn
    exact Expr.isName_of_isNamed (h.nodes x hx) hname

theorem nodes_subset {x : Expr} (hx : x ∈ r.nodes) : x.nodes ⊆ r.nodes := by
  intro y hy
  obtain ⟨e, he, hx⟩ := List.mem_flatMap.1 hx
  exact List.mem_flatMap.2 ⟨e, he, Expr.nodes_subset e hx hy⟩

/-- **A method that is the same behind every margin**, and in which nothing ends a line but the line. -/
structure Linewise (r : Routine) : Prop where
  margin : ∀ m : String, (r.print m).toList = Text.behind m.toList true (r.print "").toList
  depth : ∀ m d, Line.renderAll m (r.lines d) = r.print (m ++ Line.indentation d)
  lines : ∀ d, ∀ l ∈ r.lines d, Text.Unbroken l.text.toList
  exprs : ∀ x ∈ r.nodes, Text.Unbroken (x.render r.scope).toList
  conditions : ∀ x ∈ r.nodes, ∀ negate, Text.Unbroken (x.condition r.scope negate).toList
  names : ∀ n ∈ r.names, Text.Unbroken n.toList
  literals : ∀ v ∈ r.strings, Text.Unbroken (Text.quote v).toList

theorem Clean.linewise (h : r.Clean) : r.Linewise := by
  have hlines : ∀ d, ∀ l ∈ r.lines d, Text.Unbroken l.text.toList := fun d => (h.composes_lines d).unbroken
  have hnodes : ∀ x ∈ r.nodes, ∀ y ∈ x.nodes, y.isNamed r.scope = true := fun x hx y hy => h.nodes y (nodes_subset hx hy)
  exact
    { margin m := by rw [r.print_eq, r.print_eq, Line.toList_renderAll_behind m (hlines 0)]
      depth := r.renderAll_lines
      lines := hlines
      exprs x hx := (Expr.composed_rendered r.scope x (hnodes x hx)).unbroken
      conditions x hx negate := (Expr.composed_condition (hnodes x hx) negate).unbroken
      names n hn := (Expr.composed_name (h.isName n hn)).unbroken
      literals v _ := (Text.literal_quote v).2 }

end Routine

namespace Session

/-- **Every method of every session is the same behind every margin.**  Behind a margin it is printed as without one, with the
margin put at the start of every line, and deeper in a script it is printed as behind a wider margin.  No line ends in its
expressions and conditions, nor in its names and literals, whatever the session has been given. -/
theorem afterAll_linewise (sourceName : String) (o : Options) (inputs : List Input) {r : Routine}
    (hr : r ∈ (afterAll inputs (new sourceName o)).routines) : r.Linewise :=
  ((afterAll_tidy sourceName o inputs).routines r hr).linewise

/-- A function, a field, a global and a string with ends of lines, and a margin of two lines. -/
theorem afterAll_linewise_breaks :
    let span : Span := ⟨"", 1, 1, 1, 1⟩
    let yes : List Term := [.string "it's\n" span, .name "a\nb" span, .name "*" span, .name "write$" span]
    let body : Group := ⟨[.name "k\r" span, .block yes span, .block [.name "newline$" span] span, .name "if$" span], span⟩
    let commands : List Command := [.entry ⟨[.name "a\nb" span], span⟩ ⟨[], span⟩ ⟨[], span⟩ span,
      .integers ⟨[.name "k\r" span], span⟩ span, .function "f\n" body span]
    let printed := String.join
      ["void f(def entry) \x7b\n",
       "    if (k > 0) \x7b\n", "        bibWriter.print('it\\'s\\n' + entry.field('a\\nb'))\n",
       "    \x7d else \x7b\n", "        bibWriter.println()\n", "    \x7d\n", "\x7d\n"]
    ∃ r ∈ (afterAll (commands.map .command) (new "" {})).routines, r.print "" = printed ∧
      (r.print "|\n").toList = Text.behind "|\n".toList true printed.toList ∧ r.Linewise := by
  intro span yes body commands printed
  have hprinted : printed ∈ (afterAll (commands.map .command) (new "" {})).routines.map (·.print "") := by decide +kernel
  obtain ⟨r, hr, htext⟩ := List.mem_map.1 hprinted
  have hlinewise := afterAll_linewise "" {} (commands.map .command) hr
  exact ⟨r, hr, htext, htext ▸ hlinewise.margin "|\n", hlinewise⟩

end Session
end Bibstyle
