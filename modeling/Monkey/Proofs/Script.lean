import Mathlib.Data.List.Permutation
import Monkey.Proofs.Dialogue

/-!
# Dialogues and scripts

Lines that are held as a dialogue, and run as a script with semicolons between them, come to
the same (`Repl.eval_script`), up to where a script ends: at an error, or at a `return`
outside all functions. A dialogue goes on after these.

What carries over from line to line is that the dialogue and the script of the lines so far
agree (`Repl.Agrees`), as long as lines are evaluated to values (`Repl.Passes`):

* `Repl.Agrees.concat`: they still agree after one more line, as the script evaluates it in
  the state of the dialogue, but for the text that has been printed before;
* `Repl.Agrees.eval_stops`: a line that ends in an error or a `return` ends the script.
-/

namespace Monkey.Repl

open Eval

/-! ## Lines as they are evaluated -/

namespace Transcript

/-- The last line has been answered with the value. -/
def LastAnswer (t : Transcript) (v : Value) : Prop :=
  ∃ others printed, t.answers = others ++ [[.printed printed, .reply (v.inspect ++ "\n")]]

/-- The state that the dialogue ends in, with all that programs have printed. -/
def leaves (t : Transcript) : State :=
  { t.state with printed := t.printed }

end Transcript

/-- How the evaluation of a line ends, after the dialogue over the lines before. -/
def lineOutcome (depth : Nat) (before : List String) (line : String) : Outcome Value :=
  ((Block.eval (Value.apply depth) (statements line) 0).run (dialogue depth before).state).1

/-- All the lines that follow some are evaluated to values, without an error and without a
    `return` outside all functions. -/
def Passes (depth : Nat) (before : List String) : List String → Prop
  | [] => True
  | line :: lines =>
    (∃ v, lineOutcome depth before line = .value v) ∧ Passes depth (before ++ [line]) lines

/-- The line that follows some is evaluated to an error or to a `return` outside all
    functions. -/
def Stops (depth : Nat) (before : List String) (line : String) : Prop :=
  (∃ e, lineOutcome depth before line = .failed e) ∨
    ∃ v, lineOutcome depth before line = .returned v

section

variable {depth : Nat} {before : List String} {line : String}

/-- A line that ends in a value does so as a program of its own. -/
theorem run_of_lineOutcome {v : Value} (h : lineOutcome depth before line = .value v) :
    ∃ t, (Block.eval (Value.apply depth) (statements line) 0).run (dialogue depth before).state =
        (.value v, t) ∧
      ((statements line).eval depth 0).run (dialogue depth before).state = (.value v, t) := by
  have hrun : (Block.eval (Value.apply depth) (statements line) 0).run
      (dialogue depth before).state = (.value v, _) := Prod.ext h rfl
  exact ⟨_, hrun, by rw [Program.eval_eq, run_catchReturn, hrun]⟩

/-- A line that stops a script comes to no value. -/
theorem Stops.ne_value (h : Stops depth before line) (v : Value) :
    lineOutcome depth before line ≠ .value v := by
  rcases h with ⟨_, ho⟩ | ⟨_, ho⟩ <;> rw [ho] <;> exact fun heq => nomatch heq

/-- An error and a `return` are answered with a value as well. -/
theorem Stops.exists_toValue? (h : Stops depth before line) :
    ∃ v, (((statements line).eval depth 0).run (dialogue depth before).state).1.toValue? =
      some v := by
  rw [Program.eval_eq, run_catchReturn]
  rcases hr : (Block.eval (Value.apply depth) (statements line) 0).run (dialogue depth before).state
    with ⟨o, t⟩
  rcases h with ⟨e, ho⟩ | ⟨v, ho⟩ <;> rw [lineOutcome, hr] at ho <;> subst ho
  · exact ⟨_, rfl⟩
  · exact ⟨_, rfl⟩

/-- Lines pass one after the other. -/
theorem passes_append {lines lines' : List String} :
    Passes depth before (lines ++ lines') ↔
      Passes depth before lines ∧ Passes depth (before ++ lines) lines' := by
  induction lines generalizing before with
  | nil => simp [Passes]
  | cons line lines ih => simp [Passes, ih, and_assoc]

end

/-! ## Agreement -/

/-- The statements of the lines are evaluated, in an empty scope, to a value, and leave the
    state that the dialogue has come to. -/
structure Agrees (depth : Nat) (lines : List String) : Prop where
  ending : (dialogue depth lines).ending = .endOfInput
  printed : (dialogue depth lines).state.printed = ""
  script : ∃ v, (Block.eval (Value.apply depth) (lines.flatMap statements) 0).run
      (State.empty.newScope none).2 =
    (.value v, (dialogue depth lines).state.printedAfter (dialogue depth lines).printed)

namespace Agrees

variable {depth : Nat} {lines : List String}

/-- Before the first line there is nothing to agree on. -/
theorem nil : Agrees depth [] where
  ending := by rw [dialogue_nil]
  printed := by
    rw [dialogue_nil]
    rfl
  script := by
    have hprinted : (dialogue depth []).printed = "" := by
      rw [dialogue_nil]
      rfl
    refine ⟨.null, ?_⟩
    rw [hprinted, dialogue_nil]
    rfl

/-- Further statements do in the script what they do in the dialogue. -/
theorem run_append (h : Agrees depth lines) (ss : List Stmt) :
    ∃ v, (Block.eval (Value.apply depth) (lines.flatMap statements ++ ss) 0).run
        (State.empty.newScope none).2 =
      Prod.map id (State.printedAfter · (dialogue depth lines).printed)
        ((Stmt.evalFrom (Value.apply depth) v ss 0).run (dialogue depth lines).state) := by
  obtain ⟨v, hscript⟩ := h.script
  refine ⟨v, ?_⟩
  rw [Block.eval] at hscript ⊢
  rw [Stmt.evalFrom_append, run_bind, hscript]
  exact Stmt.run_evalFrom_printedAfter depth v ss 0 _ _

/-- Dialogue and script agree after one more line that is evaluated to a value. -/
theorem concat (h : Agrees depth lines) {line : String}
    (hlines : ∀ l ∈ lines ++ [line], IsLine l) {w : Value}
    (hw : lineOutcome depth lines line = .value w) : Agrees depth (lines ++ [line]) := by
  obtain ⟨t, hrun, hprogram⟩ := run_of_lineOutcome hw
  have hdialogue := dialogue_concat hlines h.ending hprogram rfl
  refine ⟨by rw [hdialogue], by rw [hdialogue]; rfl, ?_⟩
  obtain ⟨v, hscript⟩ := h.run_append (statements line)
  -- A line without statements leaves the value as it was.
  obtain ⟨v', hv'⟩ : ∃ v', (Stmt.evalFrom (Value.apply depth) v (statements line) 0).run
      (dialogue depth lines).state = (.value v', t) := by
    by_cases hnil : statements line = []
    · rw [hnil] at hrun ⊢
      have ht : (dialogue depth lines).state = t := congrArg Prod.snd hrun
      exact ⟨v, Prod.ext rfl ht⟩
    · exact ⟨w, Stmt.evalFrom_of_ne_nil _ v .null hnil 0 ▸ hrun⟩
  refine ⟨v', ?_⟩
  rw [List.flatMap_append, List.flatMap_singleton, hscript, hv', hdialogue,
    Transcript.printed_concat]
  simp [State.printedAfter, State.takePrinted]

/-- Dialogue and script agree as long as lines are evaluated to values. -/
theorem append (h : Agrees depth lines) {lines' : List String}
    (hlines : ∀ l ∈ lines ++ lines', IsLine l) (hpasses : Passes depth lines lines') :
    Agrees depth (lines ++ lines') := by
  induction lines' generalizing lines with
  | nil => rwa [List.append_nil]
  | cons line lines' ih =>
    obtain ⟨⟨v, hv⟩, hpasses⟩ := hpasses
    rw [List.append_cons] at hlines ⊢
    exact ih (h.concat (fun l hl => hlines l (List.mem_append_left _ hl)) hv) hlines hpasses

/-- Lines that pass agree with the script of them. -/
theorem of_passes (hlines : ∀ l ∈ lines, IsLine l) (hpasses : Passes depth [] lines) :
    Agrees depth lines :=
  nil.append hlines hpasses

/-- A script ends with the first line that is evaluated to an error or to a `return`, in
    what this line is answered with. -/
theorem eval_stops (h : Agrees depth lines) {line : String}
    (hlines : ∀ l ∈ lines ++ [line], IsLine l) (hstops : Stops depth lines line)
    (ss : List Stmt) :
    let p : Program := lines.flatMap statements ++ (statements line ++ ss)
    let script := (p.eval depth 0).run (State.empty.newScope none).2
    let shown := dialogue depth (lines ++ [line])
    script.1 = (((statements line).eval depth 0).run (dialogue depth lines).state).1 ∧
    (∃ v, script.1.toValue? = some v ∧ shown.LastAnswer v) ∧
    shown.ending = .endOfInput ∧ script.2 = shown.leaves := by
  intro p script shown
  obtain ⟨o, t, hline⟩ : ∃ o t, ((statements line).eval depth 0).run (dialogue depth lines).state =
      (o, t) := ⟨_, _, rfl⟩
  have hscript : script = (o, t.printedAfter (dialogue depth lines).printed) := by
    obtain ⟨v, hrun⟩ := h.run_append (statements line ++ ss)
    have hne : statements line ≠ [] := fun hnil =>
      hstops.ne_value .null (by rw [lineOutcome, hnil]; rfl)
    rw [Stmt.evalFrom_of_ne_nil _ v .null (List.append_ne_nil_of_left_ne_nil hne ss),
      Stmt.run_evalFrom_append_of_ne_value _ hstops.ne_value] at hrun
    have hcaught := run_catchReturn_of_eq hrun
    rw [Program.eval_eq, Block.eval] at hline
    rwa [hline] at hcaught
  obtain ⟨v, hv⟩ := hstops.exists_toValue?
  rw [hline] at hv
  have hshown : shown = _ := dialogue_concat hlines h.ending hline hv
  rw [hscript, hline, hshown]
  refine ⟨rfl, ⟨v, hv, _, t.printed, rfl⟩, rfl, ?_⟩
  rw [Transcript.leaves, Transcript.printed_concat]
  rfl

/-- A script of lines that are all evaluated to values is evaluated to one. -/
theorem eval_eq (h : Agrees depth lines) :
    ∃ v, (Program.eval depth (lines.flatMap statements) 0).run (State.empty.newScope none).2 =
      (.value v, (dialogue depth lines).leaves) := by
  obtain ⟨v, hscript⟩ := h.script
  refine ⟨v, ?_⟩
  rw [Program.eval_eq, run_catchReturn, hscript, State.printedAfter, h.printed, String.append_empty]
  rfl

/-- The script has the value of its last line, if this has statements. -/
theorem eval_concat (h : Agrees depth lines) {line : String}
    (hlines : ∀ l ∈ lines ++ [line], IsLine l) (hne : statements line ≠ []) {w : Value}
    (hw : lineOutcome depth lines line = .value w) :
    let script := (Program.eval depth (lines.flatMap statements ++ statements line) 0).run
      (State.empty.newScope none).2
    script.1 = .value w ∧ (dialogue depth (lines ++ [line])).LastAnswer w := by
  intro script
  obtain ⟨v, hrun⟩ := h.run_append (statements line)
  rw [Stmt.evalFrom_of_ne_nil _ v .null hne] at hrun
  obtain ⟨t, hblock, hline⟩ := run_of_lineOutcome hw
  rw [Block.eval] at hblock
  rw [hblock] at hrun
  refine ⟨?_, ?_⟩
  · change ((Program.eval depth _ 0).run _).1 = _
    rw [Program.eval_eq, run_catchReturn, hrun]
    rfl
  · rw [dialogue_concat hlines h.ending hline rfl]
    exact ⟨_, t.printed, rfl⟩

end Agrees

/-! ## Scripts -/

/-- Lines are held as a dialogue and run as a script, with semicolons and ends of lines
    between them. The script is parsed to the statements of all lines.

    If a line is the first that is evaluated to an error or to a `return` outside all
    functions, the script ends as this line does, in the value that the dialogue answers it
    with. It has printed what has been printed in the dialogue up to this answer, and leaves
    all scopes as they are in the dialogue then.

    If there is no such line, the script has printed what has been printed in the whole
    dialogue and leaves all scopes as the dialogue does. Its value is the one that the
    dialogue answers the last line with statements with, or `null` if there is none. -/
theorem eval_script {lines : List String} (hlines : ∀ line ∈ lines, IsLine line) (depth : Nat) :
    let p : Program := lines.flatMap statements
    let script := (p.eval depth 0).run (State.empty.newScope none).2
    Program.parse (";\n".intercalate lines) = .ok p ∧
    (∀ before line after, lines = before ++ line :: after →
      Passes depth [] before → Stops depth before line →
      let shown := dialogue depth (before ++ [line])
      shown.ending = .endOfInput ∧ shown.answers <+: (dialogue depth lines).answers ∧
      script.1 = (((statements line).eval depth 0).run (dialogue depth before).state).1 ∧
      (∃ v, script.1.toValue? = some v ∧ shown.LastAnswer v) ∧ script.2 = shown.leaves) ∧
    (Passes depth [] lines →
      let shown := dialogue depth lines
      shown.ending = .endOfInput ∧ script.2 = shown.leaves ∧
      (∀ before line after, lines = before ++ line :: after → statements line ≠ [] →
        (∀ l ∈ after, statements l = []) →
        ∃ v, script.1 = .value v ∧ lineOutcome depth before line = .value v ∧
          (dialogue depth (before ++ [line])).LastAnswer v) ∧
      ((∀ l ∈ lines, statements l = []) → script.1 = .value .null)) := by
  intro p script
  refine ⟨?_, ?_, ?_⟩
  · exact Program.parse_intercalate (fun l hl => (hlines l hl).parse_eq)
      fun l hl => (hlines l hl).even_quotes
  · rintro before line after rfl hpasses hstops shown
    rw [List.append_cons] at hlines ⊢
    obtain ⟨hshown, -⟩ := List.forall_mem_append.1 hlines
    have hagrees := Agrees.of_passes (fun l hl => hshown l (List.mem_append_left _ hl)) hpasses
    obtain ⟨houtcome, hanswer, hending, hleaves⟩ :=
      hagrees.eval_stops hshown hstops (after.flatMap statements)
    have hp : p = before.flatMap statements ++ (statements line ++ after.flatMap statements) := by
      simp only [p, List.flatMap_append, List.flatMap_cons]
    rw [← hp] at houtcome hanswer hleaves
    exact ⟨hending, dialogue_answers_append hlines hending, houtcome, hanswer, hleaves⟩
  · intro hpasses shown
    have hagrees := Agrees.of_passes hlines hpasses
    obtain ⟨v, hv⟩ := hagrees.eval_eq
    refine ⟨hagrees.ending, congrArg Prod.snd hv, ?_, fun hempty => ?_⟩
    · rintro before line after rfl hne hafter
      rw [List.append_cons] at hlines
      obtain ⟨hshown, -⟩ := List.forall_mem_append.1 hlines
      obtain ⟨hpasses, ⟨w, hw⟩, -⟩ := passes_append.1 hpasses
      have hagrees := Agrees.of_passes (fun l hl => hshown l (List.mem_append_left _ hl)) hpasses
      obtain ⟨houtcome, hanswer⟩ := hagrees.eval_concat hshown hne hw
      have hp : p = before.flatMap statements ++ statements line := by
        simp only [p, List.flatMap_append, List.flatMap_cons, List.flatMap_eq_nil_iff.2 hafter,
          List.append_nil]
      rw [← hp] at houtcome
      exact ⟨w, houtcome, hw, hanswer⟩
    · have hp : p = [] := List.flatMap_eq_nil_iff.2 hempty
      change ((Program.eval depth p 0).run _).1 = _
      rw [hp]
      rfl

/-- The second line gives a name a value that a function of the first one looks up, and ends
    in a `return`; the third one, which would end in an error, is left out. -/
theorem eval_script_return :
    let lines := ["let f = fn() \x7b puts(x); x \x7d", "let x = 1; return f()", "y"]
    let script := (Program.eval 1 (lines.flatMap statements) 0).run (State.empty.newScope none).2
    (∀ line ∈ lines, IsLine line) ∧ Passes 1 [] [lines[0]] ∧ Stops 1 [lines[0]] lines[1] ∧
    (∃ v, script.1.toValue? = some v ∧ (dialogue 1 [lines[0], lines[1]]).LastAnswer v) ∧
    script.2 = (dialogue 1 [lines[0], lines[1]]).leaves := by
  intro lines script
  have hline : ∀ line ∈ lines, IsLine line := by
    have h : ∀ line ∈ lines, '\n' ∉ line.toList ∧ (Program.read line).errors.isEmpty ∧
        Even (line.toList.count '"') := by decide +kernel
    intro line hline
    obtain ⟨hnewline, herrors, heven⟩ := h line hline
    exact ⟨hnewline, ⟨_, Program.parse_eq_ok_iff.2 ⟨List.isEmpty_iff.1 herrors, rfl⟩⟩, heven⟩
  let body : Block := [.expr (.call (.ident "puts") [.ident "x"]), .expr (.ident "x")]
  have hlet : statements lines[0] = [.bind "f" (.function [] body)] := by decide +kernel
  have hreturn : statements lines[1] = [.bind "x" (.int 1), .ret (.call (.ident "f") [])] := by
    decide +kernel
  have hnull : lineOutcome 1 [] lines[0] = .value .null := by
    rw [lineOutcome, hlet, dialogue_nil]
    cbv
  have hpasses : Passes 1 [] [lines[0]] := ⟨⟨_, hnull⟩, trivial⟩
  have hone : lineOutcome 1 [lines[0]] lines[1] = .returned (.int 1) := by
    let t := (State.empty.newScope none).2.newId.2.bind 0 "f" (.function 0 ⟨[], body, 0⟩)
    have hfirst :
        ((statements lines[0]).eval 1 0).run (dialogue 1 []).state = (.value .null, t) := by
      rw [hlet, dialogue_nil]
      cbv
    have hdialogue : dialogue 1 ([] ++ [lines[0]]) = _ :=
      dialogue_concat (List.forall_mem_singleton.2 (hline _ List.mem_cons_self))
        (by rw [dialogue_nil]) hfirst rfl
    rw [List.nil_append] at hdialogue
    rw [lineOutcome, hdialogue, hreturn]
    cbv
  have hstops : Stops 1 [lines[0]] lines[1] := .inr ⟨_, hone⟩
  obtain ⟨-, hstop, -⟩ := eval_script hline 1
  obtain ⟨-, -, -, hanswer, hleaves⟩ := hstop [lines[0]] lines[1] [lines[2]] rfl hpasses hstops
  exact ⟨hline, hpasses, hstops, hanswer, hleaves⟩

end Monkey.Repl
