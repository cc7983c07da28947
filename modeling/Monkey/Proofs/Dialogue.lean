import Monkey.Proofs.Joined
import Monkey.Proofs.Lines
import Monkey.Proofs.Mirror
import Monkey.Repl

/-!
# Dialogues line by line

A dialogue evaluates its lines one after the other, each in the state that the lines before
have left. The lines are texts that spell statements (`Repl.IsLine`); the input of the
dialogue (`Repl.dialogue`) is made of their bytes.

* `Stmt.evalFrom_append`: statements are evaluated after others in the state that these
  leave;
* `Stmt.run_evalFrom_printedAfter`: what has been printed plays no part in an evaluation;
* `Repl.dialogue_concat`: the answer to one more line;
* `Repl.dialogue_answers_append`: further lines change no answer.
-/

namespace Monkey

open Eval

/-! ## Statements one after the other -/

section

variable (apply : Value → List Value → Eval Value)

/-- More statements are evaluated after those before them, to the value of the last. -/
theorem Stmt.evalFrom_append (v : Value) (ss ss' : List Stmt) (scope : ScopeId) :
    Stmt.evalFrom apply v (ss ++ ss') scope = (do
      let w ← Stmt.evalFrom apply v ss scope
      Stmt.evalFrom apply w ss' scope) := by
  induction ss generalizing v with
  | nil => rfl
  | cons st ss ih =>
    simp only [List.cons_append, Stmt.evalFrom_cons, ih, bind_assoc]

/-- Statements that end in no value leave out those after them. -/
theorem Stmt.run_evalFrom_append_of_ne_value {v : Value} {ss : List Stmt} {scope : ScopeId}
    {s : State} (h : ∀ w, ((Stmt.evalFrom apply v ss scope).run s).1 ≠ .value w)
    (ss' : List Stmt) :
    (Stmt.evalFrom apply v (ss ++ ss') scope).run s = (Stmt.evalFrom apply v ss scope).run s := by
  rw [Stmt.evalFrom_append, run_bind]
  rcases hr : (Stmt.evalFrom apply v ss scope).run s with ⟨w | _ | _ | _, t⟩
  · exact absurd (congrArg Prod.fst hr) (h w)
  all_goals rfl

/-- The value of statements is that of the last one, if there is any. -/
theorem Stmt.evalFrom_of_ne_nil (v w : Value) {ss : List Stmt} (h : ss ≠ []) (scope : ScopeId) :
    Stmt.evalFrom apply v ss scope = Stmt.evalFrom apply w ss scope := by
  cases ss with
  | nil => exact absurd rfl h
  | cons st ss => rfl

end

/-- What a `return` ends in does not depend on how the state after is changed. -/
theorem Eval.run_catchReturn_of_eq {m n : Eval Value} {s t : State} {f : State → State}
    (h : m.run s = Prod.map id f (n.run t)) :
    (catchReturn m).run s = Prod.map id f ((catchReturn n).run t) := by
  rw [run_catchReturn, run_catchReturn, h]
  rcases n.run t with ⟨_ | _ | _ | _, _⟩ <;> rfl

/-! ## Output -/

/-- The state in which a text has been printed before all that has been. -/
def State.printedAfter (s : State) (text : String) : State :=
  { s with printed := text ++ s.printed }

namespace State

variable (s : State) (text : String)

/-- What was printed before does not matter to names. -/
theorem get?_printedAfter (scope : ScopeId) (x : String) :
    (s.printedAfter text).get? scope x = s.get? scope x :=
  get?_of_scopes_eq (s := s) (t := s.printedAfter text) rfl scope x

theorem printedAfter_bind (scope : ScopeId) (x : String) (v : Value) :
    (s.printedAfter text).bind scope x v = (s.bind scope x v).printedAfter text := rfl

/-- Names may be bound before the text is put in front of what was printed, or after that. -/
theorem printedAfter_bindAll (scope : ScopeId) (xs : List String) (vs : List Value) :
    (s.printedAfter text).bindAll scope xs vs = (s.bindAll scope xs vs).printedAfter text := by
  induction xs generalizing s vs with
  | nil => rfl
  | cons x xs ih =>
    cases vs with
    | nil => rfl
    | cons v vs => rw [bindAll, printedAfter_bind, ih, bindAll]

theorem printedAfter_enter (c : Closure) (args : List Value) :
    (s.printedAfter text).enter c args = (s.enter c args).printedAfter text :=
  printedAfter_bindAll (s.newScope (some c.scope)).2 text _ _ _

end State

/-- Runs from one state, but for a text that has been printed before. -/
def Mirror.printedAfter (text : String) : Mirror where
  rename := .id
  states s t := t = s.printedAfter text
  values _ := True

/-- No step reads what has been printed. -/
theorem Mirror.steps_printedAfter (text : String) :
    (Mirror.printedAfter text).Steps (fun _ => True) fun _ => True where
  inherited := Value.inherited_true
  function _ _ := trivial
  body _ _ _ := trivial
  get?_eq {s t scope x} hst _ _ := by
    obtain rfl := hst
    change (s.printedAfter text).get? scope x = (s.get? scope x).map (Value.rename .id)
    rw [Value.rename_id_eq, Option.map_id_apply]
    exact s.get?_printedAfter text scope x
  get? _ _ _ _ := trivial
  bind {s t scope x v} hst _ _ := by
    obtain rfl := hst
    exact congrArg (State.bind _ scope x) v.rename_id
  newId hst := by
    obtain rfl := hst
    exact ⟨rfl, rfl⟩
  print hst := by
    obtain rfl := hst
    exact congrArg (State.mk _ _) (String.append_assoc ..)
  scope hst := by
    obtain rfl := hst
    exact ⟨trivial, rfl⟩
  enter {s t id c args} hst _ _ := by
    obtain rfl := hst
    change (s.printedAfter text).enter c (args.map (Value.rename .id)) = _
    rw [Value.rename_id_eq, List.map_id]
    exact s.printedAfter_enter text c args

theorem Outcome.rename_id (o : Outcome Value) : o.rename .id = o := by
  cases o with
  | value v | returned v => rw [rename, map, v.rename_id]
  | failed e => rw [rename, map, Value.rename_id_eq, e.map_id]
  | exhausted => rfl

/-- What has been printed before plays no part in an evaluation. -/
theorem Stmt.run_evalFrom_printedAfter (depth : Nat) (v : Value) (ss : List Stmt)
    (scope : ScopeId) (s : State) (text : String) :
    (Stmt.evalFrom (Value.apply depth) v ss scope).run (s.printedAfter text) =
      Prod.map id (State.printedAfter · text)
        ((Stmt.evalFrom (Value.apply depth) v ss scope).run s) := by
  have hmirrors : Eval.MirrorsValue (Mirror.printedAfter text)
      (Stmt.evalFrom (Value.apply depth) v ss scope)
      (Stmt.evalFrom (Value.apply depth) (v.rename .id) ss scope) :=
    Stmt.evalFrom_mirrors (Mirror.steps_printedAfter text) depth trivial ss (fun _ _ => trivial)
      trivial
  rw [v.rename_id] at hmirrors
  obtain ⟨hstate, houtcome, -⟩ := hmirrors (s := s) rfl
  exact Prod.ext (houtcome.trans (Outcome.rename_id _)) hstate

/-! ## Dialogues -/

namespace Repl

/-- A dialogue goes on with further lines if there has been an answer to all. -/
theorem answerAll_append {depth : Nat} {mode : Mode} {scope : ScopeId} {lines : List (List UInt8)}
    {s : State} (h : (answerAll depth mode scope lines s).ending = .endOfInput)
    (lines' : List (List UInt8)) :
    let first := answerAll depth mode scope lines s
    let others := answerAll depth mode scope lines' first.state
    answerAll depth mode scope (lines ++ lines') s =
      { others with answers := first.answers ++ others.answers } := by
  induction lines generalizing s with
  | nil => rfl
  | cons line lines ih =>
    simp only [List.cons_append, answerAll] at h ⊢
    cases hdecode : Text.decode? line with
    | none => simp [hdecode] at h
    | some text =>
      simp only [hdecode] at h ⊢
      cases hrespond : respond depth mode scope text s with
      | none => simp [hrespond] at h
      | some r =>
        simp only [hrespond] at h ⊢
        rw [ih h, List.cons_append]

/-- What is answered to a line that spells a program. -/
theorem respond_eval {depth : Nat} {scope : ScopeId} {line : String} {p : Program} {s t : State}
    {o : Outcome Value} {v : Value} (hline : Program.parse line = .ok p)
    (hrun : (p.eval depth scope).run s = (o, t)) (hv : o.toValue? = some v) :
    respond depth .eval scope line s =
      some ([.printed t.printed, .reply (v.inspect ++ "\n")], t.takePrinted.2) := by
  simp only [respond, hline, hrun, hv, State.takePrinted, Option.map_some]

/-- A line of text that spells statements and leaves no text open. -/
structure IsLine (line : String) : Prop where
  newline_not_mem : '\n' ∉ line.toList
  parses : ∃ p, Program.parse line = .ok p
  even_quotes : Even (line.toList.count '"')

/-- The statements that a line spells. -/
abbrev statements (line : String) : Program :=
  (Program.read line).program

namespace IsLine

variable {line : String} (h : IsLine line)

include h

/-- A line of the script is parsed to its statements. -/
theorem parse_eq : Program.parse line = .ok (statements line) := by
  obtain ⟨p, hp⟩ := h.parses
  rw [hp, statements, (Program.parse_eq_ok_iff.1 hp).2]

/-- A line is answered with its value. A carriage return at its end does not matter. -/
theorem answerAll_eq {depth : Nat} {scope : ScopeId} {s t : State} {o : Outcome Value} {v : Value}
    (hrun : ((statements line).eval depth scope).run s = (o, t)) (hv : o.toValue? = some v) :
    answerAll depth .eval scope [Text.dropCarriageReturn (Text.encode line)] s =
      ⟨[[.printed t.printed, .reply (v.inspect ++ "\n")]], .endOfInput, t.takePrinted.2⟩ := by
  obtain ⟨line', hdrop, hline'⟩ := Text.dropCarriageReturn_encode line
  have hread : Program.read line' = Program.read line := by
    rcases hline' with rfl | hline'
    · rfl
    · exact (Program.read_of_carriageReturn hline' h.even_quotes).symm
  have hparse : Program.parse line' = .ok (statements line) := by
    rw [Program.parse, hread]
    exact h.parse_eq
  simp only [answerAll, hdrop, Text.decode?_encode, respond_eval hparse hrun hv]

end IsLine

/-- The dialogue over lines that are evaluated. -/
def dialogue (depth : Nat) (lines : List String) : Transcript :=
  run depth .eval (Text.ofLines lines)

/-- The dialogue over lines of text answers each line as it is read, without the carriage return
    that it may end in. -/
theorem dialogue_eq {lines : List String} (h : ∀ line ∈ lines, IsLine line) (depth : Nat) :
    dialogue depth lines =
      answerAll depth .eval 0
        (lines.map fun line => Text.dropCarriageReturn (Text.encode line))
        (State.empty.newScope none).2 := by
  rw [dialogue, run, Text.lines_ofLines fun line hline => (h line hline).newline_not_mem]
  rfl

theorem dialogue_nil (depth : Nat) :
    dialogue depth [] = ⟨[], .endOfInput, (State.empty.newScope none).2⟩ := by
  rw [dialogue_eq fun _ h => absurd h List.not_mem_nil]
  rfl

/-- One more line is evaluated in the state that the lines before have left. -/
theorem dialogue_concat {depth : Nat} {lines : List String} {line : String}
    (hlines : ∀ l ∈ lines ++ [line], IsLine l)
    (hending : (dialogue depth lines).ending = .endOfInput) {t : State} {o : Outcome Value}
    {v : Value} (hrun : ((statements line).eval depth 0).run (dialogue depth lines).state = (o, t))
    (hv : o.toValue? = some v) :
    dialogue depth (lines ++ [line]) =
      ⟨(dialogue depth lines).answers ++ [[.printed t.printed, .reply (v.inspect ++ "\n")]],
        .endOfInput, t.takePrinted.2⟩ := by
  obtain ⟨hbefore, hline⟩ := List.forall_mem_append.1 hlines
  rw [dialogue_eq hbefore] at hending hrun ⊢
  rw [dialogue_eq hlines, List.map_append, answerAll_append hending, List.map_singleton,
    (hline line List.mem_cons_self).answerAll_eq hrun hv]

/-- A dialogue that has answered all its lines goes on with others. -/
theorem dialogue_answers_append {depth : Nat} {lines lines' : List String}
    (hlines : ∀ l ∈ lines ++ lines', IsLine l)
    (hending : (dialogue depth lines).ending = .endOfInput) :
    (dialogue depth lines).answers <+: (dialogue depth (lines ++ lines')).answers := by
  obtain ⟨hbefore, -⟩ := List.forall_mem_append.1 hlines
  rw [dialogue_eq hbefore] at hending ⊢
  rw [dialogue_eq hlines, List.map_append, answerAll_append hending]
  exact List.prefix_append _ _

/-- What programs print is in the transcript. -/
theorem Transcript.printed_concat (t : Transcript) (text reply : String) (ending : Ending)
    (s : State) :
    (Transcript.mk (t.answers ++ [[.printed text, .reply reply]]) ending s).printed =
      t.printed ++ text := by
  simp [printed, chunks]

end Repl

end Monkey
