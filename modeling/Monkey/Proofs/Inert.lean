import Mathlib.Tactic.Choose
import Monkey.Proofs.Lines
import Monkey.Repl

/-!
# Lines with syntax errors

In a dialogue that evaluates its lines, one with syntax errors is answered with a report of
them and does nothing else, whatever statements it has before the errors and after them. So it
can be left out: the other lines have the same answers, and the dialogue ends in the same state
(`Repl.answerAll_marked`).

In the other modes no line does anything, and it has the same answer in every dialogue
(`Repl.respond_of_ne_eval`).
-/

namespace Monkey.Repl

variable {depth : Nat} {mode : Mode} {scope : ScopeId} {s : State}

/-! ## Lines one after the other -/

/-- The transcript with an answer before those in it. -/
def Transcript.after (t : Transcript) (answer : List Chunk) : Transcript :=
  { t with answers := answer :: t.answers }

/-- What is printed in an answer is printed before the rest. -/
theorem Transcript.printed_after (answer : List Chunk) :
    ∃ text, ∀ t : Transcript, (t.after answer).printed = text ++ t.printed := by
  refine ⟨(Transcript.mk [answer] .endOfInput State.empty).printed, fun t => ?_⟩
  simp [after, printed, chunks]

/-- What is written is not printed by a program. -/
theorem Transcript.printed_after_reply (t : Transcript) (text : String) :
    (t.after [.reply text]).printed = t.printed := by
  simp [after, printed, chunks]

/-- A dialogue ends at a line, or it answers the line and goes on, whatever the lines after it
    are. -/
theorem answerAll_cons (depth : Nat) (mode : Mode) (scope : ScopeId) (line : List UInt8)
    (s : State) :
    (∃ ending ≠ .endOfInput, ∀ lines,
      answerAll depth mode scope (line :: lines) s = ⟨[], ending, s⟩) ∨
    ∃ answer t, ∀ lines, answerAll depth mode scope (line :: lines) s =
      (answerAll depth mode scope lines t).after answer := by
  cases hdecode : Text.decode? line with
  | none => exact .inl ⟨.notText, nofun, fun lines => by rw [answerAll, hdecode]⟩
  | some text =>
    cases hrespond : respond depth mode scope text s with
    | none =>
      refine .inl ⟨.exhausted, nofun, fun lines => ?_⟩
      simp only [answerAll, hdecode, hrespond]
    | some r =>
      obtain ⟨answer, t⟩ := r
      refine .inr ⟨answer, t, fun lines => ?_⟩
      simp only [answerAll, hdecode, hrespond, Transcript.after]

/-- A dialogue that gets to the end of its input has answered every line. -/
theorem length_answers_of_endOfInput {lines : List (List UInt8)}
    (h : (answerAll depth mode scope lines s).ending = .endOfInput) :
    (answerAll depth mode scope lines s).answers.length = lines.length := by
  induction lines generalizing s with
  | nil => rfl
  | cons line lines ih =>
    rcases answerAll_cons depth mode scope line s with ⟨ending, hne, hends⟩ | ⟨answer, t, hgoes⟩
    · rw [hends] at h
      exact absurd h hne
    · rw [hgoes] at h ⊢
      exact congrArg (· + 1) (ih h)

/-! ## Lines that are evaluated -/

/-- The line is a text with syntax errors. -/
def Broken (line : List UInt8) : Prop :=
  ∃ text, Text.decode? line = some text ∧ (Program.read text).errors ≠ []

/-- Nothing comes of a line with syntax errors but a report of them. -/
theorem answerAll_cons_of_broken {line : List UInt8} (h : Broken line) (depth : Nat)
    (scope : ScopeId) (s : State) :
    ∃ text, ∀ lines, answerAll depth .eval scope (line :: lines) s =
      (answerAll depth .eval scope lines s).after [.reply text] := by
  obtain ⟨text, hdecode, herrors⟩ := h
  have hparse := Program.parse_eq_error_iff.2 ⟨herrors, rfl⟩
  refine ⟨errorReport (Program.read text).errors, fun lines => ?_⟩
  simp only [answerAll, hdecode, respond, hparse, Transcript.after]

/-- Those of some marked and unmarked things that are marked. -/
def marked {α : Type} (xs : List (α × Bool)) : List α :=
  (xs.filter Prod.snd).map Prod.fst

/-- Without some lines with syntax errors, a dialogue has the same answers to the others, prints
    the same and ends in the same way and state. -/
theorem answerAll_marked {lines : List (List UInt8 × Bool)}
    (h : ∀ line, (line, false) ∈ lines → Broken line) (depth : Nat) (scope : ScopeId)
    (s : State) :
    let all := answerAll depth .eval scope (lines.map Prod.fst) s
    let others := answerAll depth .eval scope (marked lines) s
    others = { all with answers := marked (all.answers.zip (lines.map Prod.snd)) } ∧
      others.printed = all.printed := by
  induction lines generalizing s with
  | nil => exact ⟨rfl, rfl⟩
  | cons first lines ih =>
    obtain ⟨line, mark⟩ := first
    have hlines : ∀ line, (line, false) ∈ lines → Broken line :=
      fun line hline => h line (List.mem_cons_of_mem _ hline)
    cases mark with
    | false =>
      obtain ⟨text, hbroken⟩ := answerAll_cons_of_broken (h line List.mem_cons_self) depth scope s
      obtain ⟨hothers, hprinted⟩ := ih hlines s
      rw [List.map_cons, hbroken]
      exact ⟨hothers, hprinted.trans (Transcript.printed_after_reply _ _).symm⟩
    | true =>
      have hmarked : marked ((line, true) :: lines) = line :: marked lines := rfl
      rw [List.map_cons, hmarked]
      rcases answerAll_cons depth .eval scope line s with ⟨ending, -, hends⟩ | ⟨answer, t, hgoes⟩
      · rw [hends, hends]
        exact ⟨rfl, rfl⟩
      · obtain ⟨hothers, hprinted⟩ := ih hlines t
        obtain ⟨text, htext⟩ := Transcript.printed_after answer
        rw [hgoes, hgoes]
        refine ⟨?_, ?_⟩
        · rw [hothers]
          rfl
        · rw [htext, htext, hprinted]

/-! ## Lines that are not evaluated -/

/-- The lines that are texts, up to the first one that is none. -/
def texts : List (List UInt8) → List String
  | [] => []
  | line :: lines =>
    match Text.decode? line with
    | none => []
    | some text => text :: texts lines

/-- The answer to a line that is not evaluated depends on the line alone. It prints nothing and
    leaves the state as it is. -/
theorem respond_of_ne_eval (h : mode ≠ .eval) (line : String) :
    ∃ answer : List Chunk, (∀ c ∈ answer, ∃ text, c = .reply text) ∧
      ∀ depth scope s, respond depth mode scope line s = some (answer, s) := by
  cases mode with
  | eval => exact absurd rfl h
  | lex =>
    refine ⟨(Token.ofString line).map fun t => .reply (t.render ++ "\n"), fun c hc => ?_,
      fun _ _ _ => rfl⟩
    obtain ⟨t, -, rfl⟩ := List.mem_map.1 hc
    exact ⟨_, rfl⟩
  | parse =>
    cases hparse : Program.parse line with
    | error errors =>
      exact ⟨[.reply (errorReport errors)], List.forall_mem_singleton.2 ⟨_, rfl⟩,
        fun depth scope s => by simp only [respond, hparse]⟩
    | ok p =>
      exact ⟨[.reply (p.render ++ "\n")], List.forall_mem_singleton.2 ⟨_, rfl⟩,
        fun depth scope s => by simp only [respond, hparse]⟩

/-- If the answer to a line is the same in every state and leaves it as it is, a dialogue
    answers all the lines that are texts, up to the first one that is none. -/
theorem answerAll_of_answer {answer : String → List Chunk}
    (h : ∀ line, respond depth mode scope line s = some (answer line, s))
    (lines : List (List UInt8)) :
    answerAll depth mode scope lines s = ⟨(texts lines).map answer,
      if (texts lines).length = lines.length then .endOfInput else .notText, s⟩ := by
  induction lines with
  | nil => rfl
  | cons line lines ih =>
    rw [answerAll, texts]
    cases Text.decode? line with
    | none => rfl
    | some text => simp only [h, ih, List.map_cons, List.length_cons, Nat.add_right_cancel_iff]

/-! ## Inputs -/

/-- In a dialogue that evaluates its lines, any of those with syntax errors can be left out of
    the input: the answers to the others, what is printed, how the dialogue ends and its state in
    the end, hence all names with their values, are the same; and where it gets to the end of the
    input, every line has an answer. In the other modes the answer to a line depends on the line
    alone, and nothing is printed or bound. -/
theorem run_inert :
    (∀ (depth : Nat) (input input' : List UInt8) (lines : List (List UInt8 × Bool)),
      Text.lines input = lines.map Prod.fst → Text.lines input' = marked lines →
      (∀ line, (line, false) ∈ lines → Broken line) →
      let t := run depth .eval input
      let t' := run depth .eval input'
      t'.answers = marked (t.answers.zip (lines.map Prod.snd)) ∧
      t'.printed = t.printed ∧ t'.ending = t.ending ∧ t'.state = t.state ∧
      (t.ending = .endOfInput → t.answers.length = lines.length)) ∧
    ∀ mode ≠ .eval, ∃ answer : String → List Chunk,
      (∀ line, ∀ c ∈ answer line, ∃ text, c = .reply text) ∧
      ∀ (depth : Nat) (input : List UInt8), run depth mode input =
        ⟨(texts (Text.lines input)).map answer,
          if (texts (Text.lines input)).length = (Text.lines input).length then .endOfInput
          else .notText,
          (State.empty.newScope none).2⟩ := by
  refine ⟨fun depth input input' lines hinput hinput' hbroken => ?_, fun mode hmode => ?_⟩
  · obtain ⟨hothers, hprinted⟩ := answerAll_marked hbroken depth 0 (State.empty.newScope none).2
    have ht : run depth .eval input =
        answerAll depth .eval 0 (lines.map Prod.fst) (State.empty.newScope none).2 :=
      congrArg (answerAll depth .eval 0 · _) hinput
    have ht' : run depth .eval input' =
        answerAll depth .eval 0 (marked lines) (State.empty.newScope none).2 :=
      congrArg (answerAll depth .eval 0 · _) hinput'
    rw [ht, ht']
    refine ⟨?_, hprinted, ?_, ?_, fun hending => ?_⟩
    · rw [hothers]
    · rw [hothers]
    · rw [hothers]
    · rw [length_answers_of_endOfInput hending, List.length_map]
  · choose answer hreply hrespond using respond_of_ne_eval hmode
    exact ⟨answer, hreply, fun depth input =>
      answerAll_of_answer (fun line => hrespond line depth 0 _) _⟩

/-- The line that is left out would bind a name anew before its error. -/
theorem run_inert_let :
    let input := Text.ofLines ["let x = 1", "let x = 2; let", "puts(x)"]
    let input' := Text.ofLines ["let x = 1", "puts(x)"]
    let lines := [(Text.encode "let x = 1", true), (Text.encode "let x = 2; let", false),
      (Text.encode "puts(x)", true)]
    Text.lines input = lines.map Prod.fst ∧ Text.lines input' = marked lines ∧
    (∀ line, (line, false) ∈ lines → Broken line) ∧
    (run 0 .eval input').printed = (run 0 .eval input).printed ∧
    (run 0 .eval input').state = (run 0 .eval input).state := by
  intro input input' lines
  have hinput : Text.lines input = lines.map Prod.fst := by
    rw [Text.lines_ofLines (by decide)]
    decide +kernel
  have hinput' : Text.lines input' = marked lines := by
    rw [Text.lines_ofLines (by decide)]
    decide +kernel
  have hbroken : ∀ line, (line, false) ∈ lines → Broken line := by
    intro line hline
    obtain rfl : line = Text.encode "let x = 2; let" := by simpa [lines] using hline
    exact ⟨_, Text.decode?_encode _, by decide +kernel⟩
  obtain ⟨-, hprinted, -, hstate, -⟩ := run_inert.1 0 input input' lines hinput hinput' hbroken
  exact ⟨hinput, hinput', hbroken, hprinted, hstate⟩

end Monkey.Repl
