import Monkey.Eval.Depth
import Monkey.Proofs.Dialogue
import Monkey.Proofs.Inert

/-!
# Inputs that go on

A dialogue answers a line before it reads the next one. So what has been said when all the lines
of an input are answered does not depend on what the input goes on with: the transcript of a
longer input begins with that of the shorter one, be the rest lines or not, texts or not
(`Repl.run_of_append`). If the rest begins with a line that is no text, the dialogue ends there and
nothing more is said.

How deep calls may be nested decides only whether a dialogue comes to its end
(`Repl.answerAll_of_le`).
-/

namespace Monkey.Repl

variable {depth depth' : Nat} {mode : Mode} {scope : ScopeId} {s : State}

/-! ## One line -/

/-- The answer to a line comes before those to the lines after it. -/
theorem answerAll_cons_of_respond {line : List UInt8} {lines : List (List UInt8)} {text : String}
    {answer : List Chunk} {t : State} (hdecode : Text.decode? line = some text)
    (h : respond depth mode scope text s = some (answer, t)) :
    answerAll depth mode scope (line :: lines) s =
      (answerAll depth mode scope lines t).after answer := by
  simp only [answerAll, hdecode, h, Transcript.after]

/-- A dialogue that comes to its end has an answer to its first line if this is a text, and comes
    to its end after the answer. -/
theorem exists_respond {line : List UInt8} {lines : List (List UInt8)} {text : String}
    (hdecode : Text.decode? line = some text)
    (h : (answerAll depth mode scope (line :: lines) s).ending ≠ .exhausted) :
    ∃ answer t, respond depth mode scope text s = some (answer, t) ∧
      (answerAll depth mode scope lines t).ending ≠ .exhausted := by
  cases hrespond : respond depth mode scope text s with
  | none =>
    simp only [answerAll, hdecode, hrespond] at h
    exact absurd rfl h
  | some r =>
    rw [answerAll_cons_of_respond hdecode hrespond] at h
    exact ⟨r.1, r.2, rfl, h⟩

/-! ## Depth -/

/-- A line that has an answer has the same one at any greater depth. -/
theorem respond_of_le (hle : depth ≤ depth') {line : String} {r : List Chunk × State}
    (h : respond depth mode scope line s = some r) :
    respond depth' mode scope line s = some r := by
  cases mode with
  | lex | parse => exact h
  | eval =>
    cases hparse : Program.parse line with
    | error errors =>
      simp only [respond, hparse] at h ⊢
      exact h
    | ok p =>
      rcases hrun : (p.eval depth scope).run s with ⟨o, t⟩
      simp only [respond, hparse, hrun] at h
      have hends : ((p.eval depth scope).run s).1 ≠ .exhausted := by
        rw [hrun]
        rintro rfl
        cases h
      have hrun' := (Program.eval_of_le hle p scope s hends).trans hrun
      simp only [respond, hparse, hrun']
      exact h

/-- A dialogue that comes to its end is the same at any greater depth. -/
theorem answerAll_of_le (hle : depth ≤ depth') {lines : List (List UInt8)}
    (h : (answerAll depth mode scope lines s).ending ≠ .exhausted) :
    answerAll depth' mode scope lines s = answerAll depth mode scope lines s := by
  induction lines generalizing s with
  | nil => rfl
  | cons line lines ih =>
    cases hdecode : Text.decode? line with
    | none => simp only [answerAll, hdecode]
    | some text =>
      obtain ⟨answer, t, hrespond, hends⟩ := exists_respond hdecode h
      rw [answerAll_cons_of_respond hdecode hrespond,
        answerAll_cons_of_respond hdecode (respond_of_le hle hrespond), ih hends]

/-! ## Lines that are texts -/

/-- Of lines that are texts, a dialogue that comes to its end answers all. -/
theorem ending_eq_of_texts {lines : List (List UInt8)}
    (htexts : ∀ line ∈ lines, (Text.decode? line).isSome = true)
    (h : (answerAll depth mode scope lines s).ending ≠ .exhausted) :
    (answerAll depth mode scope lines s).ending = .endOfInput := by
  induction lines generalizing s with
  | nil => rfl
  | cons line lines ih =>
    obtain ⟨hline, htexts⟩ := List.forall_mem_cons.1 htexts
    obtain ⟨text, hdecode⟩ := Option.isSome_iff_exists.1 hline
    obtain ⟨answer, t, hrespond, hends⟩ := exists_respond hdecode h
    rw [answerAll_cons_of_respond hdecode hrespond]
    exact ih htexts hends

/-! ## Transcripts -/

namespace Transcript

/-- The transcript with answers before those in it. -/
def afterAll (t : Transcript) (answers : List (List Chunk)) : Transcript :=
  { t with answers := answers ++ t.answers }

/-- A transcript begins with the prompt for the first line, or for the end of the input. -/
theorem chunks_eq_cons (t : Transcript) : ∃ chunks, t.chunks = .reply prompt :: chunks := by
  rw [chunks]
  cases t.answers with
  | nil => exact ⟨_, rfl⟩
  | cons answer answers => exact ⟨_, rfl⟩

/-- The prompt that was left without an answer is the one for the first of the others. -/
theorem chunks_prefix_afterAll (t u : Transcript) :
    t.chunks <+: (u.afterAll t.answers).chunks := by
  obtain ⟨chunks, hu⟩ := u.chunks_eq_cons
  have happend : (u.afterAll t.answers).chunks =
      t.answers.flatMap (.reply prompt :: ·) ++ u.chunks := by
    simp only [afterAll, Transcript.chunks, List.flatMap_append, List.append_assoc]
  rw [happend, hu]
  exact ⟨chunks, by simp [Transcript.chunks]⟩

variable {t t' : Transcript}

/-- A dialogue that goes on has written at least as much. -/
theorem replies_of_prefix (h : t.chunks <+: t'.chunks) :
    ∃ text, t'.replies = t.replies ++ text := by
  obtain ⟨chunks, h⟩ := h
  simp only [replies, ← h, List.map_append, String.join_append]
  exact ⟨_, rfl⟩

/-- In a dialogue that goes on the programs have printed at least as much. -/
theorem printed_of_prefix (h : t.chunks <+: t'.chunks) :
    ∃ text, t'.printed = t.printed ++ text := by
  obtain ⟨chunks, h⟩ := h
  simp only [printed, ← h, List.map_append, String.join_append]
  exact ⟨_, rfl⟩

end Transcript

/-! ## Inputs -/

/-- If a dialogue comes to the end of an input of lines that all have their ends and are texts,
    it has answered them all and has left the last prompt without an answer. What was written
    and what was printed is what is written and printed first on an input that goes on, and all
    of it if this goes on with a line that is no text, at which the dialogue then ends. -/
theorem run_of_append {input : List UInt8} (hended : Text.Ended input)
    (htexts : ∀ line ∈ Text.lines input, (Text.decode? line).isSome = true)
    (hends : (run depth mode input).ending ≠ .exhausted) (hle : depth ≤ depth')
    (others : List UInt8) :
    let t := run depth mode input
    let t' := run depth' mode (input ++ others)
    (t.ending = .endOfInput ∧ t.answers.length = (Text.lines input).length ∧
      t.chunks = t.answers.flatMap (.reply prompt :: ·) ++ [.reply prompt]) ∧
    (t.chunks <+: t'.chunks ∧ (∃ text, t'.replies = t.replies ++ text) ∧
      ∃ text, t'.printed = t.printed ++ text) ∧
    ((∃ line ∈ (Text.lines others).head?, Text.decode? line = none) →
      t'.ending = .notText ∧ t'.replies = t.replies ∧ t'.printed = t.printed) := by
  intro t t'
  have hending : t.ending = .endOfInput := ending_eq_of_texts htexts hends
  have ht : answerAll depth' mode 0 (Text.lines input) (State.empty.newScope none).2 = t :=
    answerAll_of_le hle hends
  let u := answerAll depth' mode 0 (Text.lines others) t.state
  have ht' : t' = u.afterAll t.answers := by
    have happend := answerAll_append (ht.symm ▸ hending) (Text.lines others)
    rw [← Text.lines_append hended, ht] at happend
    exact happend
  have hbegins : t.chunks <+: t'.chunks := ht' ▸ t.chunks_prefix_afterAll u
  refine ⟨⟨hending, length_answers_of_endOfInput hending, rfl⟩,
    ⟨hbegins, Transcript.replies_of_prefix hbegins, Transcript.printed_of_prefix hbegins⟩, ?_⟩
  rintro ⟨line, hline, hdecode⟩
  obtain ⟨lines, hlines⟩ := List.head?_eq_some_iff.1 hline
  have hu : u = ⟨[], .notText, t.state⟩ := by
    simp only [u, hlines, answerAll, hdecode]
  have hanswers : t'.answers = t.answers := by rw [ht', hu, Transcript.afterAll, List.append_nil]
  refine ⟨by rw [ht', hu, Transcript.afterAll], ?_, ?_⟩
  · rw [Transcript.replies, Transcript.chunks, hanswers]
    rfl
  · rw [Transcript.printed, Transcript.chunks, hanswers]
    rfl

/-- A byte that occurs in no text stands at the start of the last line, so that this line is not
    evaluated. -/
theorem run_of_append_notText :
    let input := Text.ofLines ["puts(\"a\")\r", "let x = 2"]
    let others := 255 :: Text.ofLines ["puts(x)"]
    Text.Ended input ∧ (∀ line ∈ Text.lines input, (Text.decode? line).isSome = true) ∧
    (run 0 .eval input).ending ≠ .exhausted ∧ 0 ≤ 1 ∧
    (∃ line ∈ (Text.lines others).head?, Text.decode? line = none) ∧
    (run 1 .eval (input ++ others)).ending = .notText ∧
    (run 1 .eval (input ++ others)).replies = ">> null\n>> null\n>> " ∧
    (run 1 .eval (input ++ others)).printed = "a\n" := by
  intro input others
  have hlines : Text.lines input = [Text.encode "puts(\"a\")", Text.encode "let x = 2"] := by
    rw [Text.lines_ofLines (by decide)]
    decide +kernel
  have hended : Text.Ended input := by
    have hlast : input.getLast? = some Text.newline := by decide +kernel
    rintro b hb
    exact Option.some.inj (hb.symm.trans hlast)
  have htexts : ∀ line ∈ Text.lines input, (Text.decode? line).isSome = true := by
    rw [hlines]
    simp [Text.decode?_encode]
  have hother : ∃ line ∈ (Text.lines others).head?, Text.decode? line = none := by
    have hothers : Text.lines others = [255 :: Text.encode "puts(x)"] := by
      have hcons : others = (255 :: Text.encode "puts(x)") ++ Text.newline :: [] := by
        decide +kernel
      rw [hcons, Text.lines_append_newline (by decide +kernel), Text.lines]
      decide +kernel
    rw [hothers]
    exact ⟨_, rfl, by decide +kernel⟩
  have hrun : run 0 .eval input = answerAll 0 .eval 0
      [Text.encode "puts(\"a\")", Text.encode "let x = 2"] (State.empty.newScope none).2 :=
    congrArg (answerAll 0 .eval 0 · _) hlines
  have hends : (run 0 .eval input).ending ≠ .exhausted := by
    rw [hrun]
    decide +kernel
  have hreplies : (run 0 .eval input).replies = ">> null\n>> null\n>> " := by
    rw [hrun]
    decide +kernel
  have hprinted : (run 0 .eval input).printed = "a\n" := by
    rw [hrun]
    decide +kernel
  obtain ⟨-, -, hnotText⟩ := run_of_append hended htexts hends (Nat.zero_le 1) others
  obtain ⟨hending, hreplies', hprinted'⟩ := hnotText hother
  exact ⟨hended, htexts, hends, Nat.zero_le 1, hother, hending, hreplies'.trans hreplies,
    hprinted'.trans hprinted⟩

end Monkey.Repl
