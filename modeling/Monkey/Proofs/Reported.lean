import Mathlib.Data.List.Permutation
import Monkey.Command
import Monkey.Eval.Depth
import Monkey.Proofs.Lines
import Monkey.Proofs.Reach

/-!
# How scripts end

The report of a script that ends is one of three: of its syntax errors, and then nothing is
evaluated; of the error that its evaluation fails with; or of the value that it ends in. In
the last two cases what has been printed is reported, too.

Which report it is depends on the value that the evaluation hands back. That only a failure
hands back an error takes that no program makes one (`Program.kind_of_value`): it starts
where no value of a host can be reached.
-/

namespace Monkey

/-! ## Errors of scripts -/

/-- The name of a kind is on one line. -/
theorem Token.Kind.newline_not_mem_name (k : Token.Kind) : '\n' ∉ k.name.toList := by
  cases k <;> simp [name]

/-- The wording of a syntax error is a line. -/
theorem SyntaxError.newline_not_mem_message (e : SyntaxError) : '\n' ∉ e.message.toList := by
  cases e with
  | unexpected k t =>
    change '\n' ∉ ("expected next token to be " ++ k.name ++ ", got " ++ t.kind.name).toList
    simp [Token.Kind.newline_not_mem_name]
  | noExpression t =>
    change '\n' ∉ ("no prefix parse function for " ++ t.kind.name ++ " found").toList
    simp [Token.Kind.newline_not_mem_name]

/-- In a new scope a program ends in a value that no host has made, if it ends in one. -/
theorem Program.kind_of_value {depth : Nat} {p : Program} {v : Value} {s : State}
    (h : (p.eval depth 0).run (State.empty.newScope none).2 = (.value v, s)) :
    v.kind ∉ Kind.ofHosts := by
  let P (v : Value) : Prop := v.kind ∉ Kind.ofHosts
  let C (_ : ScopeId) : Prop := True
  have hclosed : State.Closed P C (State.empty.newScope none).2 :=
    State.Closed.empty.newScope fun _ _ => trivial
  have hkeeping : Keeping (State.Closed P C) (Value.Confined P C) (fun _ => True)
      (Value.apply depth) 0 := State.Closed.keeping_apply Value.made_not_ofHosts depth trivial
  have hv := (Program.eval_keeps hkeeping p (fun _ _ => trivial) hclosed).2
  rw [h] at hv
  exact Value.Confined.prop hv

namespace Command

variable {depth depth' : Nat} {source : String} {o o' : Outcome Value} {s s' : State}

/-! ## Evaluations of scripts -/

/-- The script is parsed and evaluated in a new scope, with this outcome and this state. -/
def Evaluates (depth : Nat) (source : String) (o : Outcome Value) (s : State) : Prop :=
  ∃ p, Program.parse source = .ok p ∧
    (p.eval depth 0).run (State.empty.newScope none).2 = (o, s)

namespace Evaluates

/-- A source that is evaluated has one outcome. -/
theorem unique (h : Evaluates depth source o s) (h' : Evaluates depth source o' s') :
    o = o' ∧ s = s' := by
  obtain ⟨p, hp, hrun⟩ := h
  obtain ⟨p', hp', hrun'⟩ := h'
  obtain rfl : p = p' := Except.ok.inj (hp.symm.trans hp')
  exact Prod.mk.inj (hrun.symm.trans hrun')

/-- A source that is evaluated has no syntax errors. -/
theorem errors_eq (h : Evaluates depth source o s) : (Program.read source).errors = [] := by
  obtain ⟨p, hp, -⟩ := h
  exact (Program.parse_eq_ok_iff.1 hp).1

/-- An evaluation that ends does so at any greater depth. -/
theorem of_le (h : Evaluates depth source o s) (ho : o ≠ .exhausted) (hle : depth ≤ depth') :
    Evaluates depth' source o s := by
  obtain ⟨p, hp, hrun⟩ := h
  refine ⟨p, hp, (Program.eval_of_le hle p 0 _ fun hexhausted => ho ?_).trans hrun⟩
  rwa [hrun] at hexhausted

/-- The value that a script ends in is made by no host. -/
theorem kind_of_value {v : Value} (h : Evaluates depth source (.value v) s) :
    v.kind ∉ Kind.ofHosts := by
  obtain ⟨p, -, hrun⟩ := h
  exact Program.kind_of_value hrun

/-- A source never ends in a value on its way out of a function. -/
theorem not_returned {v : Value} : ¬Evaluates depth source (.returned v) s := by
  rintro ⟨p, -, hrun⟩
  exact Eval.run_catchReturn_ne_returned _ _ v (congrArg Prod.fst hrun)

/-- A script without syntax errors is evaluated. -/
theorem exists_of_errors_eq (h : (Program.read source).errors = []) (depth : Nat) :
    ∃ o s, Evaluates depth source o s :=
  ⟨_, _, _, Program.parse_eq_ok_iff.2 ⟨h, rfl⟩, rfl⟩

end Evaluates

/-! ## Reports -/

/-- Nothing of a script with syntax errors is evaluated. -/
theorem runSource_of_errors (h : (Program.read source).errors ≠ []) :
    runSource depth source =
      some ⟨65, "", String.join ((Program.read source).errors.map fun e => e.message ++ "\n")⟩ := by
  rw [runSource, Program.parse_eq_error_iff.2 ⟨h, rfl⟩]

/-- A source that fails is reported with what has been printed before and with the message of the
    error. -/
theorem runSource_of_failed {e : EvalError} (h : Evaluates depth source (.failed e) s) :
    runSource depth source = some ⟨70, s.printed, "ERROR: " ++ e.message ++ "\n"⟩ := by
  obtain ⟨p, hp, hrun⟩ := h
  have hscope : (State.empty.newScope none).1 = 0 := rfl
  simp only [runSource, hp, hscope, hrun, Outcome.toValue?, Option.map_some]

/-- A value that a script ends in is not taken for a failure. -/
theorem runSource_of_value {v : Value} (h : Evaluates depth source (.value v) s) :
    runSource depth source = some ⟨0, s.printed ++ v.inspect ++ "\n", ""⟩ := by
  have hkind := h.kind_of_value
  obtain ⟨p, hp, hrun⟩ := h
  have hscope : (State.empty.newScope none).1 = 0 := rfl
  simp only [runSource, hp, hscope, hrun, Outcome.toValue?, Option.map_some]
  split
  · exact absurd (List.mem_cons_of_mem _ List.mem_cons_self) hkind
  · rfl

/-- The bytes in the file of a script are those of its text. -/
theorem runScript_encode (depth : Nat) (file source : String) :
    runScript depth file (.ok (Text.encode source)) = runSource depth source := by
  rw [runScript, Text.decode?_encode]

/-- A script whose evaluation ends, if it is evaluated, has one of three reports, however much
    deeper its calls may be nested. It is one of syntax errors exactly if there are any: each of
    them is a line, in the order in which they have been noted, and nothing has been printed.
    Otherwise it is one of a failure exactly if the evaluation in a new scope fails, with what
    has been printed until then and the error, and else one of the value, after all that has
    been printed. -/
theorem runScript_ends (h : ∀ s, ¬Evaluates depth source .exhausted s) (file : String) :
    let errors := (Program.read source).errors
    ∃ report,
      (∀ depth' ≥ depth, runScript depth' file (.ok (Text.encode source)) = some report) ∧
      (report.exit = 65 ∨ report.exit = 70 ∨ report.exit = 0) ∧
      (report.exit = 65 ↔ errors ≠ []) ∧
      (errors ≠ [] → report.stdout = "" ∧
        report.stderr = String.join (errors.map fun e => e.message ++ "\n") ∧
        ∀ e ∈ errors, '\n' ∉ e.message.toList) ∧
      (report.exit = 70 ↔ ∃ e s, Evaluates depth source (.failed e) s) ∧
      (∀ e s, Evaluates depth source (.failed e) s →
        report.stdout = s.printed ∧ report.stderr = "ERROR: " ++ e.message ++ "\n") ∧
      (report.exit = 0 ↔ ∃ v s, Evaluates depth source (.value v) s) ∧
      ∀ v s, Evaluates depth source (.value v) s →
        report.stdout = s.printed ++ v.inspect ++ "\n" ∧ report.stderr = "" := by
  intro errors
  by_cases herrors : errors = []
  · obtain ⟨o, s, ho⟩ := Evaluates.exists_of_errors_eq herrors depth
    cases o with
    | value v =>
      refine ⟨_, fun depth' hle => (runScript_encode depth' file source).trans
        (runSource_of_value (ho.of_le nofun hle)), .inr (.inr rfl), ?_, ?_, ?_, ?_, ?_, ?_⟩
      · exact ⟨nofun, absurd herrors⟩
      · exact absurd herrors
      · exact ⟨nofun, fun ⟨e, s', h'⟩ => nomatch (ho.unique h').1⟩
      · exact fun e s' h' => nomatch (ho.unique h').1
      · exact ⟨fun _ => ⟨v, s, ho⟩, fun _ => rfl⟩
      · intro v' s' h'
        obtain ⟨⟨⟩, rfl⟩ := ho.unique h'
        exact ⟨rfl, rfl⟩
    | failed e =>
      refine ⟨_, fun depth' hle => (runScript_encode depth' file source).trans
        (runSource_of_failed (ho.of_le nofun hle)), .inr (.inl rfl), ?_, ?_, ?_, ?_, ?_, ?_⟩
      · exact ⟨nofun, absurd herrors⟩
      · exact absurd herrors
      · exact ⟨fun _ => ⟨e, s, ho⟩, fun _ => rfl⟩
      · intro e' s' h'
        obtain ⟨⟨⟩, rfl⟩ := ho.unique h'
        exact ⟨rfl, rfl⟩
      · exact ⟨nofun, fun ⟨v, s', h'⟩ => nomatch (ho.unique h').1⟩
      · exact fun v s' h' => nomatch (ho.unique h').1
    | returned v => exact absurd ho Evaluates.not_returned
    | exhausted => exact absurd ho (h s)
  · have hnone {o : Outcome Value} {s : State} (ho : Evaluates depth source o s) : False :=
      herrors ho.errors_eq
    refine ⟨_, fun depth' _ => (runScript_encode depth' file source).trans
      (runSource_of_errors herrors), .inl rfl, ?_, ?_, ?_, ?_, ?_, ?_⟩
    · exact ⟨fun _ => herrors, fun _ => rfl⟩
    · exact fun _ => ⟨rfl, rfl, fun e _ => e.newline_not_mem_message⟩
    · exact ⟨nofun, fun ⟨e, s, ho⟩ => (hnone ho).elim⟩
    · exact fun e s ho => (hnone ho).elim
    · exact ⟨nofun, fun ⟨v, s, ho⟩ => (hnone ho).elim⟩
    · exact fun v s ho => (hnone ho).elim

/-- The script prints a line and then fails. -/
theorem runScript_ends_divisionByZero :
    let source := "puts(\"one\"); 1 / 0"
    (∀ s, ¬Evaluates 0 source .exhausted s) ∧
    ∃ report, (∀ depth, runScript depth "script" (.ok (Text.encode source)) = some report) ∧
      report.exit = 70 ∧ report.stdout = "one\n" ∧
      report.stderr = "ERROR: " ++ EvalError.divisionByZero.message ++ "\n" := by
  intro source
  let p : Program :=
    [.expr (.call (.ident "puts") [.str "one"]), .expr (.binary .div (.int 1) (.int 0))]
  have hp : Program.parse source = .ok p :=
    Program.parse_eq_ok_iff.2 ⟨List.isEmpty_iff.1 (by decide +kernel), by decide +kernel⟩
  have hfailed : Evaluates 0 source (.failed .divisionByZero)
      ((State.empty.newScope none).2.print "one\n") := ⟨p, hp, by cbv⟩
  have hends : ∀ s, ¬Evaluates 0 source .exhausted s := by
    intro s hs
    cases (hfailed.unique hs).1
  refine ⟨hends, ?_⟩
  obtain ⟨report, hreport, -, -, -, hexit, hfailure, -⟩ := runScript_ends hends "script"
  have htexts := hfailure _ _ hfailed
  exact ⟨report, fun depth => hreport depth (Nat.zero_le depth), hexit.2 ⟨_, _, hfailed⟩,
    htexts.1, htexts.2⟩

end Command

end Monkey
