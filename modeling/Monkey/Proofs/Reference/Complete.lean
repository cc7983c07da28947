import Monkey.Proofs.Reference.Sound

/-!
# What can be derived is what evaluation comes to

A result that the rules derive is what evaluation comes to as soon as calls may be nested
deep enough, in the same state (`Eval.Eventually`). With
`Monkey.Proofs.Reference.Sound` this gives the main statement
(`Reference.run_iff_yields`): where no value can be reached that is on its way out of a
function, evaluation and the rules agree.
-/

namespace Monkey

open Eval Reference

namespace Eval

variable {α β : Type} {I : State → Prop} {S : Value → Prop} {Q : α → Prop}
  {m m' : Nat → Eval α} {k : Nat → α → Eval β} {s t u : State}

/-- With calls nested deep enough, the evaluation comes to the result. -/
def Eventually (m : Nat → Eval α) (s : State) (r : Result α) (t : State) : Prop :=
  ∃ n, ∀ depth, n ≤ depth → (m depth).run s = (r.outcome, t)

namespace Eventually

/-- An evaluation that needs no depth comes to its result at once. -/
theorem of_forall {r : Result α} (h : ∀ depth, (m depth).run s = (r.outcome, t)) :
    Eventually m s r t :=
  ⟨0, fun depth _ => h depth⟩

theorem congr {r : Result α} (h : Eventually m s r t) (heq : ∀ depth, m' depth = m depth) :
    Eventually m' s r t := by
  obtain ⟨n, hn⟩ := h
  refine ⟨n, fun depth hdepth => ?_⟩
  rw [heq, hn depth hdepth]

/-- Two parts need no more depth than the one that needs more. -/
theorem bind {a : α} {r : Result β} (hm : Eventually m s (.ok a) t)
    (hk : Eventually (fun depth => k depth a) t r u) :
    Eventually (fun depth => m depth >>= k depth) s r u := by
  obtain ⟨n, hn⟩ := hm
  obtain ⟨n', hn'⟩ := hk
  refine ⟨max n n', fun depth hdepth => ?_⟩
  rw [run_bind, hn depth (by omega)]
  exact hn' depth (by omega)

/-- A signal goes through what would have come after it. -/
theorem bind_signal {g : Signal} (hm : Eventually m s (.error g) t) :
    Eventually (fun depth => m depth >>= k depth) s (.error g) t := by
  obtain ⟨n, hn⟩ := hm
  refine ⟨n, fun depth hdepth => ?_⟩
  rw [run_bind, hn depth hdepth]
  cases g <;> rfl

/-- What is kept for every bound is so for the result. -/
theorem keeps {r : Result α} (h : Eventually m s r t) (hm : ∀ depth, Keeps I S Q (m depth))
    (hs : I s) : I t ∧ r.outcome.Holds S Q := by
  obtain ⟨n, hn⟩ := h
  have hends := hm n hs
  rw [Ends] at hends
  rwa [hn n (Nat.le_refl n)] at hends

theorem exists_depth {r : Result α} (h : Eventually m s r t) :
    ∃ depth, (m depth).run s = (r.outcome, t) := by
  obtain ⟨n, hn⟩ := h
  exact ⟨n, hn n (Nat.le_refl n)⟩

/-- Where no value is on its way out of a function, handing it over changes nothing. -/
theorem bind_give {m : Nat → Eval Value} {r : Result Value} (h : Eventually m s r t)
    (hr : ∀ v, r = .ok v → v.Settled) : Eventually (fun depth => m depth >>= give) s r t := by
  cases r with
  | ok v =>
    refine h.bind (.of_forall fun _ => ?_)
    rw [give_eq_pure (hr v rfl)]
    rfl
  | error g => exact h.bind_signal

/-- A `return` is caught as the rules say. -/
theorem catchReturn {m : Nat → Eval Value} {r : Result Value} (h : Eventually m s r t) :
    Eventually (fun depth => catchReturn (m depth)) s r.caught t := by
  obtain ⟨n, hn⟩ := h
  refine ⟨n, fun depth hdepth => ?_⟩
  rw [run_catchReturn, hn depth hdepth]
  rcases r with (_ | _) | _ <;> rfl

end Eventually

end Eval

/-! ## Derivations -/

variable {C : ScopeId → Prop}

/-- Evaluating an expression leads to no value on its way out of a function. -/
theorem State.Closed.expr_settled {k : ScopeId} (hk : C k) (e : Expr) (depth : Nat) :
    Keeps (State.Settled C) (Value.Confined Value.Settled C) (Value.Confined Value.Settled C)
      (e.eval (Value.apply depth) k) :=
  Expr.eval_keeps (State.Closed.keeping_apply Value.made_settled depth hk) e fun _ _ => trivial

/-- A name is looked up as the rules say. -/
theorem Eval.Eventually.lookup {x : String} {s : State} {r : Result Value} {k : ScopeId}
    (h : NodeYields k (.ident x) [] s r s) : Eventually (fun _ => lookup k x) s r s := by
  refine .of_forall fun _ => ?_
  cases h with
  | bound hv =>
    rw [run_lookup, hv]
    rfl
  | builtin hv hb | unbound hv hb =>
    rw [run_lookup, hv, hb]
    rfl

mutual

/-- An expression comes to what is derived for it. -/
theorem Reference.ExprYields.eventually {k e s r t} : ExprYields k e s r t → State.Settled C s →
    C k → Eventually (fun depth => e.eval (Value.apply depth) k) s r t
  | .node hoperands hnode, hs, hk => by
    have h := hoperands.eventually hs hk
    obtain ⟨ht, hvs⟩ := h.keeps (fun depth => Expr.evalList_keeps
      (State.Closed.keeping_apply Value.made_settled depth hk) _ fun _ _ => trivial) hs
    exact (h.bind (hnode.eventually ht hk hvs)).congr fun _ => Expr.eval_eq_combine _ _ _
  | .signal hoperands, hs, hk =>
    (hoperands.eventually hs hk).bind_signal.congr fun _ => Expr.eval_eq_combine _ _ _
termination_by structural h => h

theorem Reference.OperandsYield.eventually {k es s r t} : OperandsYield k es s r t →
    State.Settled C s → C k → Eventually (fun depth => Expr.evalList (Value.apply depth) es k) s r t
  | .nil, _, _ => .of_forall fun _ => rfl
  | .cons he hes, hs, hk => by
    have h := he.eventually hs hk
    obtain ⟨ht, -⟩ := h.keeps (State.Closed.expr_settled hk _) hs
    exact h.bind ((hes.eventually ht hk).bind (.of_forall fun _ => rfl))
  | .head he, hs, hk => (he.eventually hs hk).bind_signal
  | .tail he hes, hs, hk => by
    have h := he.eventually hs hk
    obtain ⟨ht, -⟩ := h.keeps (State.Closed.expr_settled hk _) hs
    exact h.bind (hes.eventually ht hk).bind_signal
termination_by structural h => h

/-- With its operands having come to values, an expression comes to what is derived for these. -/
theorem Reference.NodeYields.eventually {k e vs s r t} : NodeYields k e vs s r t →
    State.Settled C s → C k → (∀ v ∈ vs, Value.Confined Value.Settled C v) →
    Eventually (fun depth => e.combine (Value.apply depth) k vs) s r t
  | .bound hv, hs, hk, _ => by
    refine (Eventually.lookup (.bound hv)).bind_give ?_
    rintro _ ⟨⟩
    exact (hs.get? hk hv).prop
  | .builtin hv hb, _, _, _ => by
    refine (Eventually.lookup (.builtin hv hb)).bind_give ?_
    rintro _ ⟨⟩
    nofun
  | .unbound hv hb, _, _, _ => (Eventually.lookup (.unbound hv hb)).bind_signal
  | .int, _, _, _ | .str, _, _, _ | .bool, _, _, _ | .function, _, _, _ => .of_forall fun _ => rfl
  | .array, _, _, _ => .of_forall fun _ => rfl
  | .hash hps, hs, hk, _ => (hps.eventually hs hk).bind (.of_forall fun _ => rfl)
  | .hashSignal hps, hs, hk, _ => (hps.eventually hs hk).bind_signal
  | .unary, _, _, _ | .binary, _, _, _ => .of_forall fun _ => run_ofExcept _ _
  | @NodeYields.condYes _ _ _ no _ _ _ _ hv hyes, hs, hk, _ =>
    (hyes.eventually hs hk).congr fun _ => by cases no <;> exact if_pos hv
  | .condNo hv hno, hs, hk, _ =>
    (hno.eventually hs hk).congr fun _ => if_neg (Bool.eq_false_iff.1 hv)
  | .condNone hv, _, _, _ => .of_forall fun _ => by rw [Expr.combine, hv]; rfl
  | .call hcall, hs, hk, hvs => by
    obtain ⟨hf, hargs⟩ := List.forall_mem_cons.1 hvs
    have h := hcall.eventually hs hf hargs
    obtain ⟨-, hr⟩ := h.keeps
      (fun depth => Value.apply_keeps_closed Value.made_settled depth _ _ hf hargs) hs
    refine h.bind_give ?_
    rintro v rfl
    exact Value.Confined.prop hr
  | .index, _, _, hvs => by
    refine (Eventually.of_forall fun _ => run_ofExcept _ _).bind_give fun v hv => ?_
    have hcontainer := hvs _ List.mem_cons_self
    have hS := Value.Confined.inherited (C := C) Value.made_settled
    exact Value.Confined.prop (hS.index hcontainer (Result.eq_ok_of_ofExcept hv))
termination_by structural h => h

theorem Reference.PairsYield.eventually {k entries ps s r t} : PairsYield k entries ps s r t →
    State.Settled C s → C k →
    Eventually (fun depth => Expr.evalPairs (Value.apply depth) entries ps k) s r t
  | .nil, _, _ => .of_forall fun _ => rfl
  | .cons hkey hv hvalue hps, hs, hk => by
    have h := hkey.eventually hs hk
    obtain ⟨ht, -⟩ := h.keeps (State.Closed.expr_settled hk _) hs
    have h' := hvalue.eventually ht hk
    obtain ⟨hu, -⟩ := h'.keeps (State.Closed.expr_settled hk _) ht
    refine h.bind ?_
    simp only [hv]
    exact h'.bind (hps.eventually hu hk)
  | .key hkey, hs, hk => (hkey.eventually hs hk).bind_signal
  | .unusable hkey hv, hs, hk =>
    (hkey.eventually hs hk).bind (.of_forall fun _ => by simp only [hv]; rfl)
  | .value hkey hv hvalue, hs, hk => by
    have h := hkey.eventually hs hk
    obtain ⟨ht, -⟩ := h.keeps (State.Closed.expr_settled hk _) hs
    refine h.bind ?_
    simp only [hv]
    exact (hvalue.eventually ht hk).bind_signal
termination_by structural h => h

theorem Reference.StmtYields.eventually {k st s r t} : StmtYields k st s r t →
    State.Settled C s → C k → Eventually (fun depth => st.eval (Value.apply depth) k) s r t
  | .signal he, hs, hk =>
    (he.eventually hs hk).bind_signal.congr fun _ => Stmt.eval_eq_combine _ _ _
  | .bind he, hs, hk | .ret he, hs, hk => (he.eventually hs hk).bind (.of_forall fun _ => rfl)
  | .expr he, hs, hk => he.eventually hs hk
termination_by structural h => h

theorem Reference.StmtsYield.eventually {k v ss s r t} : StmtsYield k v ss s r t →
    State.Settled C s → C k →
    Eventually (fun depth => Stmt.evalFrom (Value.apply depth) v ss k) s r t
  | .nil, _, _ => .of_forall fun _ => rfl
  | .cons hst hss, hs, hk => by
    have h := hst.eventually hs hk
    obtain ⟨ht, -⟩ := h.keeps (fun depth => Stmt.eval_keeps
      (State.Closed.keeping_apply Value.made_settled depth hk) _ fun _ _ => trivial) hs
    exact h.bind (hss.eventually ht hk)
  | .signal hst, hs, hk => (hst.eventually hs hk).bind_signal
termination_by structural h => h

/-- A call comes to what is derived for it, with one more call nested than its body needs. -/
theorem Reference.CallYields.eventually {f args s r t} : CallYields f args s r t →
    State.Settled C s → Value.Confined Value.Settled C f →
    (∀ v ∈ args, Value.Confined Value.Settled C v) →
    Eventually (fun depth => f.apply depth args) s r t
  | .function hlength hbody, hs, hf, hargs => by
    have henter := hs.enter (hf.refers .closure) hargs
    obtain ⟨n, hn⟩ := (hbody.eventually henter (hs.new (Nat.le_refl _))).catchReturn
    -- The call itself takes one level of nesting.
    refine ⟨n + 1, fun depth hdepth => ?_⟩
    obtain ⟨d, rfl⟩ : ∃ d, depth = d + 1 := ⟨depth - 1, by omega⟩
    rw [Value.run_apply_function hlength]
    exact hn d (by omega)
  | .argumentCount h, _, _, _ => .of_forall fun _ => by rw [Value.apply_function_of_ne h]; rfl
  | .builtin hrun, _, _, _ | .builtinFails hrun, _, _, _ =>
    .of_forall fun _ => by rw [Value.apply_builtin, hrun]; rfl
  | .notCallable h h', _, _, _ => .of_forall fun _ => by rw [Value.apply_of_not_callable h h']; rfl
termination_by structural h => h

end

/-! ## The main statement -/

namespace Reference

variable {k : ScopeId} {p : Program} {s t : State}

/-- A program comes to what its block comes to, where a `return` ends. -/
theorem programYields_iff {r : Except EvalError Value} :
    ProgramYields k p s r t ↔ ∃ r', BlockYields k p s r' t ∧ r'.caught = .ofExcept r := by
  constructor
  · intro h
    cases h with
    | value h => exact ⟨_, h, rfl⟩
    | ret h => exact ⟨_, h, rfl⟩
    | fails h => exact ⟨_, h, rfl⟩
  · rintro ⟨(v | e) | v, h, heq⟩
    · cases r with
      | ok w =>
        obtain rfl := Except.ok.inj heq
        exact .ret h
      | error e => cases heq
    · cases r with
      | ok w => cases heq
      | error e =>
        obtain rfl := Signal.fail.inj (Except.error.inj heq)
        exact .fails h
    · cases r with
      | ok w =>
        obtain rfl := Except.ok.inj heq
        exact .value h
      | error e => cases heq

/-- Where no value can be reached that is on its way out of a function, the evaluation of an
    expression, a statement, a block or a program ends in a result, and in a state, if and
    only if the rules derive them. -/
theorem run_iff_yields (h : s.All Value.Settled (.scope k)) :
    (∀ (e : Expr) (r : Result Value) (t : State),
      (∃ depth, (e.eval (Value.apply depth) k).run s = (r.outcome, t)) ↔ ExprYields k e s r t) ∧
    (∀ (st : Stmt) (r : Result Value) (t : State),
      (∃ depth, (st.eval (Value.apply depth) k).run s = (r.outcome, t)) ↔
        StmtYields k st s r t) ∧
    (∀ (b : Block) (r : Result Value) (t : State),
      (∃ depth, (b.eval (Value.apply depth) k).run s = (r.outcome, t)) ↔
        BlockYields k b s r t) ∧
    ∀ (p : Program) (r : Except EvalError Value) (t : State),
      (∃ depth, (p.eval depth k).run s = ((Result.ofExcept r).outcome, t)) ↔
        ProgramYields k p s r t := by
  have hs := State.Closed.of_all Value.Settled s
  have hsounding depth := State.Closed.sounding (C := fun i => s.All Value.Settled (.scope i))
    (Value.apply_sound depth) h
  have hblock (b : Block) (r : Result Value) (t : State) :
      (∃ depth, (b.eval (Value.apply depth) k).run s = (r.outcome, t)) ↔ BlockYields k b s r t := by
    constructor
    · rintro ⟨depth, hrun⟩
      exact Stmt.evalFrom_sound (hsounding depth) .null b hs hrun
    · exact fun hb => (hb.eventually hs h).exists_depth
  refine ⟨fun e r t => ?_, fun st r t => ?_, hblock, fun p r t => ?_⟩
  · constructor
    · rintro ⟨depth, hrun⟩
      exact Expr.eval_sound (hsounding depth) e hs hrun
    · exact fun he => (he.eventually hs h).exists_depth
  · constructor
    · rintro ⟨depth, hrun⟩
      exact Stmt.eval_sound (hsounding depth) st hs hrun
    · exact fun hst => (hst.eventually hs h).exists_depth
  · rw [programYields_iff]
    constructor
    · rintro ⟨depth, hrun⟩
      obtain ⟨r', hbody, hr⟩ := Result.caught_of_run hrun
      exact ⟨r', (hblock p r' t).1 ⟨depth, hbody⟩, hr⟩
    · rintro ⟨r', hp, hr⟩
      have hcatch := (hp.eventually hs h).catchReturn
      rw [hr] at hcatch
      exact hcatch.exists_depth

/-- In a scope without bindings: a `return` in the second element of an array ends the
    program, so that the third element is not evaluated. -/
theorem run_iff_yields_return :
    let s := (State.empty.newScope none).2
    s.All Value.Settled (.scope 0) ∧
    ProgramYields 0 [.expr (.array [.int 1, .cond (.bool true) [.ret (.int 2)] none, .ident "x"])] s
      (.ok (.int 2)) s := by
  intro s
  have h : s.All Value.Settled (.scope 0) :=
    (State.Closed.empty.newScope fun _ _ => trivial).all_scope trivial
  exact ⟨h, ((run_iff_yields h).2.2.2 _ _ _).1 ⟨0, rfl⟩⟩

end Reference

end Monkey
