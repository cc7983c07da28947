import Monkey.Proofs.Reach
import Monkey.Proofs.Reference

/-!
# What evaluation comes to can be derived

However deep calls may be nested, an evaluation that ends within this bound comes to a
result that the rules derive, in the same state.

An evaluation is *sound* for a relation between a state, a result and a state after, if
the relation holds whenever the evaluation ends (`Eval.Sound`). This is closed under
sequencing, so that the proof has one case a construct. The values at hand matter in one
place: a value that is on its way out of a function would go on its way when a
construct has come to it (`Eval.give`), whereas for the rules it is a value like others.
-/

namespace Monkey

open Eval

/-! ## Operands -/

/-- What evaluation does with the values of the operands of an expression. -/
def Expr.combine (apply : Value → List Value → Eval Value) (scope : ScopeId) :
    Expr → List Value → Eval Value
  | .ident name, [] => do give (← lookup scope name)
  | .int n, [] => pure (.int (.ofNat n))
  | .str text, [] => pure (.str text)
  | .bool b, [] => pure (.bool b)
  | .array _, vs => newArray vs
  | .hash pairs, [] => do newHash (← Expr.evalPairs apply [] pairs scope)
  | .unary op _, [v] => ofExcept (Value.unary op v)
  | .binary op _ _, [v, w] => ofExcept (Value.binary op v w)
  | .cond _ yes none, [v] =>
    if v.truthy then Stmt.evalFrom apply .null yes scope else pure .null
  | .cond _ yes (some no), [v] =>
    if v.truthy then Stmt.evalFrom apply .null yes scope else Stmt.evalFrom apply .null no scope
  | .function params body, [] => newFunction ⟨params, body, scope⟩
  | .call _ _, f :: vs => do give (← apply f vs)
  | .index _ _, [v, w] => do give (← ofExcept (Value.index v w))
  | _, _ => exhaust

/-- What evaluation does with the value of the operand of a statement. -/
def Stmt.combine (scope : ScopeId) : Stmt → Value → Eval Value
  | .bind name _, v => do
    bindName scope name v
    return .null
  | .ret _, v => leave v
  | .expr _, v => pure v

/-- An expression is evaluated by its operands first, and then by what is its own. -/
theorem Expr.eval_eq_combine (apply : Value → List Value → Eval Value) (e : Expr)
    (scope : ScopeId) :
    e.eval apply scope = Expr.evalList apply e.operands scope >>= e.combine apply scope := by
  cases e with
  | array es => rfl
  | cond c yes no =>
    cases no <;> simp only [operands, evalList_cons, evalList_nil, bind_assoc, pure_bind] <;> rfl
  | _ =>
    simp only [operands, evalList_cons, evalList_nil, bind_assoc, pure_bind]
    rfl

theorem Stmt.eval_eq_combine (apply : Value → List Value → Eval Value) (st : Stmt)
    (scope : ScopeId) : st.eval apply scope = st.operand.eval apply scope >>= st.combine scope := by
  cases st with
  | bind x e => rfl
  | ret e => rfl
  | expr e => exact (bind_pure _).symm

namespace Reference

/-- How an evaluation ends that comes to the result. -/
def Result.outcome {α : Type} : Result α → Outcome α
  | .ok a => .value a
  | .error (.ret v) => .returned v
  | .error (.fail e) => .failed e

/-- A result that is derived is never that of too deep calls. -/
theorem Result.outcome_ne_exhausted {α : Type} (r : Result α) : r.outcome ≠ .exhausted := by
  rcases r with (_ | _) | _ <;> nofun

/-- How an evaluation ends decides what it comes to. -/
theorem Result.ends_inj {α : Type} {r r' : Result α} {s t : State}
    (h : (r.outcome, s) = (r'.outcome, t)) : r = r' ∧ s = t := by
  obtain ⟨houtcome, rfl⟩ := Prod.mk.inj h
  rcases r with (_ | _) | _ <;> rcases r' with (_ | _) | _ <;> cases houtcome <;> exact ⟨rfl, rfl⟩

theorem run_ofExcept {α : Type} (x : Except EvalError α) (s : State) :
    (ofExcept x).run s = ((Result.ofExcept x).outcome, s) := by
  cases x <;> rfl

theorem Result.eq_ok_of_ofExcept {α : Type} {x : Except EvalError α} {a : α}
    (h : Result.ofExcept x = .ok a) : x = .ok a := by
  cases x with
  | ok b => exact congrArg Except.ok (Except.ok.inj h)
  | error e => cases h

end Reference

/-- A value that is not on its way out of a function is handed on as it is. -/
theorem Eval.give_eq_pure {v : Value} (h : v.kind ≠ .returnValue) : give v = pure v := by
  cases v with
  | ret v => exact absurd rfl h
  | _ => rfl

/-! ## Soundness -/

open Reference

namespace Eval

variable {α β : Type} {I : State → Prop} {S : Value → Prop} {Q : α → Prop}
  {m : Eval α} {k : α → Eval β} {R : State → Result α → State → Prop}

/-- If the evaluation ends in a result, from a state with `I`, then `R` relates the state
    before, the result and the state after. -/
def Sound (I : State → Prop) (m : Eval α) (R : State → Result α → State → Prop) : Prop :=
  ∀ ⦃s r t⦄, I s → m.run s = (r.outcome, t) → R s r t

namespace Sound

/-- An evaluation that always ends is sound for what relates its results. -/
theorem of_run {f : State → Result α × State} (hrun : ∀ s, m.run s = ((f s).1.outcome, (f s).2))
    (h : ∀ s, R s (f s).1 (f s).2) : Sound I m R := by
  intro s r t _ hr
  rw [hrun] at hr
  obtain ⟨rfl, rfl⟩ := Result.ends_inj hr
  exact h s

theorem pure {a : α} (h : ∀ s, R s (.ok a) s) : Sound I (pure a) R :=
  of_run (f := fun s => (.ok a, s)) (fun _ => rfl) h

theorem leave {v : Value} (h : ∀ s, R s (.error (.ret v)) s) : Sound I (leave v) R :=
  of_run (f := fun s => (.error (.ret v), s)) (fun _ => rfl) h

theorem fail {e : EvalError} (h : ∀ s, R s (.error (.fail e)) s) : Sound I (fail e) R :=
  of_run (f := fun s => (.error (.fail e), s)) (fun _ => rfl) h

theorem ofExcept {x : Except EvalError α} (h : ∀ s, R s (.ofExcept x) s) :
    Sound I (ofExcept x) R :=
  of_run (f := fun s => (.ofExcept x, s)) (run_ofExcept x) h

/-- What never ends in a result is sound for anything. -/
theorem exhaust : Sound I exhaust R :=
  fun _ r _ _ hr => absurd (congrArg Prod.fst hr).symm r.outcome_ne_exhausted

theorem mono {R' : State → Result α → State → Prop} (h : Sound I m R)
    (hR : ∀ s r t, R s r t → R' s r t) : Sound I m R' :=
  fun s r t hs hr => hR s r t (h hs hr)

/-- Of what comes after a value, it has to be shown what it relates to the state before
    this value came about. -/
theorem bind {T : State → Result β → State → Prop} (hm : Sound I m R) (hkeeps : Keeps I S Q m)
    (hk : ∀ a, Q a → Sound I (k a) fun s r t => ∀ s', R s' (.ok a) s → T s' r t)
    (hsignal : ∀ {s g t}, R s (.error g) t → T s (.error g) t) : Sound I (m >>= k) T := by
  intro s r t hs hrun
  obtain ⟨hu, ha⟩ := hkeeps hs
  rw [run_bind] at hrun
  -- Evaluation goes on with a value, and leaves out what would go on otherwise.
  rcases hr : m.run s with ⟨a | v | e | _, u⟩ <;> rw [hr] at hrun hu ha
  · exact hk a ha hu hrun s (hm hs (r := .ok a) hr)
  · obtain ⟨rfl, rfl⟩ := Result.ends_inj (r := .error (.ret v)) hrun
    exact hsignal (hm hs (r := .error (.ret v)) hr)
  · obtain ⟨rfl, rfl⟩ := Result.ends_inj (r := .error (.fail e)) hrun
    exact hsignal (hm hs (r := .error (.fail e)) hr)
  · exact absurd (congrArg Prod.fst hrun).symm r.outcome_ne_exhausted

/-- Where no value is on its way out of a function, handing it over changes nothing. -/
theorem bind_give {m : Eval Value} {R : State → Result Value → State → Prop} (hm : Sound I m R)
    (hkeeps : Keeps I S S m) (hne : ∀ v, S v → v.kind ≠ .returnValue) :
    Sound I (m >>= give) R := by
  refine hm.bind hkeeps (fun v hv => ?_) id
  rw [give_eq_pure (hne v hv)]
  exact .pure fun _ _ h => h

end Sound

end Eval

/-! ## Trees -/

section

variable {I : State → Prop} {S : Value → Prop} {apply : Value → List Value → Eval Value}
  {k : ScopeId}

/-- Looking up a name is as the rules say. -/
theorem Eval.lookup_sound (x : String) : Sound I (lookup k x) (NodeYields k (.ident x) []) := by
  intro s r t _ hrun
  rw [run_lookup] at hrun
  split at hrun
  · next v hv =>
    obtain ⟨rfl, rfl⟩ := Result.ends_inj (r := .ok v) hrun
    exact .bound hv
  · next b hv hb =>
    obtain ⟨rfl, rfl⟩ := Result.ends_inj (r := .ok (Value.builtin b)) hrun
    exact .builtin hv hb
  · next hv hb =>
    obtain ⟨rfl, rfl⟩ := Result.ends_inj (r := .error (.fail (.unbound x))) hrun
    exact .unbound hv hb

/-- The first operand is evaluated before the others, as the rules say. -/
theorem Expr.evalList_sound_cons (hkeeping : Keeping I S (fun _ => True) apply k) {e : Expr}
    {es : List Expr} (he : Sound I (e.eval apply k) (ExprYields k e))
    (hes : Sound I (Expr.evalList apply es k) (OperandsYield k es)) :
    Sound I (Expr.evalList apply (e :: es) k) (OperandsYield k (e :: es)) := by
  refine he.bind (Expr.eval_keeps hkeeping e fun _ _ => trivial) (fun v _ => ?_) .head
  refine hes.bind (Expr.evalList_keeps hkeeping es fun _ _ => trivial) (fun vs _ => ?_) ?_
  · exact .pure fun _ _ hvs _ hv => .cons hv hvs
  · exact fun hg _ hv => .tail hv hg

/-- The first pair is evaluated before the others, as the rules say. -/
theorem Expr.evalPairs_sound_cons (hkeeping : Keeping I S (fun _ => True) apply k)
    {key value : Expr} {ps : List (Expr × Expr)} {entries : List (HashKey × Value × Value)}
    (hkey : Sound I (key.eval apply k) (ExprYields k key))
    (hvalue : Sound I (value.eval apply k) (ExprYields k value))
    (hps : ∀ entries, Sound I (Expr.evalPairs apply entries ps k) (PairsYield k entries ps)) :
    Sound I (Expr.evalPairs apply entries ((key, value) :: ps) k)
      (PairsYield k entries ((key, value) :: ps)) := by
  have hkeeps {e : Expr} := Expr.eval_keeps hkeeping e fun _ _ => trivial
  refine hkey.bind hkeeps (fun v _ => ?_) .key
  cases hv : v.hashKey? with
  | none => exact .fail fun _ _ hkey => .unusable hkey hv
  | some h =>
    refine hvalue.bind hkeeps (fun w _ => ?_) fun hg _ hkey => .value hkey hv hg
    exact (hps _).mono fun _ _ _ hps _ hvalue _ hkey => .cons hkey hv hvalue hps

/-- An expression is evaluated by the rules if its operands are, and if what is done with
    their values is. -/
theorem Expr.eval_sound_of (hkeeping : Keeping I S (fun _ => True) apply k) {e : Expr}
    (hoperands : Sound I (Expr.evalList apply e.operands k) (OperandsYield k e.operands))
    (hnode : ∀ vs, (∀ v ∈ vs, S v) → Sound I (e.combine apply k vs) (NodeYields k e vs)) :
    Sound I (e.eval apply k) (ExprYields k e) := by
  rw [eval_eq_combine]
  have hkeeps := Expr.evalList_keeps hkeeping e.operands fun _ _ => trivial
  refine hoperands.bind hkeeps (fun vs hvs => ?_) .signal
  exact (hnode vs hvs).mono fun _ _ _ h _ hvs => .node hvs h

/-- An expression without operands is what is its own. -/
theorem Expr.eval_sound_of_nil {e : Expr} (he : e.operands = [])
    (hnode : Sound I (e.combine apply k []) (NodeYields k e [])) :
    Sound I (e.eval apply k) (ExprYields k e) := by
  rw [eval_eq_combine, he]
  exact hnode.mono fun s r t h => .node (he ▸ .nil) h

theorem Expr.eval_sound_of_one (hkeeping : Keeping I S (fun _ => True) apply k) {e f : Expr}
    (he : e.operands = [f]) (hf : Sound I (f.eval apply k) (ExprYields k f))
    (hnode : ∀ v, Sound I (e.combine apply k [v]) (NodeYields k e [v])) :
    Sound I (e.eval apply k) (ExprYields k e) := by
  have hkeeps := Expr.eval_keeps hkeeping f fun _ _ => trivial
  have heq : e.eval apply k = f.eval apply k >>= fun v => e.combine apply k [v] := by
    rw [eval_eq_combine, he]
    simp [evalList_cons, evalList_nil]
  rw [heq]
  refine hf.bind hkeeps (fun v _ => ?_) fun hg => .signal (he ▸ .head hg)
  exact (hnode v).mono fun _ _ _ h _ hv => .node (he ▸ .cons hv .nil) h

/-- An expression with two operands works on the values of both. -/
theorem Expr.eval_sound_of_two (hkeeping : Keeping I S (fun _ => True) apply k) {e f g : Expr}
    (he : e.operands = [f, g]) (hf : Sound I (f.eval apply k) (ExprYields k f))
    (hg : Sound I (g.eval apply k) (ExprYields k g))
    (hnode : ∀ v w, S v → S w → Sound I (e.combine apply k [v, w]) (NodeYields k e [v, w])) :
    Sound I (e.eval apply k) (ExprYields k e) := by
  have hkeeps {f : Expr} := Expr.eval_keeps hkeeping f fun _ _ => trivial
  have heq : e.eval apply k =
      f.eval apply k >>= fun v => g.eval apply k >>= fun w => e.combine apply k [v, w] := by
    rw [eval_eq_combine, he]
    simp [evalList_cons, evalList_nil]
  rw [heq]
  refine hf.bind hkeeps (fun v hv => ?_) fun hg => .signal (he ▸ .head hg)
  refine hg.bind hkeeps (fun w hw => ?_) fun hg _ hv => .signal (he ▸ .tail hv (.head hg))
  exact (hnode v w hv hw).mono fun _ _ _ h _ hw _ hv => .node (he ▸ .cons hv (.cons hw .nil)) h

/-- A statement works on the value of its operand. -/
theorem Stmt.eval_sound_of (hkeeping : Keeping I S (fun _ => True) apply k) {st : Stmt}
    (hoperand : Sound I (st.operand.eval apply k) (ExprYields k st.operand)) :
    Sound I (st.eval apply k) (StmtYields k st) := by
  rw [eval_eq_combine]
  have hkeeps := Expr.eval_keeps hkeeping st.operand fun _ _ => trivial
  refine hoperand.bind hkeeps (fun v _ => ?_) .signal
  cases st with
  | bind x e =>
    exact .of_run (f := fun s => (.ok .null, s.bind k x v)) (fun _ => rfl) fun _ _ h => .bind h
  | ret e => exact .leave fun _ _ h => .ret h
  | expr e => exact .pure fun _ _ h => .expr h

/-- The steps of evaluation in a scope are sound: they keep to values that are not on
    their way out of a function, and applying values is sound. -/
structure Sounding (I : State → Prop) (S : Value → Prop)
    (apply : Value → List Value → Eval Value) (k : ScopeId) : Prop where
  keeping : Keeping I S (fun _ => True) apply k
  ne_ret (v : Value) : S v → v.kind ≠ .returnValue
  apply {f : Value} {args : List Value} : S f → (∀ v ∈ args, S v) →
    Sound I (apply f args) (CallYields f args)

mutual

/-- What an expression comes to can be derived. -/
theorem Expr.eval_sound (h : Sounding I S apply k) (e : Expr) :
    Sound I (e.eval apply k) (ExprYields k e) := by
  have hkeeping := h.keeping
  have hS := hkeeping.inherited
  match e with
  | .ident x =>
    exact Expr.eval_sound_of_nil rfl ((lookup_sound x).bind_give (hkeeping.lookup_keeps x) h.ne_ret)
  | .int _ => exact Expr.eval_sound_of_nil rfl (.pure fun _ => .int)
  | .str _ => exact Expr.eval_sound_of_nil rfl (.pure fun _ => .str)
  | .bool _ => exact Expr.eval_sound_of_nil rfl (.pure fun _ => .bool)
  | .array es =>
    refine Expr.eval_sound_of hkeeping (Expr.evalList_sound h es) fun vs _ => ?_
    exact .of_run (f := fun s => (.ok (.array s.newId.1 vs), s.newId.2)) (fun _ => rfl)
      fun _ => .array
  | .hash ps =>
    refine Expr.eval_sound_of_nil rfl ?_
    have hentries := Expr.evalPairs_keeps hkeeping [] (fun _ h => absurd h List.not_mem_nil) ps
      fun _ _ => trivial
    refine (Expr.evalPairs_sound h [] ps).bind hentries (fun es _ => ?_) .hashSignal
    exact .of_run (f := fun s => (.ok (.hash s.newId.1 es), s.newId.2)) (fun _ => rfl)
      fun _ _ => .hash
  | .unary _ e =>
    exact Expr.eval_sound_of_one hkeeping rfl (e.eval_sound h) fun v => .ofExcept fun _ => .unary
  | .binary _ l r =>
    refine Expr.eval_sound_of_two hkeeping rfl (l.eval_sound h) (r.eval_sound h) ?_
    exact fun v w _ _ => .ofExcept fun _ => .binary
  | .cond c yes none =>
    refine Expr.eval_sound_of_one hkeeping rfl (c.eval_sound h) fun v => ?_
    cases hv : v.truthy with
    | true =>
      rw [Expr.combine, if_pos hv]
      exact (Stmt.evalFrom_sound h .null yes).mono fun _ _ _ => .condYes hv
    | false =>
      rw [Expr.combine, hv]
      exact .pure fun _ => .condNone hv
  | .cond c yes (some no) =>
    refine Expr.eval_sound_of_one hkeeping rfl (c.eval_sound h) fun v => ?_
    cases hv : v.truthy with
    | true =>
      rw [Expr.combine, if_pos hv]
      exact (Stmt.evalFrom_sound h .null yes).mono fun _ _ _ => .condYes hv
    | false =>
      rw [Expr.combine, hv]
      exact (Stmt.evalFrom_sound h .null no).mono fun _ _ _ => .condNo hv
  | .function params body =>
    refine Expr.eval_sound_of_nil rfl ?_
    exact .of_run (f := fun s => (.ok (.function s.newId.1 ⟨params, body, k⟩), s.newId.2))
      (fun _ => rfl) fun _ => .function
  | .call callee args =>
    have hoperands := Expr.evalList_sound_cons hkeeping (callee.eval_sound h)
      (Expr.evalList_sound h args)
    refine Expr.eval_sound_of hkeeping hoperands fun vs hvs => ?_
    cases vs with
    | nil => exact .exhaust
    | cons f vs =>
      obtain ⟨hf, hvs⟩ := List.forall_mem_cons.1 hvs
      have hcall := (h.apply hf hvs).bind_give (hkeeping.apply hf hvs) h.ne_ret
      exact hcall.mono fun _ _ _ => .call
  | .index container key =>
    refine Expr.eval_sound_of_two hkeeping rfl (container.eval_sound h) (key.eval_sound h) ?_
    intro v w hv hw
    have hvw := List.forall_mem_cons.2 ⟨hv, List.forall_mem_singleton.2 hw⟩
    have hkeeps : Keeps I S S (ofExcept (Value.index v w)) :=
      .ofExcept hvw (fun _ => Value.about_of_index) fun _ => hS.index hv
    have hindex :
        Sound I (ofExcept (Value.index v w)) (NodeYields k (.index container key) [v, w]) :=
      .ofExcept fun _ => .index
    exact hindex.bind_give hkeeps h.ne_ret
termination_by structural e

theorem Expr.evalList_sound (h : Sounding I S apply k) (es : List Expr) :
    Sound I (Expr.evalList apply es k) (OperandsYield k es) := by
  match es with
  | [] => exact .pure fun _ => .nil
  | e :: es =>
    exact Expr.evalList_sound_cons h.keeping (e.eval_sound h) (Expr.evalList_sound h es)
termination_by structural es

theorem Expr.evalPairs_sound (h : Sounding I S apply k)
    (entries : List (HashKey × Value × Value)) (ps : List (Expr × Expr)) :
    Sound I (Expr.evalPairs apply entries ps k) (PairsYield k entries ps) := by
  match ps with
  | [] => exact .pure fun _ => .nil
  | (key, value) :: ps =>
    exact Expr.evalPairs_sound_cons h.keeping (key.eval_sound h) (value.eval_sound h)
      fun entries => Expr.evalPairs_sound h entries ps
termination_by structural ps

theorem Stmt.eval_sound (h : Sounding I S apply k) (st : Stmt) :
    Sound I (st.eval apply k) (StmtYields k st) := by
  match st with
  | .bind _ e | .ret e | .expr e => exact Stmt.eval_sound_of h.keeping (e.eval_sound h)
termination_by structural st

theorem Stmt.evalFrom_sound (h : Sounding I S apply k) (v : Value) (ss : List Stmt) :
    Sound I (Stmt.evalFrom apply v ss k) (StmtsYield k v ss) := by
  match ss with
  | [] => exact .pure fun _ => .nil
  | st :: ss =>
    have hkeeps := Stmt.eval_keeps h.keeping st fun _ _ => trivial
    refine (st.eval_sound h).bind hkeeps (fun w _ => ?_) .signal
    exact (Stmt.evalFrom_sound h w ss).mono fun _ _ _ h _ hw => .cons hw h
termination_by structural ss

end

end

/-! ## Calls -/

theorem Reference.Result.caught_of_run {m : Eval Value} {s t : State} {r : Result Value}
    (h : (catchReturn m).run s = (r.outcome, t)) :
    ∃ r' : Result Value, m.run s = (r'.outcome, t) ∧ r'.caught = r := by
  rw [run_catchReturn] at h
  rcases hr : m.run s with ⟨v | v | e | _, u⟩ <;> rw [hr] at h
  · obtain ⟨rfl, rfl⟩ := Result.ends_inj (r := .ok v) h
    exact ⟨.ok v, rfl, rfl⟩
  · obtain ⟨rfl, rfl⟩ := Result.ends_inj (r := .ok v) h
    exact ⟨.error (.ret v), rfl, rfl⟩
  · obtain ⟨rfl, rfl⟩ := Result.ends_inj (r := .error (.fail e)) h
    exact ⟨.error (.fail e), rfl, rfl⟩
  · exact absurd (congrArg Prod.fst h).symm r.outcome_ne_exhausted

theorem Builtin.call_sound {I : State → Prop} (b : Builtin) (args : List Value) :
    Sound I (b.call args) (CallYields (.builtin b) args) := by
  intro s r t _ hrun
  match r with
  | .ok v => exact .builtin hrun
  | .error (.fail e) => exact .builtinFails hrun
  | .error (.ret v) => exact absurd (congrArg Prod.fst hrun) (b.run_call_ne_returned args s v)

/-- The property of values that they are not on their way out of a function. -/
abbrev Value.Settled (v : Value) : Prop :=
  v.kind ≠ .returnValue

/-- No value that evaluation makes is on its way out of a function. -/
theorem Value.made_settled : Value.Made Value.Settled := by
  rintro k hk v rfl h
  exact hk (h ▸ List.mem_cons_self)

/-- The invariant of calls: from the scopes of the collection `C`, no value can be reached
    that is on its way out of a function. -/
abbrev State.Settled (C : ScopeId → Prop) : State → Prop :=
  State.Closed Value.Settled C

variable {C : ScopeId → Prop}

/-- Evaluation in a scope of a closed collection is sound, given that applying values is. -/
theorem State.Closed.sounding {depth : Nat}
    (happly : ∀ f args, Value.Confined Value.Settled C f →
      (∀ v ∈ args, Value.Confined Value.Settled C v) →
      Sound (State.Settled C) (f.apply depth args) (CallYields f args))
    {k : ScopeId} (hk : C k) :
    Sounding (State.Settled C) (Value.Confined Value.Settled C)
      (Value.apply depth) k where
  keeping := State.Closed.keeping_apply Value.made_settled depth hk
  ne_ret _ hv := hv.prop
  apply := happly _ _

/-- What applying a value comes to, with calls nested as deep as they may be, can be
    derived. -/
theorem Value.apply_sound (depth : Nat) (f : Value) (args : List Value)
    (hf : Value.Confined Value.Settled C f) (hargs : ∀ v ∈ args, Value.Confined Value.Settled C v) :
    Sound (State.Settled C) (f.apply depth args) (CallYields f args) := by
  induction depth using Nat.strongRecOn generalizing f args with
  | _ depth ih =>
    cases f with
    | function id c =>
      by_cases hlength : c.params.length = args.length
      · cases depth with
        | zero =>
          rw [apply_function_zero hlength]
          exact .exhaust
        | succ n =>
          intro s r t hs hrun
          rw [run_apply_function hlength] at hrun
          obtain ⟨r', hbody, rfl⟩ := Result.caught_of_run hrun
          -- The body is evaluated with one level of nesting less, in a scope that is new.
          have hsounding := State.Closed.sounding (ih n (Nat.lt_succ_self n))
            (hs.new (Nat.le_refl s.scopes.size))
          have henter := hs.enter (hf.refers .closure) hargs
          exact .function hlength (Stmt.evalFrom_sound hsounding .null c.body henter hbody)
      · rw [apply_function_of_ne hlength]
        exact .fail fun _ => .argumentCount hlength
    | builtin b =>
      rw [apply_builtin]
      exact b.call_sound args
    | _ =>
      rw [apply_of_not_callable]
      · exact .fail fun _ => .notCallable nofun nofun
      · nofun
      · nofun

end Monkey
