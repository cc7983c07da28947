import Monkey.Eval.Related

/-!
# Traces

What an evaluation does on its way. The evaluation of an expression, of a statement and of
the whole program has two *moments*, its start and its end, and the *journal* of a run
lists them all (`Moment`, `Journal`). A tree is evaluated as one that stands at a certain
place in the program (`Occurs`), inside certain function literals.

A trace is an evaluation that keeps a journal (`Traced`): the one that all evaluations are
instances of (`Recorder`), with moments recorded. So the main statement of this module is
that it comes to the same end as the one that records nothing (`Program.erases_trace`). What
a journal says is therefore said about the run.

A function does not say which literal of the program it comes from, as a program may have
several that are alike. The journal does: it has the moment in which the function was
created (`Journal.origin`).
-/

namespace Monkey

/-! ## Places in a program -/

/-- A function literal. -/
structure Literal where
  params : List String
  body : Block

/-- The statements and expressions that an expression is made of, in order. -/
def Expr.children : Expr → List Tree
  | .ident _ | .int _ | .str _ | .bool _ => []
  | .array elements => elements.map .expr
  | .hash pairs => pairs.flatMap fun (k, v) => [.expr k, .expr v]
  | .unary _ e => [.expr e]
  | .binary _ l r => [.expr l, .expr r]
  | .cond c yes no => .expr c :: (yes.map .stmt ++ (no.getD []).map .stmt)
  | .function _ body => body.map .stmt
  | .call callee args => .expr callee :: args.map .expr
  | .index container key => [.expr container, .expr key]

namespace Tree

/-- The trees that a tree is made of, in order. -/
def children : Tree → List Tree
  | program p => p.map .stmt
  | stmt (.bind _ e) | stmt (.ret e) | stmt (.expr e) => [.expr e]
  | expr e => e.children

/-- The function literals around the children of a tree, innermost first, given those
    around the tree. -/
def inside : Tree → List Literal → List Literal
  | expr (.function params body), ctx => ⟨params, body⟩ :: ctx
  | _, ctx => ctx

end Tree

/-- Where a tree stands in a program: its place among its siblings, the place of the tree
    around it, and so on outwards. -/
abbrev Path := List Nat

/-- The tree stands at the path in the program, inside the function literals `ctx`, of
    which the innermost comes first. -/
inductive Occurs (p : Program) : Path → List Literal → Tree → Prop
  | root : Occurs p [] [] (.program p)
  | child {path ctx t i u} : Occurs p path ctx t → t.children[i]? = some u →
      Occurs p (i :: path) (t.inside ctx) u

/-! ## Journals -/

/-- A moment of a run, at which the evaluation of a tree in a scope starts or ends. -/
structure Moment where
  path : Path
  tree : Tree
  scope : ScopeId
  state : State
  /-- How the evaluation of the tree has ended, if it has. -/
  outcome? : Option (Outcome Value)

deriving instance DecidableEq for Closure

/-- The function that has been created, if this is when the evaluation of a literal ends. -/
def Moment.created? (m : Moment) : Option (ObjectId × Closure) :=
  match m.tree, m.outcome? with
  | .expr (.function params body), some (.value (.function id _)) =>
    some (id, ⟨params, body, m.scope⟩)
  | _, _ => none

/-- A function is created by the evaluation of a literal like it, in the scope that it lives in.
    -/
theorem Moment.of_created? {m : Moment} {id : ObjectId} {c : Closure}
    (h : m.created? = some (id, c)) :
    m.tree = .expr (.function c.params c.body) ∧ m.scope = c.scope := by
  unfold created? at h
  split at h
  · next htree _ =>
    obtain ⟨-, rfl⟩ := Prod.mk.inj (Option.some.inj h)
    exact ⟨htree, rfl⟩
  · cases h

/-- The moments of a run so far, the latest first. -/
abbrev Journal := List Moment

namespace Journal

/-- The path of the literal that a function was created from. -/
def origin (j : Journal) (id : ObjectId) (c : Closure) : Path :=
  ((j.find? fun m => m.created? = some (id, c)).map Moment.path).getD []

/-- The origin of a function that has been created is the place of such a moment. -/
theorem exists_origin {j : Journal} {id : ObjectId} {c : Closure}
    (h : ∃ m ∈ j, m.created? = some (id, c)) :
    ∃ m ∈ j, m.created? = some (id, c) ∧ j.origin id c = m.path := by
  obtain ⟨m, hm, hcreated⟩ := h
  have hsome : (j.find? fun m => m.created? = some (id, c)).isSome :=
    List.find?_isSome.2 ⟨m, hm, by simpa using hcreated⟩
  obtain ⟨l, hl⟩ := Option.isSome_iff_exists.1 hsome
  refine ⟨l, List.mem_of_find?_eq_some hl, by simpa using List.find?_some hl, ?_⟩
  rw [origin, hl]
  rfl

/-- At every moment the property holds of it and the moments before. -/
def Always (P : Moment → Journal → Prop) : Journal → Prop
  | [] => True
  | now :: before => P now before ∧ Always P before

end Journal

/-! ## Evaluations that keep a journal -/

/-- Evaluations that keep a journal and end in an `α`, if they end in a value. -/
structure Traced (α : Type) where
  /-- The outcome, the state and the journal after, given the state and the journal before. -/
  run : State → Journal → (Outcome α × State) × Journal

namespace Traced

variable {α β : Type}

instance : Monad Traced where
  pure a := ⟨fun s j => ((.value a, s), j)⟩
  bind m k := ⟨fun s j =>
    match m.run s j with
    | ((.value a, s), j) => (k a).run s j
    | ((.returned v, s), j) => ((.returned v, s), j)
    | ((.failed e, s), j) => ((.failed e, s), j)
    | ((.exhausted, s), j) => ((.exhausted, s), j)⟩

/-- A journal goes on with the second part only if the first ends in a value. -/
theorem run_bind (m : Traced α) (k : α → Traced β) (s : State) (j : Journal) :
    (m >>= k).run s j = match m.run s j with
      | ((.value a, s), j) => (k a).run s j
      | ((.returned v, s), j) => ((.returned v, s), j)
      | ((.failed e, s), j) => ((.failed e, s), j)
      | ((.exhausted, s), j) => ((.exhausted, s), j) := rfl

/-- An evaluation without moments. -/
def lift (m : Eval α) : Traced α :=
  ⟨fun s j => (m.run s, j)⟩

/-- Ends in the value of a `return`, where one is executed. -/
def catchReturn (m : Traced Value) : Traced Value :=
  ⟨fun s j =>
    match m.run s j with
    | ((.returned v, s), j) => ((.value v, s), j)
    | r => r⟩

theorem run_catchReturn (m : Traced Value) (s : State) (j : Journal) :
    (catchReturn m).run s j = match m.run s j with
      | ((.returned v, s), j) => ((.value v, s), j)
      | r => r := rfl

/-- The evaluation of a tree, with its start and its end. -/
def note (path : Path) (tree : Tree) (scope : ScopeId) (m : Traced Value) : Traced Value :=
  ⟨fun s j =>
    let r := m.run s (⟨path, tree, scope, s, none⟩ :: j)
    (r.1, ⟨path, tree, scope, r.1.2, some r.1.1⟩ :: r.2)⟩

/-- The evaluation of the body of a function in the scope of the call, as that of the
    literal which the function was created from. -/
def enter (id : ObjectId) (c : Closure) (args : List Value) (body : Path → ScopeId → Traced Value) :
    Traced Value :=
  ⟨fun s j => (body (j.origin id c) s.scopes.size).run (s.enter c args) j⟩

end Traced

/-- Paths are places. -/
instance : Places Path where
  root := []
  child i path := i :: path
  next
    | [] => []
    | i :: path => (i + 1) :: path

/-- The start and the end of the evaluation of each tree are recorded. -/
instance : Recorder Path Traced where
  lift := Traced.lift
  note := Traced.note
  catching := Traced.catchReturn
  enter := Traced.enter

section

variable (apply : Value → List Value → Traced Value)

/-- Evaluates the expression at the path in a scope, and keeps a journal. -/
def Expr.trace (e : Expr) (path : Path) (scope : ScopeId) : Traced Value :=
  e.evaluate apply path scope

/-- Evaluates expressions, of which the first stands at the path, and keeps a journal. -/
def Expr.traceList (es : List Expr) (path : Path) (scope : ScopeId) : Traced (List Value) :=
  Expr.evaluateList apply es path scope

/-- Evaluates pairs of a key and a value, of which the first key stands at the path, puts them
    into `entries` and keeps a journal. -/
def Expr.tracePairs (entries : List (HashKey × Value × Value)) (ps : List (Expr × Expr))
    (path : Path) (scope : ScopeId) : Traced (List (HashKey × Value × Value)) :=
  Expr.evaluatePairs apply entries ps path scope

/-- Evaluates the statement at the path in a scope, and keeps a journal. -/
def Stmt.trace (s : Stmt) (path : Path) (scope : ScopeId) : Traced Value :=
  s.evaluate apply path scope

/-- Evaluates statements, of which the first stands at the path, and keeps a journal. -/
def Stmt.traceFrom (v : Value) (ss : List Stmt) (path : Path) (scope : ScopeId) : Traced Value :=
  Stmt.evaluateFrom apply v ss path scope

end

/-- Applies a value to arguments, and keeps a journal. -/
def Value.trace (depth : Nat) (callee : Value) (args : List Value) : Traced Value :=
  callee.evaluate depth args

/-- Evaluates a program in a scope, and keeps a journal. -/
def Program.trace (depth : Nat) (p : Program) (scope : ScopeId) : Traced Value :=
  p.evaluate depth scope

namespace Value

variable {depth : Nat} {id : ObjectId} {c : Closure} {args : List Value}

/-- A call that can be entered is the evaluation of a body. -/
theorem trace_function (h : c.params.length = args.length) :
    (function id c).trace (depth + 1) args = Traced.enter id c args fun path scope =>
      Traced.catchReturn (Stmt.traceFrom (Value.trace depth) .null c.body (0 :: path) scope) := by
  rw [trace, evaluate, if_neg (not_not_intro h)]
  rfl

/-- Nothing is recorded of other applications. -/
theorem trace_eq_lift {f : Value}
    (h : ∀ n id c, depth = n + 1 → f = function id c → c.params.length ≠ args.length) :
    f.trace depth args = Traced.lift (f.apply depth args) := by
  cases f with
  | function id c =>
    by_cases hlength : c.params.length = args.length
    · cases depth with
      | zero =>
        rw [apply_function_zero hlength, trace, evaluate, if_neg (not_not_intro hlength)]
        rfl
      | succ n => exact absurd hlength (h n id c rfl rfl)
    · rw [apply_function_of_ne hlength, trace, evaluate.eq_def]
      exact if_pos hlength
  | _ => unfold trace apply evaluate; rfl

/-- Nothing is recorded where no function is applied. -/
theorem trace_of_kind_ne {f : Value} (hf : f.kind ≠ .function) (depth : Nat) (args : List Value) :
    f.trace depth args = Traced.lift (f.apply depth args) := by
  refine trace_eq_lift ?_
  rintro _ _ _ - rfl
  exact absurd rfl hf

/-- Whatever is true of a call that is entered, if it is true of all calls in it, and of an
    application of which nothing is recorded, is true of all applications. -/
theorem trace_induction {P : Nat → Value → List Value → Traced Value → Prop}
    (henter : ∀ depth id c args, c.params.length = args.length →
      (∀ f args, P depth f args (f.trace depth args)) →
      P (depth + 1) (function id c) args (Traced.enter id c args fun path scope =>
        Traced.catchReturn (Stmt.traceFrom (Value.trace depth) .null c.body (0 :: path) scope)))
    (hlift : ∀ depth f args,
      (∀ n id c, depth = n + 1 → f = function id c → c.params.length ≠ args.length) →
      P depth f args (Traced.lift (f.apply depth args)))
    (depth : Nat) (f : Value) (args : List Value) : P depth f args (f.trace depth args) := by
  induction depth generalizing f args with
  | zero =>
    have hne : ∀ n id c, 0 = n + 1 → f = function id c → c.params.length ≠ args.length :=
      fun n _ _ h => absurd h (Nat.succ_ne_zero n).symm
    rw [trace_eq_lift hne]
    exact hlift 0 f args hne
  | succ depth ih =>
    by_cases h : ∃ id c, f = function id c ∧ c.params.length = args.length
    · obtain ⟨id, c, rfl, hlength⟩ := h
      rw [trace_function hlength]
      exact henter depth id c args hlength ih
    · have hne : ∀ n id c, depth + 1 = n + 1 → f = function id c → c.params.length ≠ args.length :=
        fun _ id c _ hf hlength => h ⟨id, c, hf, hlength⟩
      rw [trace_eq_lift hne]
      exact hlift _ f args hne

end Value

/-! ## Traces come to the same end -/

/-- Without its journal the trace is the evaluation. -/
def Traced.Erases {α : Type} (m : Traced α) (n : Eval α) : Prop :=
  ∀ s j, (m.run s j).1 = n.run s

namespace Traced.Erases

variable {α β : Type}

theorem pure (a : α) : Erases (pure a) (pure a) :=
  fun _ _ => rfl

theorem lift (m : Eval α) : Erases (lift m) m :=
  fun _ _ => rfl

/-- Where two parts do not depend on their journals, both together do not. -/
theorem bind {m : Traced α} {n : Eval α} {k : α → Traced β} {l : α → Eval β} (hm : Erases m n)
    (hk : ∀ a, Erases (k a) (l a)) : Erases (m >>= k) (n >>= l) := by
  intro s j
  rw [Traced.run_bind, Eval.run_bind, ← hm s j]
  rcases m.run s j with ⟨⟨a | _ | _ | _, t⟩, j⟩
  · exact hk a t j
  all_goals rfl

theorem catchReturn {m : Traced Value} {n : Eval Value} (hm : Erases m n) :
    Erases (catchReturn m) (Eval.catchReturn n) := by
  intro s j
  rw [Traced.run_catchReturn, Eval.run_catchReturn, ← hm s j]
  rcases m.run s j with ⟨⟨_ | _ | _ | _, _⟩, _⟩ <;> rfl

/-- A moment is noted without effect. -/
theorem note {m : Traced Value} {n : Eval Value} (hm : Erases m n) (path : Path) (tree : Tree)
    (scope : ScopeId) : Erases (note path tree scope m) n :=
  fun s _ => hm s _

end Traced.Erases

open Traced (Erases)

/-- The steps that traces are made of are those of evaluation, with a journal. -/
theorem Traced.Erases.related :
    Recorder.Related fun α (m : Traced α) (n : Eval α) => Erases m n where
  pure a := .pure a
  bind hm hk := hm.bind hk
  lift m := .lift m
  note path _ t scope hm := hm.note path t scope
  catching hm := hm.catchReturn
  enter id c args hbody := fun s j => by
    rw [Eval.run_enter]
    exact hbody (j.origin id c) () s.scopes.size (s.enter c args) j

/-- The trace of a call ends as the call does. -/
theorem Value.erases_trace (depth : Nat) (f : Value) (args : List Value) :
    Erases (f.trace depth args) (f.apply depth args) :=
  Value.evaluate_related Erases.related depth f args

/-- The trace of an expression ends as its evaluation does. -/
theorem Expr.erases_trace (depth : Nat) (e : Expr) (path : Path) (scope : ScopeId) :
    Erases (e.trace (Value.trace depth) path scope) (e.eval (Value.apply depth) scope) :=
  e.evaluate_related Erases.related (Value.erases_trace depth) path () scope

theorem Stmt.erases_traceFrom (depth : Nat) (v : Value) (ss : List Stmt) (path : Path)
    (scope : ScopeId) :
    Erases (Stmt.traceFrom (Value.trace depth) v ss path scope)
      (Stmt.evalFrom (Value.apply depth) v ss scope) :=
  Stmt.evaluateFrom_related Erases.related (Value.erases_trace depth) v ss path () scope

/-- The trace of a program ends as its evaluation does, and in the same state. -/
theorem Program.erases_trace (depth : Nat) (p : Program) (scope : ScopeId) :
    Erases (p.trace depth scope) (p.eval depth scope) :=
  p.evaluate_related Erases.related depth scope

end Monkey
