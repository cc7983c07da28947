import Monkey.Eval

/-!
# Calls

What applying a value does, one equation for each kind of value. A call of a function,
with as many arguments as it has parameters, is the evaluation of its body from the state
in which the call has been entered (`Value.run_apply_function`): a new scope is there,
within the one that the function was created in, and the parameters are bound in it. Of
parameters of one name, the last counts.
-/

namespace Monkey

open Eval

namespace State

/-- Binds names to values in a scope, in order. -/
def bindAll (s : State) (scope : ScopeId) : List String → List Value → State
  | x :: xs, v :: vs => (s.bind scope x v).bindAll scope xs vs
  | _, _ => s

/-- The state in which the body of a function is evaluated, in a new scope where the
    parameters are bound. -/
def enter (s : State) (c : Closure) (args : List Value) : State :=
  (s.newScope (some c.scope)).2.bindAll s.scopes.size c.params args

@[simp]
theorem size_scopes_bindAll (s : State) (scope : ScopeId) (xs : List String) (vs : List Value) :
    (s.bindAll scope xs vs).scopes.size = s.scopes.size := by
  induction xs generalizing s vs with
  | nil => rfl
  | cons x xs ih =>
    cases vs with
    | nil => rfl
    | cons v vs => rw [bindAll, ih, size_scopes_bind]

/-- A call creates one scope. -/
@[simp]
theorem size_scopes_enter (s : State) (c : Closure) (args : List Value) :
    (s.enter c args).scopes.size = s.scopes.size + 1 := by
  rw [enter, size_scopes_bindAll, size_scopes_newScope]

/-- What becomes of a scope in which names are bound. -/
theorem scopes_bindAll_self {s : State} {scope : ScopeId} {sc : Scope}
    (hsc : s.scopes[scope]? = some sc) {xs : List String} {vs : List Value}
    (hlength : xs.length = vs.length) :
    ∃ sc', (s.bindAll scope xs vs).scopes[scope]? = some sc' ∧ sc'.outer = sc.outer ∧
      ∀ x, x ∈ sc'.names ↔ x ∈ xs ∨ x ∈ sc.names := by
  induction xs generalizing s sc vs with
  | nil => exact ⟨sc, hsc, rfl, by simp⟩
  | cons x xs ih =>
    obtain ⟨v, vs, rfl⟩ := List.exists_cons_of_length_eq_add_one hlength.symm
    have hput : (s.bind scope x v).scopes[scope]? = some (sc.put x v) := by
      rw [scopes_bind_self, hsc]
      rfl
    obtain ⟨sc', hsc', houter, hnames⟩ := ih hput (Nat.succ.inj hlength)
    refine ⟨sc', hsc', houter, fun y => ?_⟩
    rw [hnames, Scope.mem_names_put, List.mem_cons, or_left_comm, or_assoc]

/-- The scope of a call lies within that of the function and binds its parameters. -/
theorem scopes_enter_self (s : State) {c : Closure} {args : List Value}
    (hlength : c.params.length = args.length) :
    ∃ sc, (s.enter c args).scopes[s.scopes.size]? = some sc ∧ sc.outer = some c.scope ∧
      ∀ x, x ∈ sc.names ↔ x ∈ c.params := by
  obtain ⟨sc, hsc, houter, hnames⟩ :=
    scopes_bindAll_self (s.scopes_newScope_self (some c.scope)) hlength
  refine ⟨sc, hsc, houter, fun x => (hnames x).trans ?_⟩
  simp [Scope.names, Assoc.keys]

end State

/-- Binding names to values one after the other leaves all of them bound, and does not fail. -/
theorem Eval.run_bindNames (scope : ScopeId) (xs : List String) (vs : List Value) (s : State) :
    (bindNames scope xs vs).run s = (.value (), s.bindAll scope xs vs) := by
  induction xs generalizing vs s with
  | nil => rfl
  | cons x xs ih =>
    cases vs with
    | nil => rfl
    | cons v vs => exact ih vs (s.bind scope x v)

/-- A call is entered in the next scope. -/
theorem Eval.run_enter (id : ObjectId) (c : Closure) (args : List Value)
    (body : Unit → ScopeId → Eval Value) (s : State) :
    (Recorder.enter id c args body : Eval Value).run s =
      (body () s.scopes.size).run (s.enter c args) := by
  change (bindNames s.scopes.size c.params args >>= fun _ => body () s.scopes.size).run
    (s.newScope (some c.scope)).2 = _
  rw [run_bind, run_bindNames]
  rfl

namespace Value

variable {depth : Nat} {id : ObjectId} {c : Closure} {args : List Value}

/-- A function takes as many arguments as it has parameters. -/
theorem apply_function_of_ne (h : c.params.length ≠ args.length) :
    (function id c).apply depth args = fail (.argumentCount c.params.length args.length) := by
  rw [apply, evaluate.eq_def]
  exact if_pos h

/-- Where no further call may be nested, a call has no outcome. -/
theorem apply_function_zero (h : c.params.length = args.length) :
    (function id c).apply 0 args = exhaust := by
  rw [apply, evaluate.eq_def]
  exact if_neg (not_not_intro h)

/-- A call is the evaluation of the body of the function, from the state in which it has been
    entered and with one call less to be nested. A `return` in the body ends it. -/
theorem run_apply_function (h : c.params.length = args.length) (s : State) :
    ((function id c).apply (depth + 1) args).run s =
      (catchReturn (c.body.eval (Value.apply depth) s.scopes.size)).run (s.enter c args) := by
  rw [apply, evaluate, if_neg (not_not_intro h), run_enter]
  rfl

/-- A built-in function takes care of its arguments itself. -/
theorem apply_builtin {b : Builtin} : (builtin b).apply depth args = b.call args := by
  rw [apply, evaluate.eq_def]
  rfl

/-- Values that are no functions cannot be called. -/
theorem apply_of_not_callable {f : Value} (hfunction : f.kind ≠ .function)
    (hbuiltin : f.kind ≠ .builtin) : f.apply depth args = fail (.notCallable f) := by
  cases f with
  | function => exact absurd rfl hfunction
  | builtin => exact absurd rfl hbuiltin
  | _ => rw [apply, evaluate.eq_def]; rfl

end Value

end Monkey
