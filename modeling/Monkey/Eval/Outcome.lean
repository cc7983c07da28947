import Monkey.State
import Monkey.Value.Operators

/-!
# Outcomes

How an evaluation ends, and the monad of evaluations: functions from the state
before to an outcome and the state after.

An evaluation that does not end in a value skips all that would go on with the
value: a `return` and an error both leave the constructs around them, whatever
operands or statements these have left. A `return` goes as far as the function
that it is in (`Eval.catchReturn`), an error to the end. Either way the state is
kept as it was left.
-/

namespace Monkey

/-- How an evaluation ends. -/
inductive Outcome (α : Type) where
  | value (a : α)
  /-- A `return` was executed; the value is on its way out of the function. -/
  | returned (v : Value)
  | failed (e : EvalError)
  /-- The calls were nested deeper than they may be. -/
  | exhausted

/-- The value that a host is handed at the end, if there is an end: an error is
    handed over as a value with its message. -/
def Outcome.toValue? : Outcome Value → Option Value
  | value v => some v
  | returned v => some (.ret v)
  | failed e => some (.error e.message)
  | exhausted => none

/-- Evaluations that end in an `α`, if they end in a value. -/
structure Eval (α : Type) where
  /-- The outcome and the state after, given the state before. -/
  run : State → Outcome α × State

namespace Eval

variable {α β : Type}

instance : Monad Eval where
  pure a := ⟨fun s => (.value a, s)⟩
  bind m k := ⟨fun s =>
    match m.run s with
    | (.value a, s) => (k a).run s
    | (.returned v, s) => (.returned v, s)
    | (.failed e, s) => (.failed e, s)
    | (.exhausted, s) => (.exhausted, s)⟩

@[simp]
theorem run_pure (a : α) (s : State) : (pure a : Eval α).run s = (.value a, s) := rfl

/-- What goes on with a value is left out if there is none. -/
theorem run_bind (m : Eval α) (k : α → Eval β) (s : State) :
    (m >>= k).run s = match m.run s with
      | (.value a, s) => (k a).run s
      | (.returned v, s) => (.returned v, s)
      | (.failed e, s) => (.failed e, s)
      | (.exhausted, s) => (.exhausted, s) := rfl

/-- A sequence ends in a value if both of its parts do. -/
theorem run_bind_eq_value_iff {m : Eval α} {k : α → Eval β} {s u : State} {b : β} :
    (m >>= k).run s = (.value b, u) ↔
      ∃ a t, m.run s = (.value a, t) ∧ (k a).run t = (.value b, u) := by
  rw [run_bind]
  rcases m.run s with ⟨a | _ | _ | _, t⟩
  · constructor
    · exact fun h => ⟨a, t, rfl, h⟩
    · rintro ⟨_, _, ⟨⟩, h⟩
      exact h
  all_goals simp

/-- Evaluations are alike if they end alike in every state. -/
theorem ext {m n : Eval α} (h : ∀ s, m.run s = n.run s) : m = n :=
  congrArg Eval.mk (funext h)

instance : LawfulMonad Eval :=
  LawfulMonad.mk' Eval
    (fun m => by
      refine ext fun s => ?_
      change (m >>= pure).run s = m.run s
      rw [run_bind]
      rcases m.run s with ⟨_ | _ | _ | _, _⟩ <;> rfl)
    (fun _ _ => rfl)
    (fun m k l => by
      refine ext fun s => ?_
      simp only [run_bind]
      rcases m.run s with ⟨_ | _ | _ | _, _⟩ <;> rfl)

/-- Ends in an error. -/
def fail (e : EvalError) : Eval α :=
  ⟨fun s => (.failed e, s)⟩

/-- Ends for want of depth. -/
def exhaust : Eval α :=
  ⟨fun s => (.exhausted, s)⟩

/-- Executes a `return`. -/
def leave (v : Value) : Eval α :=
  ⟨fun s => (.returned v, s)⟩

/-- Applies an operation to the state. -/
def onState (f : State → α × State) : Eval α :=
  ⟨fun s => let (a, s) := f s; (.value a, s)⟩

/-- Ends in what an operation on values has come to. -/
def ofExcept : Except EvalError α → Eval α
  | .ok a => pure a
  | .error e => fail e

/-- Hands a value to the construct around: a value on its way out of a function
    goes on its way. -/
def give : Value → Eval Value
  | .ret v => leave v
  | v => pure v

/-- Ends in the value of a `return`, where one is executed. -/
def catchReturn (m : Eval Value) : Eval Value :=
  ⟨fun s =>
    match m.run s with
    | (.returned v, s) => (.value v, s)
    | r => r⟩

@[simp]
theorem run_fail (e : EvalError) (s : State) : (fail e : Eval α).run s = (.failed e, s) := rfl

theorem run_catchReturn (m : Eval Value) (s : State) :
    (catchReturn m).run s = match m.run s with
      | (.returned v, s) => (.value v, s)
      | r => r := rfl

/-- No `return` goes on beyond the place where it is caught. -/
theorem run_catchReturn_ne_returned (m : Eval Value) (s : State) (v : Value) :
    ((catchReturn m).run s).1 ≠ .returned v := by
  rw [run_catchReturn]
  rcases m.run s with ⟨_ | _ | _ | _, _⟩ <;> nofun

/-! ## Operations on the state -/

/-- The value of a name in a scope, or else the built-in function of that name. -/
def lookup (scope : ScopeId) (name : String) : Eval Value :=
  ⟨fun s =>
    match s.get? scope name, Builtin.ofName? name with
    | some v, _ => (.value v, s)
    | none, some b => (.value (.builtin b), s)
    | none, none => (.failed (.unbound name), s)⟩

/-- A name is that of a built-in function only if it is not bound. -/
theorem run_lookup (scope : ScopeId) (name : String) (s : State) :
    (lookup scope name).run s = match s.get? scope name, Builtin.ofName? name with
      | some v, _ => (.value v, s)
      | none, some b => (.value (.builtin b), s)
      | none, none => (.failed (.unbound name), s) := rfl

/-- Creates a scope within another. -/
def newScope (outer : ScopeId) : Eval ScopeId :=
  onState fun s => s.newScope (some outer)

/-- Binds a name in a scope. -/
def bindName (scope : ScopeId) (name : String) (v : Value) : Eval Unit :=
  onState fun s => ((), s.bind scope name v)

/-- Creates an array. -/
def newArray (elements : List Value) : Eval Value := do
  return .array (← onState State.newId) elements

/-- Creates a hash. -/
def newHash (entries : List (HashKey × Value × Value)) : Eval Value := do
  return .hash (← onState State.newId) entries

/-- Creates a function. -/
def newFunction (c : Closure) : Eval Value := do
  return .function (← onState State.newId) c

/-- Prints a line. -/
def printLine (line : String) : Eval Unit :=
  onState fun s => ((), s.print (line ++ "\n"))

end Eval

end Monkey
