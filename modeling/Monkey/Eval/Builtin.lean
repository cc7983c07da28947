import Monkey.Eval.Outcome

/-!
# Built-in functions

The functions that every program can call. Each wants a number of arguments, which
it sees to first, and the first of them to be of a certain kind. Arrays are never
changed: `tail` and `push` create new ones.

* `len` gives the number of bytes of a text or of elements of an array;
* `first`, `last` and `tail` take an array apart, and give `null` for one without
  elements;
* `push` puts an element after those of an array;
* `puts` and `print` print all their arguments, each on a line, and give `null`.
-/

namespace Monkey.Builtin

open Eval

/-- The elements of an argument that has to be an array. -/
def elements (b : Builtin) : Value → Eval (List Value)
  | .array _ elements => pure elements
  | v => fail (.expectedArray b v)

/-- Prints every value on a line. -/
def printAll : List Value → Eval Unit
  | [] => pure ()
  | v :: vs => do
    printLine v.inspect
    printAll vs

/-- Calls a built-in function. -/
def call (b : Builtin) (args : List Value) : Eval Value :=
  match b, args with
  | puts, args => do printAll args; return .null
  | print, args => do printAll args; return .null
  | len, [.str text] => pure (.int (.ofNat text.utf8ByteSize))
  | len, [.array _ elements] => pure (.int (.ofNat elements.length))
  | len, [v] => fail (.unsupportedArgument len v)
  | first, [v] => do return (← elements first v).head?.getD .null
  | last, [v] => do return (← elements last v).getLast?.getD .null
  | tail, [v] => do
    match ← elements tail v with
    | [] => return .null
    | _ :: rest => newArray rest
  | push, [v, x] => do newArray ((← elements push v) ++ [x])
  | push, args => fail (.argumentCount 2 args.length)
  | _, args => fail (.argumentCount 1 args.length)

/-- The number of arguments that a built-in function wants, if it does not take any number
    of them. -/
def arity? : Builtin → Option Nat
  | puts | print => none
  | len | first | last | tail => some 1
  | push => some 2

/-- The number of arguments is seen to before anything else. -/
theorem call_of_length_ne {b : Builtin} {n : Nat} (hb : b.arity? = some n) {args : List Value}
    (h : args.length ≠ n) : b.call args = fail (.argumentCount n args.length) := by
  cases b with
  | puts | print => cases hb
  | push =>
    obtain rfl := Option.some.inj hb
    rcases args with _ | ⟨_, _ | ⟨_, _ | _⟩⟩ <;> first | exact absurd rfl h | simp [call]
  | len | first | last | tail =>
    obtain rfl := Option.some.inj hb
    rcases args with _ | ⟨_, _ | _⟩ <;> first | exact absurd rfl h | simp [call]

end Monkey.Builtin
