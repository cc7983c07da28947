import Monkey.Assoc
import Monkey.Value

/-!
# Operators on values

What the operators of the language make of their operands, once these have been
evaluated, and what can go wrong. Arithmetic is that of signed 64-bit words: it
wraps around, and division is towards zero.

An error names what was asked for and carries the values that it was asked of; of
these, only the kinds are told (`EvalError.message`).

Values of one kind can be compared with `==` and `!=`, values of two kinds
cannot: whether they are equal is an error, not `false`.
-/

namespace Monkey

/-! ## Errors -/

/-- Why an evaluation failed. -/
inductive EvalError where
  /-- A name that nothing is bound to. -/
  | unbound (name : String)
  /-- A call of a value that is no function. -/
  | notCallable (v : Value)
  /-- A unary operator on a value of a kind that it has no meaning for. -/
  | unaryOperand (op : UnaryOp) (v : Value)
  /-- A binary operator on values of one kind that it has no meaning for. -/
  | binaryOperands (op : BinaryOp) (l r : Value)
  /-- A binary operator on values of two kinds. -/
  | kindMismatch (op : BinaryOp) (l r : Value)
  | divisionByZero
  /-- A call with too few or too many arguments. -/
  | argumentCount (expected got : Nat)
  /-- An argument of a kind that a built-in function has no meaning for. -/
  | unsupportedArgument (b : Builtin) (v : Value)
  /-- An argument of a built-in function that should be an array. -/
  | expectedArray (b : Builtin) (v : Value)
  /-- A value that cannot be the key of a hash. -/
  | unusableKey (v : Value)
  /-- An index into a value that has none. -/
  | notIndexable (v : Value)

/-- The wording of an error. -/
def EvalError.message : EvalError → String
  | unbound name => "identifier not found: " ++ name
  | notCallable v => "not a function: " ++ v.kind.name
  | unaryOperand op v => "unknown operator: " ++ op.symbol ++ v.kind.name
  | binaryOperands op l r =>
    "unknown operator: " ++ l.kind.name ++ " " ++ op.symbol ++ " " ++ r.kind.name
  | kindMismatch op l r =>
    "type mismatch: " ++ l.kind.name ++ " " ++ op.symbol ++ " " ++ r.kind.name
  | divisionByZero => "division by zero"
  | argumentCount expected got =>
    "wrong number of arguments. got " ++ got.repr ++ ", expected " ++ expected.repr
  | unsupportedArgument b v => "argument to `" ++ b.name ++ "` not supported, got " ++ v.kind.name
  | expectedArray b v => "argument to `" ++ b.name ++ "` must be ARRAY, got " ++ v.kind.name
  | unusableKey v => "unusable as hash key: " ++ v.kind.name
  | notIndexable v => "index operator not supported: " ++ v.kind.name

namespace Value

/-! ## Operators -/

/-- What a unary operator makes of its operand. -/
def unary : UnaryOp → Value → Except EvalError Value
  | .not, v => .ok (.bool !v.truthy)
  | .negate, int n => .ok (.int (-n))
  | .negate, v => .error (.unaryOperand .negate v)

/-- What a binary operator makes of two numbers. -/
def binaryInt : BinaryOp → Int64 → Int64 → Except EvalError Value
  | .add, m, n => .ok (.int (m + n))
  | .sub, m, n => .ok (.int (m - n))
  | .mul, m, n => .ok (.int (m * n))
  | .div, m, n => if n = 0 then .error .divisionByZero else .ok (.int (m / n))
  | .lt, m, n => .ok (.bool (m < n))
  | .gt, m, n => .ok (.bool (m > n))
  | .eq, m, n => .ok (.bool (m == n))
  | .ne, m, n => .ok (.bool (m != n))

/-- What a binary operator makes of two texts. -/
def binaryStr : BinaryOp → String → String → Except EvalError Value
  | .add, s, t => .ok (.str (s ++ t))
  | .eq, s, t => .ok (.bool (s == t))
  | .ne, s, t => .ok (.bool (s != t))
  | op, s, t => .error (.binaryOperands op (.str s) (.str t))

/-- What a binary operator makes of its operands. -/
def binary (op : BinaryOp) : Value → Value → Except EvalError Value
  | int m, int n => binaryInt op m n
  | str s, str t => binaryStr op s t
  | l, r =>
    if l.kind ≠ r.kind then .error (.kindMismatch op l r)
    else match op with
      | .eq => .ok (.bool (l.same r))
      | .ne => .ok (.bool !(l.same r))
      | op => .error (.binaryOperands op l r)

/-- The element of an array at a place counted from zero, or `null` if there is
    none. -/
def element (elements : List Value) (i : Int64) : Value :=
  if i < 0 then null else elements[i.toInt.toNat]?.getD null

/-- What an entry of a hash stands for, or `null` if there is none. -/
def entry (entries : List (HashKey × Value × Value)) (key : HashKey) : Value :=
  ((Assoc.get? key entries).map Prod.snd).getD null

/-- What stands in an array or a hash under an index. -/
def index : Value → Value → Except EvalError Value
  | array _ elements, int i => .ok (element elements i)
  | hash _ entries, k =>
    match k.hashKey? with
    | some key => .ok (entry entries key)
    | none => .error (.unusableKey k)
  | v, _ => .error (.notIndexable v)

end Value

end Monkey
