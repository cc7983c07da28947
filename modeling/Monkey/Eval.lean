import Monkey.Eval.Builtin

/-!
# Evaluation

The values of expressions, statements and programs. Operands are evaluated from
left to right, and each construct as far as it is needed: a condition before the
block that it chooses, the callee before the arguments, a key before the value
that it stands for.

Evaluation is by recursion on the tree, given how a value is applied to arguments
(`Expr.evaluate`). Applying a function goes on to another tree, its body, so
`Value.evaluate` bounds how deep such calls may be nested: an evaluation that keeps
within the bound has the same outcome under every greater one, and one that does not
ends in `Outcome.exhausted`.

Functions are evaluated in a new scope within the one that they were created in.
Blocks that belong to no function have no scope of their own.

What is recorded on the way is left open (`Recorder`). A program is run by evaluations
that record nothing, those of `Eval` (`Program.eval`).
-/

namespace Monkey

open Eval

/-- Binds names to values in a scope, in order. -/
def Eval.bindNames (scope : ScopeId) : List String → List Value → Eval Unit
  | x :: xs, v :: vs => do
    bindName scope x v
    bindNames scope xs vs
  | _, _ => pure ()

/-! ## Recorders -/

/-- A part of a program that is evaluated, or all of it. -/
inductive Tree where
  | program (p : Program)
  | stmt (s : Stmt)
  | expr (e : Expr)
  deriving DecidableEq

/-- Places in a program, as far as one is told from another. -/
class Places (Place : Type) where
  /-- The place of the program. -/
  root : Place
  /-- The place of the `i`-th of the trees that the one at a place is made of. -/
  child (i : Nat) : Place → Place
  /-- The place after another one. -/
  next : Place → Place

/-- Evaluations that may record what happens on the way. -/
class Recorder (Place : outParam Type) (m : Type → Type) extends Monad m where
  /-- An evaluation of which nothing is recorded. -/
  lift {α : Type} : Eval α → m α
  /-- The evaluation of the tree at a place, in a scope. -/
  note : Place → Tree → ScopeId → m Value → m Value
  /-- Ends in the value of a `return`, where one is executed. -/
  catching : m Value → m Value
  /-- The evaluation of the body of a function, which is given the place of the function literal
      and the new scope of the call, where the parameters are bound. -/
  enter : ObjectId → Closure → List Value → (Place → ScopeId → m Value) → m Value

/-- All places are one. -/
instance : Places Unit where
  root := ()
  child _ _ := ()
  next _ := ()

/-- Nothing is recorded. -/
instance : Recorder Unit Eval where
  lift := id
  note _ _ _ := id
  catching := catchReturn
  enter _ c args body := do
    -- The scope of the caller plays no part.
    let scope ← newScope c.scope
    bindNames scope c.params args
    body () scope

open Places Recorder

variable {Place : Type} [Places Place] {m : Type → Type} [Recorder Place m]

/-! ## Trees -/

section

variable (apply : Value → List Value → m Value)

mutual

/-- Evaluates the expression at a place, in a scope. -/
def Expr.evaluate (e : Expr) (place : Place) (scope : ScopeId) : m Value :=
  note place (.expr e) scope <| match e with
    | .ident name => lift do give (← lookup scope name)
    | .int n => pure (.int (.ofNat n))
    | .str text => pure (.str text)
    | .bool b => pure (.bool b)
    | .array elements => do
      let vs ← Expr.evaluateList elements (child 0 place) scope
      lift (newArray vs)
    | .hash pairs => do
      let entries ← Expr.evaluatePairs [] pairs (child 0 place) scope
      lift (newHash entries)
    | .unary op e => do
      let v ← e.evaluate (child 0 place) scope
      lift (ofExcept (Value.unary op v))
    | .binary op l r => do
      let l ← l.evaluate (child 0 place) scope
      let r ← r.evaluate (child 1 place) scope
      lift (ofExcept (Value.binary op l r))
    | .cond c yes none => do
      let c ← c.evaluate (child 0 place) scope
      if c.truthy then Stmt.evaluateFrom .null yes (child 1 place) scope else return .null
    | .cond c yes (some no) => do
      let c ← c.evaluate (child 0 place) scope
      if c.truthy then Stmt.evaluateFrom .null yes (child 1 place) scope
      -- The second block stands after all the statements of the first.
      else Stmt.evaluateFrom .null no (child (1 + yes.length) place) scope
    | .function params body => lift (newFunction ⟨params, body, scope⟩)
    | .call callee args => do
      let callee ← callee.evaluate (child 0 place) scope
      let args ← Expr.evaluateList args (child 1 place) scope
      let v ← apply callee args
      lift (give v)
    | .index container key => do
      let container ← container.evaluate (child 0 place) scope
      let key ← key.evaluate (child 1 place) scope
      lift do give (← ofExcept (Value.index container key))
termination_by structural e

/-- Evaluates expressions one after the other, of which the first stands at the place. -/
def Expr.evaluateList (es : List Expr) (place : Place) (scope : ScopeId) : m (List Value) :=
  match es with
  | [] => pure []
  | e :: es => do
    let v ← e.evaluate place scope
    let vs ← Expr.evaluateList es (next place) scope
    return v :: vs
termination_by structural es

/-- Evaluates pairs of a key and a value one after the other, of which the first key stands at
    the place, and puts them into `entries`. A key that is no key of a hash is an error, before
    its value is evaluated. -/
def Expr.evaluatePairs (entries : List (HashKey × Value × Value)) (pairs : List (Expr × Expr))
    (place : Place) (scope : ScopeId) : m (List (HashKey × Value × Value)) :=
  match pairs with
  | [] => pure entries
  | (k, v) :: pairs => do
    let k ← k.evaluate place scope
    match k.hashKey? with
    | none => lift (fail (.unusableKey k))
    | some key =>
      let v ← v.evaluate (next place) scope
      Expr.evaluatePairs (Assoc.put key (k, v) entries) pairs (next (next place)) scope
termination_by structural pairs

/-- Evaluates the statement at a place, in a scope. -/
def Stmt.evaluate (s : Stmt) (place : Place) (scope : ScopeId) : m Value :=
  note place (.stmt s) scope <| match s with
    | .bind name e => do
      let v ← e.evaluate (child 0 place) scope
      lift (bindName scope name v)
      return .null
    | .ret e => do
      let v ← e.evaluate (child 0 place) scope
      lift (leave v)
    | .expr e => e.evaluate (child 0 place) scope
termination_by structural s

/-- Evaluates statements one after the other, of which the first stands at the place, to the
    value of the last one, or to `v` if there is none. -/
def Stmt.evaluateFrom (v : Value) (ss : List Stmt) (place : Place) (scope : ScopeId) : m Value :=
  match ss with
  | [] => pure v
  | s :: ss => do
    let v ← s.evaluate place scope
    Stmt.evaluateFrom v ss (next place) scope
termination_by structural ss

end

end

/-! ## Calls and programs -/

/-- Applies a value to arguments, with calls nested at most `depth` deep. -/
def Value.evaluate (depth : Nat) (callee : Value) (args : List Value) : m Value :=
  match callee with
  | .function id c =>
    if c.params.length ≠ args.length then
      lift (fail (.argumentCount c.params.length args.length))
    else match depth with
      | 0 => lift exhaust
      | depth + 1 =>
        enter id c args fun place scope =>
          catching (Stmt.evaluateFrom (Value.evaluate depth) .null c.body (child 0 place) scope)
  | .builtin b => lift (b.call args)
  | v => lift (fail (.notCallable v))

/-- Evaluates a program in a scope. A `return` outside all functions ends it. -/
def Program.evaluate (depth : Nat) (p : Program) (scope : ScopeId) : m Value :=
  note root (.program p) scope <|
    catching (Stmt.evaluateFrom (Value.evaluate depth) .null p (child 0 root) scope)

/-! ## Evaluation without records -/

section

variable (apply : Value → List Value → Eval Value)

/-- Evaluates an expression in a scope. -/
def Expr.eval (e : Expr) (scope : ScopeId) : Eval Value :=
  e.evaluate apply () scope

/-- Evaluates expressions one after the other. -/
def Expr.evalList (es : List Expr) (scope : ScopeId) : Eval (List Value) :=
  Expr.evaluateList apply es () scope

/-- Evaluates pairs of a key and a value one after the other and puts them into `entries`. -/
def Expr.evalPairs (entries : List (HashKey × Value × Value)) (pairs : List (Expr × Expr))
    (scope : ScopeId) : Eval (List (HashKey × Value × Value)) :=
  Expr.evaluatePairs apply entries pairs () scope

/-- Evaluates a statement. -/
def Stmt.eval (s : Stmt) (scope : ScopeId) : Eval Value :=
  s.evaluate apply () scope

/-- Evaluates statements one after the other, to the value of the last one, or to `v` if there
    is none. -/
def Stmt.evalFrom (v : Value) (ss : List Stmt) (scope : ScopeId) : Eval Value :=
  Stmt.evaluateFrom apply v ss () scope

/-- Evaluates a block: to the value of its last statement, or to `null` if it has none. -/
def Block.eval (b : Block) (scope : ScopeId) : Eval Value :=
  Stmt.evalFrom apply .null b scope

variable {apply}

/-- A hash is made of the entries of its pairs, from no entry on. -/
theorem Expr.eval_hash_eq (pairs : List (Expr × Expr)) (scope : ScopeId) :
    (Expr.hash pairs).eval apply scope = Expr.evalPairs apply [] pairs scope >>= newHash :=
  rfl

theorem Expr.eval_unary (op : UnaryOp) (e : Expr) (scope : ScopeId) :
    (Expr.unary op e).eval apply scope =
      e.eval apply scope >>= fun v => ofExcept (Value.unary op v) :=
  rfl

/-- The left operand of an operator is evaluated before the right one. -/
theorem Expr.eval_binary (op : BinaryOp) (l r : Expr) (scope : ScopeId) :
    (Expr.binary op l r).eval apply scope =
      l.eval apply scope >>= fun v => r.eval apply scope >>= fun w =>
        ofExcept (Value.binary op v w) :=
  rfl

theorem Expr.evalList_nil (scope : ScopeId) : Expr.evalList apply [] scope = pure [] :=
  rfl

/-- The first expression is evaluated before the others. -/
theorem Expr.evalList_cons (e : Expr) (es : List Expr) (scope : ScopeId) :
    Expr.evalList apply (e :: es) scope =
      e.eval apply scope >>= fun v => Expr.evalList apply es scope >>= fun vs => pure (v :: vs) :=
  rfl

theorem Expr.evalPairs_nil (entries : List (HashKey × Value × Value)) (scope : ScopeId) :
    Expr.evalPairs apply entries [] scope = pure entries :=
  rfl

/-- The value of a pair is evaluated only if its key is a key of a hash. -/
theorem Expr.evalPairs_cons (entries : List (HashKey × Value × Value)) (k v : Expr)
    (pairs : List (Expr × Expr)) (scope : ScopeId) :
    Expr.evalPairs apply entries ((k, v) :: pairs) scope =
      k.eval apply scope >>= fun k => match k.hashKey? with
        | none => fail (.unusableKey k)
        | some key => v.eval apply scope >>= fun v =>
          Expr.evalPairs apply (Assoc.put key (k, v) entries) pairs scope :=
  rfl

theorem Stmt.eval_bind (x : String) (e : Expr) (scope : ScopeId) :
    (Stmt.bind x e).eval apply scope =
      e.eval apply scope >>= fun v => bindName scope x v >>= fun _ => pure .null :=
  rfl

/-- The value of a statement counts only if no other one comes after it. -/
theorem Stmt.evalFrom_cons (v : Value) (s : Stmt) (ss : List Stmt) (scope : ScopeId) :
    Stmt.evalFrom apply v (s :: ss) scope =
      s.eval apply scope >>= fun v => Stmt.evalFrom apply v ss scope :=
  rfl

end

/-- Applies a value to arguments, with calls nested at most `depth` deep. -/
def Value.apply (depth : Nat) (callee : Value) (args : List Value) : Eval Value :=
  callee.evaluate depth args

/-- Evaluates a program in a scope. A `return` outside all functions ends it. -/
def Program.eval (depth : Nat) (p : Program) (scope : ScopeId) : Eval Value :=
  p.evaluate depth scope

/-- A program is evaluated as a block, but that a `return` ends it. -/
theorem Program.eval_eq (depth : Nat) (p : Program) (scope : ScopeId) :
    p.eval depth scope = catchReturn (Block.eval (Value.apply depth) p scope) :=
  rfl

end Monkey
