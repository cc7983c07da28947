import Monkey.Eval.Call

/-!
# The reference semantics

What an evaluation comes to, said by rules instead of by how it is computed.

Every construct has *operands*, which are evaluated strictly from left to right, and
then does what is its own with their values (`Reference.NodeYields`). What keeps an
operand from having a value is a *signal*: that a `return` was executed or that the
evaluation failed. A signal goes through every construct unchanged. One that a `return`
was executed is caught in two places only, at the call of a function and at the whole
program; one that the evaluation failed is never caught.

There is no bound on how deep calls are nested: what never ends has no derivation. That
evaluation comes to just what can be derived is shown in
`Monkey.Proofs.Reference.Complete`.
-/

namespace Monkey

/-- The expressions whose values a construct works on, in the order of evaluation. Those
    of a hash are not among them, as its keys are looked at in between. -/
def Expr.operands : Expr → List Expr
  | .ident _ | .int _ | .str _ | .bool _ | .hash _ | .function _ _ => []
  | .array elements => elements
  | .unary _ e => [e]
  | .binary _ l r => [l, r]
  | .cond c _ _ => [c]
  | .call callee args => callee :: args
  | .index container key => [container, key]

/-- The expression whose value a statement works on. -/
def Stmt.operand : Stmt → Expr
  | .bind _ e | .ret e | .expr e => e

namespace Reference

/-- What keeps an evaluation from going on with a value. -/
inductive Signal where
  /-- A `return` was executed. -/
  | ret (v : Value)
  /-- The evaluation failed. -/
  | fail (e : EvalError)

/-- What an evaluation comes to: a value of some sort, or a signal. -/
abbrev Result (α : Type) := Except Signal α

/-- What an operation on values comes to. -/
def Result.ofExcept {α : Type} : Except EvalError α → Result α
  | .ok a => .ok a
  | .error e => .error (.fail e)

/-- A `return` ends here; nothing else does. -/
def Result.caught : Result Value → Result Value
  | .error (.ret v) => .ok v
  | r => r

/-! ## Rules -/

mutual

/-- The expression comes to the result, from a state to another. -/
inductive ExprYields : ScopeId → Expr → State → Result Value → State → Prop
  | node {k e s vs t r u} : OperandsYield k e.operands s (.ok vs) t → NodeYields k e vs t r u →
      ExprYields k e s r u
  | signal {k e s g t} : OperandsYield k e.operands s (.error g) t → ExprYields k e s (.error g) t

/-- The operands come to their values, or the first signal among them. -/
inductive OperandsYield : ScopeId → List Expr → State → Result (List Value) → State → Prop
  | nil {k s} : OperandsYield k [] s (.ok []) s
  | cons {k e es s v t vs u} : ExprYields k e s (.ok v) t → OperandsYield k es t (.ok vs) u →
      OperandsYield k (e :: es) s (.ok (v :: vs)) u
  | head {k e es s g t} : ExprYields k e s (.error g) t → OperandsYield k (e :: es) s (.error g) t
  | tail {k e es s v t g u} : ExprYields k e s (.ok v) t → OperandsYield k es t (.error g) u →
      OperandsYield k (e :: es) s (.error g) u

/-- With its operands having come to the values, the expression comes to the result. -/
inductive NodeYields : ScopeId → Expr → List Value → State → Result Value → State → Prop
  | bound {k x s v} : s.get? k x = some v → NodeYields k (.ident x) [] s (.ok v) s
  | builtin {k x s b} : s.get? k x = none → Builtin.ofName? x = some b →
      NodeYields k (.ident x) [] s (.ok (.builtin b)) s
  | unbound {k x s} : s.get? k x = none → Builtin.ofName? x = none →
      NodeYields k (.ident x) [] s (.error (.fail (.unbound x))) s
  | int {k n s} : NodeYields k (.int n) [] s (.ok (.int (.ofNat n))) s
  | str {k text s} : NodeYields k (.str text) [] s (.ok (.str text)) s
  | bool {k b s} : NodeYields k (.bool b) [] s (.ok (.bool b)) s
  | array {k es vs s} :
      NodeYields k (.array es) vs s (.ok (.array s.newId.1 vs)) s.newId.2
  | hash {k ps s entries t} : PairsYield k [] ps s (.ok entries) t →
      NodeYields k (.hash ps) [] s (.ok (.hash t.newId.1 entries)) t.newId.2
  | hashSignal {k ps s g t} : PairsYield k [] ps s (.error g) t →
      NodeYields k (.hash ps) [] s (.error g) t
  | unary {k op e v s} : NodeYields k (.unary op e) [v] s (.ofExcept (Value.unary op v)) s
  | binary {k op l r v w s} :
      NodeYields k (.binary op l r) [v, w] s (.ofExcept (Value.binary op v w)) s
  | condYes {k c yes no v s r t} : v.truthy = true → StmtsYield k .null yes s r t →
      NodeYields k (.cond c yes no) [v] s r t
  | condNo {k c yes no v s r t} : v.truthy = false → StmtsYield k .null no s r t →
      NodeYields k (.cond c yes (some no)) [v] s r t
  | condNone {k c yes v s} : v.truthy = false →
      NodeYields k (.cond c yes none) [v] s (.ok .null) s
  | function {k params body s} : NodeYields k (.function params body) [] s
      (.ok (.function s.newId.1 ⟨params, body, k⟩)) s.newId.2
  | call {k callee args f vs s r t} : CallYields f vs s r t →
      NodeYields k (.call callee args) (f :: vs) s r t
  | index {k container key v w s} :
      NodeYields k (.index container key) [v, w] s (.ofExcept (Value.index v w)) s

/-- The pairs of a hash, put into the entries one after the other, come to all the
    entries. Whether a key can be one is seen before its value is evaluated. -/
inductive PairsYield : ScopeId → List (HashKey × Value × Value) → List (Expr × Expr) → State →
    Result (List (HashKey × Value × Value)) → State → Prop
  | nil {k entries s} : PairsYield k entries [] s (.ok entries) s
  | cons {k entries key value ps s v t h w u r x} : ExprYields k key s (.ok v) t →
      v.hashKey? = some h → ExprYields k value t (.ok w) u →
      PairsYield k (Assoc.put h (v, w) entries) ps u r x →
      PairsYield k entries ((key, value) :: ps) s r x
  | key {k entries key value ps s g t} : ExprYields k key s (.error g) t →
      PairsYield k entries ((key, value) :: ps) s (.error g) t
  | unusable {k entries key value ps s v t} : ExprYields k key s (.ok v) t → v.hashKey? = none →
      PairsYield k entries ((key, value) :: ps) s (.error (.fail (.unusableKey v))) t
  | value {k entries key value ps s v t h g u} : ExprYields k key s (.ok v) t →
      v.hashKey? = some h → ExprYields k value t (.error g) u →
      PairsYield k entries ((key, value) :: ps) s (.error g) u

/-- The statement comes to the result. -/
inductive StmtYields : ScopeId → Stmt → State → Result Value → State → Prop
  | signal {k st s g t} : ExprYields k st.operand s (.error g) t → StmtYields k st s (.error g) t
  | bind {k x e s v t} : ExprYields k e s (.ok v) t →
      StmtYields k (.bind x e) s (.ok .null) (t.bind k x v)
  | ret {k e s v t} : ExprYields k e s (.ok v) t → StmtYields k (.ret e) s (.error (.ret v)) t
  | expr {k e s v t} : ExprYields k e s (.ok v) t → StmtYields k (.expr e) s (.ok v) t

/-- The statements come to the value of the last of them, or the given one if there is
    none, or to the first signal among them. -/
inductive StmtsYield : ScopeId → Value → List Stmt → State → Result Value → State → Prop
  | nil {k v s} : StmtsYield k v [] s (.ok v) s
  | cons {k v st ss s w t r u} : StmtYields k st s (.ok w) t → StmtsYield k w ss t r u →
      StmtsYield k v (st :: ss) s r u
  | signal {k v st ss s g t} : StmtYields k st s (.error g) t →
      StmtsYield k v (st :: ss) s (.error g) t

/-- The value, applied to the arguments, comes to the result. The body of a function is
    evaluated in a new scope within the one that it was created in, where its parameters
    are bound in order. -/
inductive CallYields : Value → List Value → State → Result Value → State → Prop
  | function {id c args s r t} : c.params.length = args.length →
      StmtsYield s.scopes.size .null c.body (s.enter c args) r t →
      CallYields (.function id c) args s r.caught t
  | argumentCount {id c args s} : c.params.length ≠ args.length →
      CallYields (.function id c) args s
        (.error (.fail (.argumentCount c.params.length args.length))) s
  | builtin {b args s v t} : (b.call args).run s = (.value v, t) →
      CallYields (.builtin b) args s (.ok v) t
  | builtinFails {b args s e t} : (b.call args).run s = (.failed e, t) →
      CallYields (.builtin b) args s (.error (.fail e)) t
  | notCallable {f args s} : f.kind ≠ .function → f.kind ≠ .builtin →
      CallYields f args s (.error (.fail (.notCallable f))) s

end

/-- The block comes to the result. -/
abbrev BlockYields (k : ScopeId) (b : Block) : State → Result Value → State → Prop :=
  StmtsYield k .null b

/-- The program comes to the value or fails. -/
inductive ProgramYields (k : ScopeId) (p : Program) (s : State) :
    Except EvalError Value → State → Prop
  | value {v t} : BlockYields k p s (.ok v) t → ProgramYields k p s (.ok v) t
  | ret {v t} : BlockYields k p s (.error (.ret v)) t → ProgramYields k p s (.ok v) t
  | fails {e t} : BlockYields k p s (.error (.fail e)) t → ProgramYields k p s (.error e) t

end Reference

end Monkey
