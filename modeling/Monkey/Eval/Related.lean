import Monkey.Eval.Call

/-!
# Related evaluations

One tree is evaluated twice, and other things are recorded of the two evaluations, or values
are applied in another way. Whatever relates the steps that evaluation is made of
(`Recorder.Related`) relates whole evaluations, as they are one and the same recursion on the
tree: of expressions, statements and blocks (`Expr.evaluate_related` with its companions), of
calls (`Value.evaluate_related`) and of programs (`Program.evaluate_related`).
-/

namespace Monkey

open Places Recorder

variable {Place Place' : Type} [Places Place] [Places Place']
variable {m m' : Type → Type} [Recorder Place m] [Recorder Place' m']

/-- The relation is kept by the steps that evaluation is made of, at whatever places. -/
structure Recorder.Related (R : (α : Type) → m α → m' α → Prop) : Prop where
  pure {α : Type} (a : α) : R _ (pure a) (pure a)
  bind {α β : Type} {x : m α} {y : m' α} {k : α → m β} {l : α → m' β} : R _ x y →
    (∀ a, R _ (k a) (l a)) → R _ (x >>= k) (y >>= l)
  lift {α : Type} (x : Eval α) : R _ (lift x) (lift x)
  note {x : m Value} {y : m' Value} (place : Place) (place' : Place') (t : Tree)
    (scope : ScopeId) : R _ x y → R _ (note place t scope x) (note place' t scope y)
  catching {x : m Value} {y : m' Value} : R _ x y → R _ (catching x) (catching y)
  enter {body : Place → ScopeId → m Value} {body' : Place' → ScopeId → m' Value} (id : ObjectId)
    (c : Closure) (args : List Value) :
    (∀ place place' scope, R _ (body place scope) (body' place' scope)) →
    R _ (enter id c args body) (enter id c args body')

variable {R : (α : Type) → m α → m' α → Prop}

/-! ## Trees -/

section

variable {a : Value → List Value → m Value} {a' : Value → List Value → m' Value}

mutual

/-- Evaluations of one expression are related if those of its parts and calls are. -/
theorem Expr.evaluate_related (h : Related R) (ha : ∀ f vs, R _ (a f vs) (a' f vs)) (e : Expr)
    (place : Place) (place' : Place') (scope : ScopeId) :
    R _ (e.evaluate a place scope) (e.evaluate a' place' scope) := by
  rw [Expr.evaluate.eq_def a, Expr.evaluate.eq_def a']
  refine h.note place place' (.expr e) scope ?_
  match e with
  | .ident _ | .function _ _ => exact h.lift _
  | .int _ | .str _ | .bool _ => exact h.pure _
  | .array es => exact h.bind (Expr.evaluateList_related h ha es _ _ scope) fun _ => h.lift _
  | .hash ps => exact h.bind (Expr.evaluatePairs_related h ha [] ps _ _ scope) fun _ => h.lift _
  | .unary _ e => exact h.bind (e.evaluate_related h ha _ _ scope) fun _ => h.lift _
  | .binary _ l r =>
    refine h.bind (l.evaluate_related h ha _ _ scope) fun _ => ?_
    exact h.bind (r.evaluate_related h ha _ _ scope) fun _ => h.lift _
  | .cond c yes none =>
    refine h.bind (c.evaluate_related h ha _ _ scope) fun v => ?_
    cases v.truthy with
    | true => exact Stmt.evaluateFrom_related h ha .null yes _ _ scope
    | false => exact h.pure _
  | .cond c yes (some no) =>
    refine h.bind (c.evaluate_related h ha _ _ scope) fun v => ?_
    cases v.truthy with
    | true => exact Stmt.evaluateFrom_related h ha .null yes _ _ scope
    | false => exact Stmt.evaluateFrom_related h ha .null no _ _ scope
  | .call f es =>
    refine h.bind (f.evaluate_related h ha _ _ scope) fun f => ?_
    refine h.bind (Expr.evaluateList_related h ha es _ _ scope) fun vs => ?_
    exact h.bind (ha f vs) fun _ => h.lift _
  | .index c k =>
    refine h.bind (c.evaluate_related h ha _ _ scope) fun _ => ?_
    exact h.bind (k.evaluate_related h ha _ _ scope) fun _ => h.lift _
termination_by structural e

/-- Evaluations of the same expressions, one after the other, are related. -/
theorem Expr.evaluateList_related (h : Related R) (ha : ∀ f vs, R _ (a f vs) (a' f vs))
    (es : List Expr) (place : Place) (place' : Place') (scope : ScopeId) :
    R _ (Expr.evaluateList a es place scope) (Expr.evaluateList a' es place' scope) := by
  match es with
  | [] => exact h.pure _
  | e :: es =>
    refine h.bind (e.evaluate_related h ha _ _ scope) fun _ => ?_
    exact h.bind (Expr.evaluateList_related h ha es _ _ scope) fun _ => h.pure _
termination_by structural es

/-- Evaluations of the same pairs are related, whatever has been put before. -/
theorem Expr.evaluatePairs_related (h : Related R) (ha : ∀ f vs, R _ (a f vs) (a' f vs))
    (entries : List (HashKey × Value × Value)) (ps : List (Expr × Expr)) (place : Place)
    (place' : Place') (scope : ScopeId) :
    R _ (Expr.evaluatePairs a entries ps place scope)
      (Expr.evaluatePairs a' entries ps place' scope) := by
  match ps with
  | [] => exact h.pure _
  | (k, v) :: ps =>
    refine h.bind (k.evaluate_related h ha _ _ scope) fun key => ?_
    cases key.hashKey? with
    | none => exact h.lift _
    | some _ =>
      refine h.bind (v.evaluate_related h ha _ _ scope) fun _ => ?_
      exact Expr.evaluatePairs_related h ha _ ps _ _ scope
termination_by structural ps

/-- Evaluations of one statement are related. -/
theorem Stmt.evaluate_related (h : Related R) (ha : ∀ f vs, R _ (a f vs) (a' f vs)) (s : Stmt)
    (place : Place) (place' : Place') (scope : ScopeId) :
    R _ (s.evaluate a place scope) (s.evaluate a' place' scope) := by
  rw [Stmt.evaluate.eq_def a, Stmt.evaluate.eq_def a']
  refine h.note place place' (.stmt s) scope ?_
  match s with
  | .bind _ e =>
    refine h.bind (e.evaluate_related h ha _ _ scope) fun _ => ?_
    exact h.bind (h.lift _) fun _ => h.pure _
  | .ret e => exact h.bind (e.evaluate_related h ha _ _ scope) fun _ => h.lift _
  | .expr e => exact e.evaluate_related h ha _ _ scope
termination_by structural s

theorem Stmt.evaluateFrom_related (h : Related R) (ha : ∀ f vs, R _ (a f vs) (a' f vs))
    (v : Value) (ss : List Stmt) (place : Place) (place' : Place') (scope : ScopeId) :
    R _ (Stmt.evaluateFrom a v ss place scope) (Stmt.evaluateFrom a' v ss place' scope) := by
  match ss with
  | [] => exact h.pure _
  | s :: ss =>
    refine h.bind (s.evaluate_related h ha _ _ scope) fun v => ?_
    exact Stmt.evaluateFrom_related h ha v ss _ _ scope
termination_by structural ss

end

end

/-! ## Calls and programs -/

/-- Applications of one value to the same arguments are related. -/
theorem Value.evaluate_related (h : Related R) (depth : Nat) (f : Value) (args : List Value) :
    R _ (f.evaluate depth args) (f.evaluate depth args) := by
  induction depth generalizing f args with
  | zero =>
    cases f with
    | function id c =>
      unfold Value.evaluate
      split <;> exact h.lift _
    | _ => exact h.lift _
  | succ depth ih =>
    cases f with
    | function id c =>
      unfold Value.evaluate
      split
      · exact h.lift _
      · refine h.enter id c args fun place place' scope => h.catching ?_
        exact Stmt.evaluateFrom_related h ih .null c.body _ _ scope
    | _ => exact h.lift _

/-- Evaluations of one program are related. -/
theorem Program.evaluate_related (h : Related R) (depth : Nat) (p : Program) (scope : ScopeId) :
    R _ (p.evaluate depth scope) (p.evaluate depth scope) := by
  refine h.note root root (.program p) scope (h.catching ?_)
  exact Stmt.evaluateFrom_related h (Value.evaluate_related h depth) .null p _ _ scope

end Monkey
