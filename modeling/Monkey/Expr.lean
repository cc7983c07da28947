/-!
# Expressions and statements

The trees of a program. A program is a list of statements, as is a block, the
inside of a pair of braces. Parentheses around an expression leave no node: they
only decide how the tree is built.

Equality of trees is decidable: `Expr.same` compares two trees node by node, and
`Expr.same_iff` says that it decides equality.
-/

namespace Monkey

/-- The operators with one operand. -/
inductive UnaryOp where
  /-- `!` -/
  | not
  /-- `-` -/
  | negate
  deriving DecidableEq, Repr

/-- How a unary operator is written. -/
def UnaryOp.symbol : UnaryOp → String
  | not => "!"
  | negate => "-"

/-- The operators with two operands. -/
inductive BinaryOp where
  /-- `+` -/
  | add
  /-- `-` -/
  | sub
  /-- `*` -/
  | mul
  /-- `/` -/
  | div
  /-- `<` -/
  | lt
  /-- `>` -/
  | gt
  /-- `==` -/
  | eq
  /-- `!=` -/
  | ne
  deriving DecidableEq, Repr

/-- How a binary operator is written. -/
def BinaryOp.symbol : BinaryOp → String
  | add => "+"
  | sub => "-"
  | mul => "*"
  | div => "/"
  | lt => "<"
  | gt => ">"
  | eq => "=="
  | ne => "!="

mutual

/-- An expression, which has a value. -/
inductive Expr where
  | ident (name : String)
  | int (n : Nat)
  | str (text : String)
  | bool (b : Bool)
  | array (elements : List Expr)
  /-- The pairs of a key and a value, in the order of the source. -/
  | hash (pairs : List (Expr × Expr))
  | unary (op : UnaryOp) (operand : Expr)
  | binary (op : BinaryOp) (left right : Expr)
  /-- A choice between two blocks, the second of which may be left out. -/
  | cond (condition : Expr) (yes : List Stmt) (no : Option (List Stmt))
  | function (params : List String) (body : List Stmt)
  | call (callee : Expr) (args : List Expr)
  | index (container key : Expr)

/-- A statement. -/
inductive Stmt where
  /-- `let name = value` -/
  | bind (name : String) (value : Expr)
  /-- `return value` -/
  | ret (value : Expr)
  /-- An expression on its own. -/
  | expr (value : Expr)

end

/-- The inside of a pair of braces. -/
abbrev Block := List Stmt

/-- A whole program. -/
abbrev Program := List Stmt

instance : Inhabited Expr := ⟨.bool false⟩

instance : Inhabited Stmt := ⟨.expr default⟩

/-! ## Equality -/

mutual

/-- The two expressions are the same tree. -/
def Expr.same : Expr → Expr → Bool
  | .ident x, .ident y => x == y
  | .int m, .int n => m == n
  | .str s, .str t => s == t
  | .bool a, .bool b => a == b
  | .array es, .array fs => Expr.sameList es fs
  | .hash ps, .hash qs => Expr.samePairs ps qs
  | .unary o e, .unary p f => o == p && e.same f
  | .binary o e₁ e₂, .binary p f₁ f₂ => o == p && e₁.same f₁ && e₂.same f₂
  | .cond e b none, .cond f c none => e.same f && Stmt.sameBlock b c
  | .cond e b (some b'), .cond f c (some c') =>
    e.same f && Stmt.sameBlock b c && Stmt.sameBlock b' c'
  | .function xs b, .function ys c => xs == ys && Stmt.sameBlock b c
  | .call e es, .call f fs => e.same f && Expr.sameList es fs
  | .index e₁ e₂, .index f₁ f₂ => e₁.same f₁ && e₂.same f₂
  | _, _ => false
termination_by structural e => e

/-- The two lists hold the same trees. -/
def Expr.sameList : List Expr → List Expr → Bool
  | [], [] => true
  | e :: es, f :: fs => e.same f && Expr.sameList es fs
  | _, _ => false
termination_by structural es => es

/-- The two lists hold the same pairs of trees. -/
def Expr.samePairs : List (Expr × Expr) → List (Expr × Expr) → Bool
  | [], [] => true
  | (k, v) :: ps, (l, w) :: qs => k.same l && v.same w && Expr.samePairs ps qs
  | _, _ => false
termination_by structural ps => ps

/-- The two statements are the same tree. -/
def Stmt.same : Stmt → Stmt → Bool
  | .bind x e, .bind y f => x == y && e.same f
  | .ret e, .ret f => e.same f
  | .expr e, .expr f => e.same f
  | _, _ => false
termination_by structural s => s

/-- The two blocks hold the same trees. -/
def Stmt.sameBlock : List Stmt → List Stmt → Bool
  | [], [] => true
  | s :: ss, t :: ts => s.same t && Stmt.sameBlock ss ts
  | _, _ => false
termination_by structural ss => ss

end

mutual

/-- Comparing expressions part by part decides whether they are equal. -/
theorem Expr.same_iff (e f : Expr) : e.same f = true ↔ e = f := by
  cases e <;> cases f
  case cond.cond e b b' f c c' =>
    cases b' <;> cases c' <;> simp [Expr.same, Expr.same_iff e, Stmt.sameBlock_iff, and_assoc]
  all_goals
    simp [Expr.same, Expr.same_iff, Expr.sameList_iff, Expr.samePairs_iff, Stmt.sameBlock_iff,
      and_assoc]
termination_by structural e

theorem Expr.sameList_iff (es fs : List Expr) : Expr.sameList es fs = true ↔ es = fs := by
  cases es <;> cases fs <;> simp [Expr.sameList, Expr.sameList_iff, Expr.same_iff]
termination_by structural es

theorem Expr.samePairs_iff (ps qs : List (Expr × Expr)) :
    Expr.samePairs ps qs = true ↔ ps = qs := by
  match ps, qs with
  | [], [] => simp [Expr.samePairs]
  | [], _ :: _ => simp [Expr.samePairs]
  | _ :: _, [] => simp [Expr.samePairs]
  | (k, v) :: ps, (l, w) :: qs =>
    simp [Expr.samePairs, Expr.samePairs_iff, Expr.same_iff]
termination_by structural ps

/-- Comparing statements part by part decides whether they are equal. -/
theorem Stmt.same_iff (s t : Stmt) : s.same t = true ↔ s = t := by
  cases s <;> cases t <;> simp [Stmt.same, Expr.same_iff]
termination_by structural s

theorem Stmt.sameBlock_iff (ss ts : List Stmt) : Stmt.sameBlock ss ts = true ↔ ss = ts := by
  cases ss <;> cases ts <;> simp [Stmt.sameBlock, Stmt.sameBlock_iff, Stmt.same_iff]
termination_by structural ss

end

instance : DecidableEq Expr := fun e f => decidable_of_iff _ (Expr.same_iff e f)

instance : DecidableEq Stmt := fun s t => decidable_of_iff _ (Stmt.same_iff s t)

end Monkey
