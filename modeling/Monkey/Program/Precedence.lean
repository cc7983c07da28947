import Monkey.Expr
import Monkey.Token

/-!
# Precedence

How strongly the operators bind. What goes on an expression (`Suffix`) is a binary
operator with its right operand, the arguments of a call, or an index; each binds
with a certain strength, and takes the expression before it only if it binds
stronger than what that expression is already an operand of.
-/

namespace Monkey

/-- The strengths with which operators bind their operands, weakest first. -/
inductive Precedence where
  | lowest
  | equality
  | comparison
  | sum
  | product
  | unary
  | call
  | index
  deriving DecidableEq, Repr

namespace Precedence

/-- The place in the order of strengths. -/
def rank : Precedence → Nat
  | lowest => 0
  | equality => 1
  | comparison => 2
  | sum => 3
  | product => 4
  | unary => 5
  | call => 6
  | index => 7

instance : LT Precedence := ⟨fun p q => p.rank < q.rank⟩

instance (p q : Precedence) : Decidable (p < q) :=
  inferInstanceAs (Decidable (p.rank < q.rank))

end Precedence

/-- The strength of a binary operator. -/
def BinaryOp.precedence : BinaryOp → Precedence
  | eq | ne => .equality
  | lt | gt => .comparison
  | add | sub => .sum
  | mul | div => .product

/-- What goes on an expression, by the token that it starts with. -/
inductive Suffix where
  /-- A binary operator, before its right operand. -/
  | operator (op : BinaryOp)
  /-- The arguments of a call. -/
  | call
  /-- An index. -/
  | index
  deriving DecidableEq, Repr

/-- The strength with which a suffix binds the expression before it. -/
def Suffix.precedence : Suffix → Precedence
  | operator op => op.precedence
  | call => .call
  | index => .index

/-- The suffix that a token starts, if it starts one. -/
def Token.suffix? : Token → Option Suffix
  | eq => some (.operator .eq)
  | ne => some (.operator .ne)
  | lt => some (.operator .lt)
  | gt => some (.operator .gt)
  | plus => some (.operator .add)
  | minus => some (.operator .sub)
  | asterisk => some (.operator .mul)
  | slash => some (.operator .div)
  | lparen => some .call
  | lbracket => some .index
  | _ => none

end Monkey
