import Monkey.Expr
import Monkey.Text.Characters

/-!
# Outlines

The text of a tree in which every node is named and followed by its parts between
parentheses. Unlike the rendered text, the outline tells any two trees apart.
-/

namespace Monkey

/-- A list between brackets, from the outlines of its elements. -/
def outlineList (elements : List String) : String :=
  "[" ++ ", ".intercalate elements ++ "]"

/-- The outline of a list of names. -/
def outlineNames (names : List String) : String :=
  outlineList (names.map Text.quoted)

/-- The name of a unary operator in outlines. -/
def UnaryOp.outline : UnaryOp → String
  | not => "Bang"
  | negate => "Minus"

/-- The name of a binary operator in outlines. -/
def BinaryOp.outline : BinaryOp → String
  | add => "Plus"
  | sub => "Minus"
  | mul => "Asterisk"
  | div => "Slash"
  | lt => "Lt"
  | gt => "Gt"
  | eq => "Eq"
  | ne => "NotEq"

/-- The outline of a block, from those of its statements. -/
def outlineBlock (statements : List String) : String :=
  "BlockStatement \x7b statements: " ++ outlineList statements ++ " \x7d"

mutual

/-- The outline of an expression. -/
def Expr.outline : Expr → String
  | .ident name => "Identifier(" ++ Text.quoted name ++ ")"
  | .int n => "IntegerLiteral(" ++ n.repr ++ ")"
  | .str text => "StringLiteral(" ++ Text.quoted text ++ ")"
  | .bool true => "Boolean(true)"
  | .bool false => "Boolean(false)"
  | .array elements => "ArrayLiteral(" ++ outlineList (Expr.outlines elements) ++ ")"
  | .hash pairs =>
    "HashLiteral(HashLiteral \x7b pairs: " ++ outlineList (Expr.pairOutlines pairs) ++ " \x7d)"
  | .unary op e => "Prefix(" ++ op.outline ++ ", " ++ e.outline ++ ")"
  | .binary op l r => "Infix(" ++ op.outline ++ ", " ++ l.outline ++ ", " ++ r.outline ++ ")"
  | .cond c yes none => "If(" ++ c.outline ++ ", " ++ outlineBlock (Stmt.outlines yes) ++ ", None)"
  | .cond c yes (some no) =>
    "If(" ++ c.outline ++ ", " ++ outlineBlock (Stmt.outlines yes) ++ ", Some(" ++
      outlineBlock (Stmt.outlines no) ++ "))"
  | .function params body =>
    "FunctionLiteral(" ++ outlineNames params ++ ", " ++ outlineBlock (Stmt.outlines body) ++ ")"
  | .call callee args =>
    "Call(" ++ callee.outline ++ ", " ++ outlineList (Expr.outlines args) ++ ")"
  | .index container key => "Index(" ++ container.outline ++ ", " ++ key.outline ++ ")"
termination_by structural e => e

/-- The outlines of expressions. -/
def Expr.outlines : List Expr → List String
  | [] => []
  | e :: es => e.outline :: Expr.outlines es
termination_by structural es => es

/-- The outlines of pairs of a key and a value. -/
def Expr.pairOutlines : List (Expr × Expr) → List String
  | [] => []
  | (k, v) :: ps => ("(" ++ k.outline ++ ", " ++ v.outline ++ ")") :: Expr.pairOutlines ps
termination_by structural ps => ps

/-- The outline of a statement. -/
def Stmt.outline : Stmt → String
  | .bind name e => "Let(" ++ Text.quoted name ++ ", " ++ e.outline ++ ")"
  | .ret e => "Return(" ++ e.outline ++ ")"
  | .expr e => "Expression(" ++ e.outline ++ ")"
termination_by structural s => s

/-- The outlines of statements. -/
def Stmt.outlines : List Stmt → List String
  | [] => []
  | s :: ss => s.outline :: Stmt.outlines ss
termination_by structural ss => ss

end

/-- The outline of a block. -/
def Block.outline (b : Block) : String :=
  outlineBlock (Stmt.outlines b)

end Monkey
