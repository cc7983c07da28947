import Monkey.Expr

/-!
# Rendering

The text of a program, on one line. Every application of an operator and every
index is put between parentheses, so the text shows how the tree is built: `a + b
* c` becomes `(a + (b * c))`. Calls and literals need none. Blocks are rendered
without their braces and with nothing between the statements.
-/

namespace Monkey

mutual

/-- The text of an expression. -/
def Expr.render : Expr → String
  | .ident name => name
  | .int n => n.repr
  | .str text => "\"" ++ text ++ "\""
  | .bool true => "true"
  | .bool false => "false"
  | .array elements => "[" ++ ", ".intercalate (Expr.renderList elements) ++ "]"
  | .hash pairs => "\x7b" ++ ", ".intercalate (Expr.renderPairs pairs) ++ "\x7d"
  | .unary op e => "(" ++ op.symbol ++ e.render ++ ")"
  | .binary op l r => "(" ++ l.render ++ " " ++ op.symbol ++ " " ++ r.render ++ ")"
  | .cond c yes none => "if" ++ c.render ++ " " ++ Stmt.renderBlock yes
  | .cond c yes (some no) =>
    "if" ++ c.render ++ " " ++ Stmt.renderBlock yes ++ "else " ++ Stmt.renderBlock no
  | .function params body => "fn(" ++ ", ".intercalate params ++ ") " ++ Stmt.renderBlock body
  | .call callee args => callee.render ++ "(" ++ ", ".intercalate (Expr.renderList args) ++ ")"
  | .index container key => "(" ++ container.render ++ "[" ++ key.render ++ "])"
termination_by structural e => e

/-- The texts of expressions. -/
def Expr.renderList : List Expr → List String
  | [] => []
  | e :: es => e.render :: Expr.renderList es
termination_by structural es => es

/-- The texts of pairs of a key and a value. -/
def Expr.renderPairs : List (Expr × Expr) → List String
  | [] => []
  | (k, v) :: ps => (k.render ++ ": " ++ v.render) :: Expr.renderPairs ps
termination_by structural ps => ps

/-- The text of a statement. -/
def Stmt.render : Stmt → String
  | .bind name e => "let " ++ name ++ " = " ++ e.render ++ ";"
  | .ret e => "return " ++ e.render ++ ";"
  | .expr e => e.render
termination_by structural s => s

/-- The text of a block: those of its statements, one after the other. -/
def Stmt.renderBlock : List Stmt → String
  | [] => ""
  | s :: ss => s.render ++ Stmt.renderBlock ss
termination_by structural ss => ss

end

/-- The text of a block, without the braces around it. -/
def Block.render (b : Block) : String :=
  Stmt.renderBlock b

/-- The text of a program. -/
def Program.render (p : Program) : String :=
  Stmt.renderBlock p

end Monkey
