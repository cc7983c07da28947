import Monkey.Expr

/-!
# Names in trees

The names that stand in a tree to be looked up: not those that a `let` binds, nor the
parameters of a function literal. What counts of the body of a literal is a matter of
what is asked.

* `Expr.reads` are all the names, those in the bodies of literals included;
* `Expr.free` are those that are no parameter of a literal around them within the tree.
-/

namespace Monkey

mutual

/-- The names in an expression, where `ofBody` gives those of a function literal from its
    parameters and the names in its body. -/
def Expr.names (ofBody : List String → List String → List String) : Expr → List String
  | .ident name => [name]
  | .int _ | .str _ | .bool _ => []
  | .array elements => Expr.namesList ofBody elements
  | .hash pairs => Expr.namesPairs ofBody pairs
  | .unary _ e => e.names ofBody
  | .binary _ l r => l.names ofBody ++ r.names ofBody
  | .cond c yes none => c.names ofBody ++ Stmt.namesList ofBody yes
  | .cond c yes (some no) =>
    c.names ofBody ++ (Stmt.namesList ofBody yes ++ Stmt.namesList ofBody no)
  | .function params body => ofBody params (Stmt.namesList ofBody body)
  | .call callee args => callee.names ofBody ++ Expr.namesList ofBody args
  | .index container key => container.names ofBody ++ key.names ofBody
termination_by structural e => e

/-- The names in expressions. -/
def Expr.namesList (ofBody : List String → List String → List String) : List Expr → List String
  | [] => []
  | e :: es => e.names ofBody ++ Expr.namesList ofBody es
termination_by structural es => es

/-- The names in the keys and values of pairs. -/
def Expr.namesPairs (ofBody : List String → List String → List String) :
    List (Expr × Expr) → List String
  | [] => []
  | (k, v) :: ps => k.names ofBody ++ (v.names ofBody ++ Expr.namesPairs ofBody ps)
termination_by structural ps => ps

/-- The names in a statement. -/
def Stmt.names (ofBody : List String → List String → List String) : Stmt → List String
  | .bind _ e | .ret e | .expr e => e.names ofBody
termination_by structural s => s

/-- The names in statements. -/
def Stmt.namesList (ofBody : List String → List String → List String) : List Stmt → List String
  | [] => []
  | s :: ss => s.names ofBody ++ Stmt.namesList ofBody ss
termination_by structural ss => ss

end

/-- All the names in an expression. -/
abbrev Expr.reads (e : Expr) : List String :=
  e.names fun _ names => names

/-- All the names in statements. -/
abbrev Stmt.readsList (ss : List Stmt) : List String :=
  Stmt.namesList (fun _ names => names) ss

/-- All the names in a program. -/
abbrev Program.reads (p : Program) : List String :=
  Stmt.readsList p

/-- The names in an expression that are no parameters of a literal around them. -/
abbrev Expr.free (e : Expr) : List String :=
  e.names fun params names => names.filter (· ∉ params)

/-- The names in statements that are no parameters of a literal around them. -/
abbrev Stmt.freeList (ss : List Stmt) : List String :=
  Stmt.namesList (fun params names => names.filter (· ∉ params)) ss

/-- The names in a program that are no parameters of a literal around them. -/
abbrev Program.free (p : Program) : List String :=
  Stmt.freeList p

example : Expr.free (.function ["x"] [.bind "y" (.ident "x"), .expr (.ident "y")]) = ["y"] := by
  decide

end Monkey
