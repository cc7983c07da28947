import Monkey.Program.Precedence

/-!
# The grammar

What tokens spell an expression, a statement or a program, and which one, said by
rules instead of by how it is read.

* Expressions are built on *levels* (`Grammar.Level`), loosest first: four levels of
  binary operators, which lean to the left, then unary operators, then calls and
  indexes, then primaries. What stands on a level stands on every looser one.
* A statement ends where no expression goes on: the token right after it is none of
  `Grammar.goingOn`. Stray semicolons between statements are left out of the program,
  so a statement may have one after it.
* Only the pairs of a hash may have a comma after the last of them.

That tokens spell at most one program, the one that is read from them, is shown in
`Monkey.Proofs.Grammar.Complete`.
-/

namespace Monkey.Grammar

/-! ## Levels -/

/-- The levels of expressions, loosest first. -/
inductive Level where
  | equality
  | comparison
  | sum
  | product
  | unary
  /-- Calls and indexes. -/
  | suffixed
  | primary
  deriving DecidableEq, Repr

namespace Level

/-- The next tighter level; there is none after the primaries. -/
def next : Level → Level
  | equality => comparison
  | comparison => sum
  | sum => product
  | product => unary
  | unary => suffixed
  | suffixed => primary
  | primary => primary

/-- The binary operators of a level, by the tokens that they are written as. -/
def operators : Level → List (Token × BinaryOp)
  | equality => [(.eq, .eq), (.ne, .ne)]
  | comparison => [(.lt, .lt), (.gt, .gt)]
  | sum => [(.plus, .add), (.minus, .sub)]
  | product => [(.asterisk, .mul), (.slash, .div)]
  | unary | suffixed | primary => []

end Level

/-- The unary operators, by the tokens that they are written as. -/
def unaryOperators : List (Token × UnaryOp) :=
  [(.bang, .not), (.minus, .negate)]

/-- The expression that a token spells on its own. -/
def atom? : Token → Option Expr
  | .ident x => some (.ident x)
  | .int n => some (.int n)
  | .str s => some (.str s)
  | .kwTrue => some (.bool true)
  | .kwFalse => some (.bool false)
  | _ => none

/-- The tokens that go on an expression, so that no statement ends before them. -/
def goingOn : List Token :=
  [.eq, .ne, .lt, .gt, .plus, .minus, .asterisk, .slash, .lparen, .lbracket]

/-! ## Rules -/

mutual

/-- The tokens spell the expression on the level. -/
inductive SpellsExpr : Level → List Token → Expr → Prop
  | loosen {l ts e} : SpellsExpr l.next ts e → SpellsExpr l ts e
  | binary {l t op us vs left right} : (t, op) ∈ l.operators → SpellsExpr l us left →
      SpellsExpr l.next vs right → SpellsExpr l (us ++ t :: vs) (.binary op left right)
  | unary {t op ts e} : (t, op) ∈ unaryOperators → SpellsExpr .unary ts e →
      SpellsExpr .unary (t :: ts) (.unary op e)
  | call {us vs callee args} : SpellsExpr .suffixed us callee → SpellsExprs vs args →
      SpellsExpr .suffixed (us ++ .lparen :: vs ++ [.rparen]) (.call callee args)
  | index {us vs container key} : SpellsExpr .suffixed us container →
      SpellsExpr .equality vs key →
      SpellsExpr .suffixed (us ++ .lbracket :: vs ++ [.rbracket]) (.index container key)
  | atom {t e} : atom? t = some e → SpellsExpr .primary [t] e
  /-- Parentheses leave no node. -/
  | group {ts e} : SpellsExpr .equality ts e →
      SpellsExpr .primary (.lparen :: ts ++ [.rparen]) e
  | array {ts es} : SpellsExprs ts es →
      SpellsExpr .primary (.lbracket :: ts ++ [.rbracket]) (.array es)
  | hash {ts ps} : SpellsPairs ts ps → SpellsExpr .primary (.lbrace :: ts ++ [.rbrace]) (.hash ps)
  | cond {cs ys c yes} : SpellsExpr .equality cs c → SpellsBlock ys yes →
      SpellsExpr .primary (.kwIf :: .lparen :: cs ++ .rparen :: ys) (.cond c yes none)
  | condElse {cs ys ns c yes no} : SpellsExpr .equality cs c → SpellsBlock ys yes →
      SpellsBlock ns no →
      SpellsExpr .primary (.kwIf :: .lparen :: cs ++ .rparen :: (ys ++ .kwElse :: ns))
        (.cond c yes (some no))
  | function {xs bs body} : SpellsBlock bs body →
      SpellsExpr .primary
        (.kwFn :: .lparen :: (xs.map Token.ident).intersperse .comma ++ .rparen :: bs)
        (.function xs body)

/-- The tokens spell the expressions, with commas between them. -/
inductive SpellsExprs : List Token → List Expr → Prop
  | nil : SpellsExprs [] []
  | last {ts e} : SpellsExpr .equality ts e → SpellsExprs ts [e]
  | cons {us vs e f es} : SpellsExpr .equality us e → SpellsExprs vs (f :: es) →
      SpellsExprs (us ++ .comma :: vs) (e :: f :: es)

/-- The tokens spell the pairs of a key and a value, with commas between them and
    maybe one after them. -/
inductive SpellsPairs : List Token → List (Expr × Expr) → Prop
  | nil : SpellsPairs [] []
  | last {us vs k v} : SpellsExpr .equality us k → SpellsExpr .equality vs v →
      SpellsPairs (us ++ .colon :: vs) [(k, v)]
  | cons {us vs ws k v ps} : SpellsExpr .equality us k → SpellsExpr .equality vs v →
      SpellsPairs ws ps → SpellsPairs (us ++ .colon :: vs ++ .comma :: ws) ((k, v) :: ps)

/-- The tokens spell the block, in its braces. -/
inductive SpellsBlock : List Token → Block → Prop
  | braces {ts b} : SpellsStmts ts b → SpellsBlock (.lbrace :: ts ++ [.rbrace]) b

/-- The tokens spell the statements, up to the end of the program or the brace that
    closes the block. -/
inductive SpellsStmts : List Token → List Stmt → Prop
  | nil : SpellsStmts [] []
  | semicolon {ts ss} : SpellsStmts ts ss → SpellsStmts (.semicolon :: ts) ss
  | cons {us vs s ss} : SpellsStmt us s → (∀ t ∈ vs.head?, t ∉ goingOn) → SpellsStmts vs ss →
      SpellsStmts (us ++ vs) (s :: ss)

/-- The tokens spell the statement, without a semicolon after it. -/
inductive SpellsStmt : List Token → Stmt → Prop
  | bind {x ts e} : SpellsExpr .equality ts e →
      SpellsStmt (.kwLet :: .ident x :: .assign :: ts) (.bind x e)
  | ret {ts e} : SpellsExpr .equality ts e → SpellsStmt (.kwReturn :: ts) (.ret e)
  | expr {ts e} : SpellsExpr .equality ts e → SpellsStmt ts (.expr e)

end

/-- The tokens spell the program. -/
abbrev SpellsProgram : List Token → Program → Prop := SpellsStmts

/-! ## Moving between levels -/

/-- The place of a level, counted from the loosest one. -/
def Level.rank : Level → Nat
  | equality => 0
  | comparison => 1
  | sum => 2
  | product => 3
  | unary => 4
  | suffixed => 5
  | primary => 6

theorem Level.rank_le_rank_next (l : Level) : l.rank ≤ l.next.rank := by
  cases l <;> decide

/-- Below the tightest level the next one is a place further. -/
theorem Level.rank_next {l m : Level} (h : l.rank < m.rank) : l.next.rank = l.rank + 1 := by
  cases l <;> cases m <;> simp_all [rank, next]

theorem Level.rank_injective {l m : Level} (h : l.rank = m.rank) : l = m := by
  cases l <;> cases m <;> first | rfl | cases h

/-- What stands on a level stands on every looser one. -/
theorem SpellsExpr.of_rank_le {l m : Level} {ts : List Token} {e : Expr} (h : SpellsExpr m ts e)
    (hlm : l.rank ≤ m.rank) : SpellsExpr l ts e := by
  obtain ⟨n, hn⟩ := Nat.exists_eq_add_of_le hlm
  induction n generalizing l with
  | zero => exact Level.rank_injective hn ▸ h
  | succ n ih =>
    have hnext := Level.rank_next (show l.rank < m.rank by omega)
    exact .loosen (ih (by omega) (by omega))

/-! ## First tokens -/

/-- The token starts an expression. -/
inductive Opens : Token → Prop
  | atom {t e} : atom? t = some e → Opens t
  | unary {t op} : (t, op) ∈ unaryOperators → Opens t
  | lparen : Opens .lparen
  | lbracket : Opens .lbracket
  | lbrace : Opens .lbrace
  | kwIf : Opens .kwIf
  | kwFn : Opens .kwFn

/-- The tokens that stand between and after expressions start none. -/
theorem Opens.not_mem {t : Token} (h : Opens t) :
    t ∉ [.rparen, .rbracket, .rbrace, .comma, .semicolon, .kwElse, .kwLet, .kwReturn, .assign,
      .eq] := by
  cases h with
  | atom h => cases t <;> simp_all [atom?]
  | unary h => cases t <;> simp_all [unaryOperators]
  | lparen | lbracket | lbrace | kwIf | kwFn => decide

/-- An expression starts with a token that starts expressions. -/
theorem SpellsExpr.opens {l : Level} {ts : List Token} {e : Expr} :
    SpellsExpr l ts e → ∃ t us, ts = t :: us ∧ Opens t
  | .loosen h => h.opens
  | .binary _ h _ | .call h _ | .index h _ => by
    obtain ⟨t, us, rfl, ht⟩ := h.opens
    exact ⟨t, _, rfl, ht⟩
  | .unary h _ => ⟨_, _, rfl, .unary h⟩
  | .atom h => ⟨_, _, rfl, .atom h⟩
  | .group _ => ⟨_, _, rfl, .lparen⟩
  | .array _ => ⟨_, _, rfl, .lbracket⟩
  | .hash _ => ⟨_, _, rfl, .lbrace⟩
  | .cond _ _ | .condElse _ _ _ => ⟨_, _, rfl, .kwIf⟩
  | .function _ => ⟨_, _, rfl, .kwFn⟩
termination_by structural h => h

/-- A statement starts with `let`, with `return` or with an expression. -/
theorem SpellsStmt.opens {ts : List Token} {s : Stmt} (h : SpellsStmt ts s) :
    ∃ t us, ts = t :: us ∧ (t = .kwLet ∨ t = .kwReturn ∨ Opens t) := by
  cases h with
  | bind _ => exact ⟨_, _, rfl, .inl rfl⟩
  | ret _ => exact ⟨_, _, rfl, .inr (.inl rfl)⟩
  | expr h =>
    obtain ⟨t, us, rfl, ht⟩ := h.opens
    exact ⟨t, us, rfl, .inr (.inr ht)⟩

end Monkey.Grammar
