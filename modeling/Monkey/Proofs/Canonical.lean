import Monkey.Proofs.Lexeme.Written

/-!
# The canonical text

A text of a program that leaves nothing to the reader: every expression inside another
expression or a statement stands in parentheses, every block in braces, a semicolon ends
every statement, and blanks separate all tokens (`Program.canonical`).

* The canonical tokens spell the tree that they are made from, whatever it is
  (`Grammar.spells_canonical`).
* Tokens that can be written are scanned from their texts with blanks between them
  (`Token.splits_intercalate`).

So a program with names, numbers and texts that can be written is parsed from its
canonical text. The main statement says this of all programs that are read, also of what
could be read of a source with errors (`Program.parse_canonical_read`).
-/

namespace Monkey

/-! ## Canonical tokens -/

/-- The token that a unary operator is written as. -/
def UnaryOp.token : UnaryOp → Token
  | not => .bang
  | negate => .minus

/-- The token that a binary operator is written as. -/
def BinaryOp.token : BinaryOp → Token
  | add => .plus
  | sub => .minus
  | mul => .asterisk
  | div => .slash
  | lt => .lt
  | gt => .gt
  | eq => .eq
  | ne => .ne

namespace Token

/-- Tokens in parentheses. -/
def parens (ts : List Token) : List Token :=
  .lparen :: ts ++ [.rparen]

/-- Tokens in brackets. -/
def brackets (ts : List Token) : List Token :=
  .lbracket :: ts ++ [.rbracket]

/-- Tokens in braces. -/
def braces (ts : List Token) : List Token :=
  .lbrace :: ts ++ [.rbrace]

/-- Groups of tokens with commas between them. -/
def commas (groups : List (List Token)) : List Token :=
  [Token.comma].intercalate groups

end Token

open Token (parens brackets braces commas)

mutual

/-- The canonical tokens of an expression, without parentheses around it all. -/
def Expr.canonical : Expr → List Token
  | .ident x => [.ident x]
  | .int n => [.int n]
  | .str x => [.str x]
  | .bool true => [.kwTrue]
  | .bool false => [.kwFalse]
  | .array elements => brackets (commas (Expr.canonicalList elements))
  | .hash pairs => braces (commas (Expr.canonicalPairs pairs))
  | .unary op e => op.token :: parens e.canonical
  | .binary op l r => parens l.canonical ++ op.token :: parens r.canonical
  | .cond c yes none => .kwIf :: parens c.canonical ++ braces (Stmt.canonicalBlock yes)
  | .cond c yes (some no) =>
    .kwIf :: parens c.canonical ++
      (braces (Stmt.canonicalBlock yes) ++ .kwElse :: braces (Stmt.canonicalBlock no))
  | .function params body =>
    .kwFn :: parens (commas (params.map ([.ident ·]))) ++ braces (Stmt.canonicalBlock body)
  | .call callee args => parens callee.canonical ++ parens (commas (Expr.canonicalList args))
  | .index container key => parens container.canonical ++ brackets (parens key.canonical)
termination_by structural e => e

/-- The canonical tokens of expressions, each in parentheses. -/
def Expr.canonicalList : List Expr → List (List Token)
  | [] => []
  | e :: es => parens e.canonical :: Expr.canonicalList es
termination_by structural es => es

/-- The canonical tokens of pairs of a key and a value. -/
def Expr.canonicalPairs : List (Expr × Expr) → List (List Token)
  | [] => []
  | (k, v) :: ps => (parens k.canonical ++ .colon :: parens v.canonical) :: Expr.canonicalPairs ps
termination_by structural ps => ps

/-- The canonical tokens of a statement, with the semicolon that ends it. -/
def Stmt.canonical : Stmt → List Token
  | .bind x e => .kwLet :: .ident x :: .assign :: parens e.canonical ++ [.semicolon]
  | .ret e => .kwReturn :: parens e.canonical ++ [.semicolon]
  | .expr e => parens e.canonical ++ [.semicolon]
termination_by structural s => s

/-- The canonical tokens of statements, one after the other. -/
def Stmt.canonicalBlock : List Stmt → List Token
  | [] => []
  | s :: ss => s.canonical ++ Stmt.canonicalBlock ss
termination_by structural ss => ss

end

/-- The canonical text of a program: its canonical tokens as they are written, with
    blanks between them. -/
def Program.canonical (p : Program) : String :=
  " ".intercalate ((Stmt.canonicalBlock p).map Token.written)

example : Program.canonical [.bind "x" (.unary .negate (.int 1)), .expr (.str "a b")] =
    "let x = ( - ( 1 ) ) ; ( \"a b\" ) ;" := by
  decide +kernel

/-! ## Canonical tokens spell their tree -/

namespace Grammar

/-- The grammar has the operator with its token. -/
theorem token_mem_unaryOperators (op : UnaryOp) : (op.token, op) ∈ unaryOperators := by
  cases op <;> decide

theorem token_mem_operators (op : BinaryOp) : (op.token, op) ∈ (levelOf op).operators := by
  cases op <;> decide

/-- An expression in parentheses stands on every level. -/
theorem SpellsExpr.parens {ts : List Token} {e : Expr} (h : SpellsExpr .equality ts e) (l : Level) :
    SpellsExpr l (parens ts) e :=
  (SpellsExpr.group h).of_rank_le (by cases l <;> decide)

/-- An expression on any level is a whole expression. -/
theorem SpellsExpr.whole {l : Level} {ts : List Token} {e : Expr} (h : SpellsExpr l ts e) :
    SpellsExpr .equality ts e :=
  h.of_rank_le (Nat.zero_le _)

/-- Single tokens are joined as they are. -/
theorem commas_map_singleton (ts : List Token) :
    commas (ts.map ([·])) = ts.intersperse .comma := by
  induction ts with
  | nil => rfl
  | cons t ts ih =>
    cases ts with
    | nil => rfl
    | cons u us =>
      rw [List.intersperse_cons_cons, ← ih]
      rfl

/-- One more expression comes before the others, and a comma between if there are any. -/
theorem spellsExprs_cons {us : List Token} {e : Expr} {groups : List (List Token)} {es : List Expr}
    (he : SpellsExpr .equality us e) (hes : SpellsExprs (commas groups) es)
    (hlength : groups.length = es.length) :
    SpellsExprs (commas (us :: groups)) (e :: es) := by
  -- A comma only stands before another expression.
  cases es with
  | nil =>
    obtain rfl := List.eq_nil_of_length_eq_zero hlength
    rw [commas, List.intercalate_singleton]
    exact .last he
  | cons f es =>
    obtain ⟨vs, groups, rfl⟩ := List.exists_cons_of_length_eq_add_one hlength
    rw [commas, List.intercalate_cons_cons, List.append_assoc]
    exact .cons he hes

/-- One more pair comes before the others, and a comma between if there are any. -/
theorem spellsPairs_cons {us vs : List Token} {k v : Expr} {groups : List (List Token)}
    {ps : List (Expr × Expr)} (hk : SpellsExpr .equality us k) (hv : SpellsExpr .equality vs v)
    (hps : SpellsPairs (commas groups) ps) (hlength : groups.length = ps.length) :
    SpellsPairs (commas ((us ++ .colon :: vs) :: groups)) ((k, v) :: ps) := by
  cases ps with
  | nil =>
    obtain rfl := List.eq_nil_of_length_eq_zero hlength
    rw [commas, List.intercalate_singleton]
    exact .last hk hv
  | cons p ps =>
    obtain ⟨ws, groups, rfl⟩ := List.exists_cons_of_length_eq_add_one hlength
    rw [commas, List.intercalate_cons_cons, List.append_assoc]
    exact .cons hk hv hps

theorem length_canonicalList (es : List Expr) : (Expr.canonicalList es).length = es.length := by
  induction es with
  | nil => rfl
  | cons e es ih => rw [Expr.canonicalList, List.length_cons, ih, List.length_cons]

theorem length_canonicalPairs (ps : List (Expr × Expr)) :
    (Expr.canonicalPairs ps).length = ps.length := by
  induction ps with
  | nil => rfl
  | cons p ps ih => rw [Expr.canonicalPairs, List.length_cons, ih, List.length_cons]

/-- A statement that a semicolon ends may stand before any others. -/
theorem SpellsStmts.cons_semicolon {us vs : List Token} {s : Stmt} {ss : List Stmt}
    (hs : SpellsStmt us s) (hss : SpellsStmts vs ss) :
    SpellsStmts (us ++ [.semicolon] ++ vs) (s :: ss) := by
  rw [List.append_assoc, List.singleton_append]
  refine .cons hs ?_ (.semicolon hss)
  rintro t ⟨⟩
  decide

mutual

/-- An expression is spelled by its canonical tokens, between parentheses wherever it is part of
    another. -/
theorem spells_canonicalExpr (e : Expr) : SpellsExpr .equality e.canonical e :=
  match e with
  | .ident _ | .int _ | .str _ | .bool true | .bool false =>
    (SpellsExpr.atom rfl).whole
  | .array elements => (SpellsExpr.array (spells_canonicalList elements)).whole
  | .hash pairs => (SpellsExpr.hash (spells_canonicalPairs pairs)).whole
  | .unary op e =>
    (SpellsExpr.unary (token_mem_unaryOperators op) ((spells_canonicalExpr e).parens _)).whole
  | .binary op l r =>
    (SpellsExpr.binary (token_mem_operators op) ((spells_canonicalExpr l).parens _)
      ((spells_canonicalExpr r).parens _)).whole
  | .cond c yes none => by
    -- The parentheses around a condition belong to the choice.
    have h := SpellsExpr.cond (spells_canonicalExpr c) (.braces (spells_canonicalBlock yes))
    rw [Expr.canonical]
    simpa [parens, braces] using h.whole
  | .cond c yes (some no) => by
    have h := SpellsExpr.condElse (spells_canonicalExpr c) (.braces (spells_canonicalBlock yes))
      (.braces (spells_canonicalBlock no))
    rw [Expr.canonical]
    simpa [parens, braces] using h.whole
  | .function params body => by
    have h := @SpellsExpr.function params _ _ (.braces (spells_canonicalBlock body))
    rw [← commas_map_singleton, List.map_map] at h
    rw [Expr.canonical]
    simpa [parens, braces, Function.comp_def] using h.whole
  | .call callee args => by
    have h := SpellsExpr.call ((spells_canonicalExpr callee).parens _) (spells_canonicalList args)
    rw [List.append_assoc] at h
    exact h.whole
  | .index container key => by
    have h := SpellsExpr.index ((spells_canonicalExpr container).parens _)
      ((spells_canonicalExpr key).parens _)
    rw [List.append_assoc] at h
    exact h.whole
termination_by structural e

theorem spells_canonicalList (es : List Expr) : SpellsExprs (commas (Expr.canonicalList es)) es :=
  match es with
  | [] => .nil
  | e :: es =>
    spellsExprs_cons ((spells_canonicalExpr e).parens _) (spells_canonicalList es)
      (length_canonicalList es)
termination_by structural es

theorem spells_canonicalPairs (ps : List (Expr × Expr)) :
    SpellsPairs (commas (Expr.canonicalPairs ps)) ps :=
  match ps with
  | [] => .nil
  | (k, v) :: ps =>
    spellsPairs_cons ((spells_canonicalExpr k).parens _) ((spells_canonicalExpr v).parens _)
      (spells_canonicalPairs ps) (length_canonicalPairs ps)
termination_by structural ps

theorem spells_canonicalBlock (ss : List Stmt) : SpellsStmts (Stmt.canonicalBlock ss) ss :=
  match ss with
  | [] => .nil
  | .bind _ e :: ss =>
    .cons_semicolon (.bind ((spells_canonicalExpr e).parens _)) (spells_canonicalBlock ss)
  | .ret e :: ss =>
    .cons_semicolon (.ret ((spells_canonicalExpr e).parens _)) (spells_canonicalBlock ss)
  | .expr e :: ss =>
    .cons_semicolon (.expr ((spells_canonicalExpr e).parens _)) (spells_canonicalBlock ss)
termination_by structural ss

end

end Grammar

/-! ## Tokens with blanks between them -/

namespace Token

/-- Tokens that are written with a space between any two are the ones that the text is split into.
    -/
theorem splits_intercalate {ts : List Token} (hts : ∀ t ∈ ts, Writable t) :
    Splits (" ".intercalate (ts.map written)).toList ts := by
  induction ts with
  | nil => exact .nil nofun
  | cons t ts ih =>
    obtain ⟨ht, hts⟩ := List.forall_mem_cons.1 hts
    cases ts with
    | nil =>
      have h := Splits.empty.write ht (.nil t)
      rwa [List.append_nil] at h
    | cons u us =>
      simpa [String.intercalate_cons_cons] using (ih hts).write_blank ht

end Token

/-- The canonical text of a program that can be written is parsed as that program. -/
theorem Program.parse_canonical {p : Program} (h : ∀ t ∈ p.leaves, Token.Writable t) :
    Program.parse p.canonical = .ok p := by
  have hspells := Grammar.spells_canonicalBlock p
  have hwritable := hspells.leaves (fun _ => Token.Writable.of_isMark) h
  exact Program.parse_of_splits (Token.splits_intercalate hwritable) hspells

/-- Whatever a source is, what could be read of it is a program that is parsed from its
    canonical text without errors. -/
theorem Program.parse_canonical_read (source : String) :
    Program.parse (Program.read source).program.canonical = .ok (Program.read source).program :=
  Program.parse_canonical (Program.writable_leaves source)

end Monkey
