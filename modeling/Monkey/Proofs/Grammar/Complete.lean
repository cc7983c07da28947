import Monkey.Proofs.Grammar.Sound

/-!
# What is spelled is read

Tokens that spell a part are read as this part and nothing else, whatever stands after
them, as long as it does not belong to the part as well (`Grammar.Follows`).

An expression on a loose level is read in strong surroundings up to the first operator
that binds weaker than these. So what is shown of an expression is not that reading
ends after it, but that reading gets to its end and goes on with the suffixes that
stand there (`SpellsExpr.reads`).

With `Monkey.Proofs.Grammar.Sound` this gives the main statement: a source is parsed
without errors as the one program that its tokens spell
(`parse_eq_ok_iff_spellsProgram`).
-/

namespace Monkey

namespace Grammar

open Reply Parse

/-! ## What may follow -/

/-- The operators of the grammar are read as such. -/
theorem suffix?_of_mem_operators {l : Level} {t : Token} {op : BinaryOp}
    (h : (t, op) ∈ l.operators) : t.suffix? = some (.operator op) := by
  cases l <;> simp only [Level.operators, List.mem_cons, List.not_mem_nil, or_false,
    Prod.mk.injEq] at h
  all_goals rcases h with ⟨rfl, rfl⟩ | ⟨rfl, rfl⟩ <;> rfl

/-- An operator stands on one level. -/
theorem eq_levelOf_of_mem_operators {l : Level} {t : Token} {op : BinaryOp}
    (h : (t, op) ∈ l.operators) : l = levelOf op := by
  cases l <;> simp only [Level.operators, List.mem_cons, List.not_mem_nil, or_false,
    Prod.mk.injEq] at h
  all_goals rcases h with ⟨rfl, rfl⟩ | ⟨rfl, rfl⟩ <;> rfl

/-- The tokens may stand after an expression of the level without being part of it. -/
structure Follows (l : Level) (ts : List Token) : Prop where
  stops : Stops l.strength ts
  ne_else : ts.head? ≠ some .kwElse

theorem rank_strength_le_next (l : Level) : l.strength.rank ≤ l.next.strength.rank := by
  cases l <;> decide

namespace Follows

variable {l : Level} {t : Token} {ts : List Token}

/-- What may follow an expression of a level may follow those of the next. -/
theorem next (h : Follows l ts) : Follows l.next ts where
  stops t ht s hs hlt := h.stops t ht s hs (Nat.lt_of_le_of_lt (rank_strength_le_next l) hlt)
  ne_else := h.ne_else

/-- After calls and indexes anything may stand but an `else`. -/
theorem suffixed (helse : ts.head? ≠ some .kwElse) : Follows .suffixed ts where
  stops _ _ s _ := not_index_lt_precedence s
  ne_else := helse

/-- An operator of the level may stand after an expression of it, as operators lean to the left.
    -/
theorem of_mem_operators {op : BinaryOp} (h : (t, op) ∈ l.operators) : Follows l (t :: ts) where
  stops u hu s hs := by
    obtain rfl : t = u := Option.some.inj hu
    rw [suffix?_of_mem_operators h] at hs
    obtain rfl := Option.some.inj hs
    rw [eq_levelOf_of_mem_operators h, strength_levelOf]
    exact Nat.lt_irrefl _
  ne_else := by
    rintro ⟨⟩
    cases suffix?_of_mem_operators h

/-- What goes on no expression may stand after one of any level. -/
theorem of_not_mem_goingOn (h : ∀ t ∈ ts.head?, t ∉ goingOn) (helse : ts.head? ≠ some .kwElse) :
    Follows l ts where
  stops t ht s hs := absurd (mem_goingOn_iff.2 ⟨s, hs⟩) (h t ht)
  ne_else := helse

end Follows

/-! ## Surroundings -/

/-- An expression of the level may stand in surroundings of the strength `p`, of which
    those of the operand of a unary operator are the strongest that there are. -/
structure Fits (p : Precedence) (l : Level) : Prop where
  level_le : (levelWithin p).rank ≤ l.rank
  not_unary_lt : ¬Precedence.unary < p

namespace Fits

variable {p : Precedence} {l : Level}

theorem next (h : Fits p l) : Fits p l.next :=
  ⟨Nat.le_trans h.level_le l.rank_le_rank_next, h.not_unary_lt⟩

theorem lowest (l : Level) : Fits .lowest l :=
  ⟨Nat.zero_le _, by decide⟩

/-- An operator of a level that fits binds stronger than the surroundings. -/
theorem lt_precedence (h : Fits p l) {t : Token} {op : BinaryOp} (hop : (t, op) ∈ l.operators) :
    p < op.precedence := by
  obtain rfl := eq_levelOf_of_mem_operators hop
  obtain ⟨h, h'⟩ := h
  revert h h'
  cases op <;> cases p <;> decide

/-- Calls and indexes bind stronger than any surroundings of operands. -/
theorem lt_suffix (h : Fits p l) {s : Suffix} (hs : s = .call ∨ s = .index) :
    p < s.precedence := by
  have h := h.not_unary_lt
  revert h
  rcases hs with rfl | rfl <;> cases p <;> decide

/-- The right operand of an operator stands on the next level. -/
theorem right {t : Token} {op : BinaryOp} (hop : (t, op) ∈ l.operators) :
    Fits op.precedence l.next := by
  obtain rfl := eq_levelOf_of_mem_operators hop
  refine ⟨Nat.le_of_eq (by rw [levelWithin_precedence]), ?_⟩
  cases op <;> decide

end Fits

/-! ## Expressions -/

/-- Wherever the tokens may stand as an expression of the level, reading gets to their
    end with the expression `e` and goes on with the suffixes after them. -/
def ReadsExpr (l : Level) (us : List Token) (e : Expr) : Prop :=
  ∀ ⦃p : Precedence⦄ ⦃ts : List Token⦄ ⦃f : Expr⦄ ⦃rest : List Token⦄, Fits p l → Follows l ts →
    (suffixes p e ts).Reads f rest → (expr p (us ++ ts)).Reads f rest

namespace ReadsExpr

variable {l : Level} {us vs : List Token} {e f : Expr}

/-- Reading ends after the expression if no suffix binds stronger than what is around it. -/
theorem of_stops (h : ReadsExpr l us e) {p : Precedence} {ts : List Token} (hp : Fits p l)
    (hts : Follows l ts) (hstop : Stops p ts) : (expr p (us ++ ts)).Reads e ts := by
  refine h hp hts ?_
  rw [suffixes_of_stops hstop]
  exact reads_done.2 ⟨rfl, rfl⟩

/-- A whole expression is read up to a token that does not go on it. -/
theorem whole (h : ReadsExpr .equality us e) {ts : List Token}
    (hts : ∀ t ∈ ts.head?, t ∉ goingOn) (helse : ts.head? ≠ some .kwElse) :
    (expr .lowest (us ++ ts)).Reads e ts :=
  h.of_stops (.lowest _) (.of_not_mem_goingOn hts helse) (stops_lowest_iff.2 hts)

/-- A whole expression is read up to a token that does not go on it, and this is left over. -/
theorem whole_cons (h : ReadsExpr .equality us e) {t : Token} (ht : t ∉ goingOn)
    (helse : t ≠ .kwElse) (ts : List Token) : (expr .lowest (us ++ t :: ts)).Reads e (t :: ts) :=
  h.whole (fun _ hu => Option.some.inj hu ▸ ht) fun hu => helse (Option.some.inj hu)

/-- What is read as an expression of a level is so on every looser one. -/
theorem loosen (h : ReadsExpr l.next us e) : ReadsExpr l us e :=
  fun _ _ _ _ hp hts hf => h hp.next hts.next hf

/-- A binary operator is read between its operands. -/
theorem binary {t : Token} {op : BinaryOp} (hop : (t, op) ∈ l.operators) (he : ReadsExpr l us e)
    (hf : ReadsExpr l.next vs f) : ReadsExpr l (us ++ t :: vs) (.binary op e f) := by
  intro p ts g rest hp hts hg
  rw [List.append_assoc, List.cons_append]
  -- Reading goes on with the operator, then with the right operand, and then with what
  -- goes on the whole, as the right operand ends where an operator of its level stands.
  refine he hp (.of_mem_operators hop) ?_
  refine (reads_suffixes_operator (suffix?_of_mem_operators hop) (hp.lt_precedence hop)).2 ?_
  refine ⟨f, ts, hf.of_stops (.right hop) hts.next ?_, hg⟩
  have hstop := hts.stops
  rwa [eq_levelOf_of_mem_operators hop, strength_levelOf] at hstop

theorem unary {t : Token} {op : UnaryOp} (hop : (t, op) ∈ unaryOperators)
    (he : ReadsExpr .unary us e) : ReadsExpr .unary (t :: us) (.unary op e) := by
  intro p ts g rest _ hts hg
  have hread := he.of_stops ⟨Nat.le_refl _, by decide⟩ hts hts.stops
  exact reads_expr.2 ⟨_, ts, (reads_primary_unary hop).2 ⟨e, hread, rfl⟩, hg⟩

/-- A primary is read as one, whatever stands after it that is no `else`. -/
theorem of_primary (h : ∀ ts : List Token, ts.head? ≠ some .kwElse →
    (primary (us ++ ts)).Reads e ts) : ReadsExpr .primary us e :=
  fun _ ts _ _ _ hts hg => reads_expr.2 ⟨e, ts, h ts hts.ne_else, hg⟩

theorem atom {t : Token} (ha : atom? t = some e) : ReadsExpr .primary [t] e :=
  of_primary fun _ _ => (reads_primary_atom ha).2 ⟨rfl, rfl⟩

theorem group (h : ReadsExpr .equality us e) :
    ReadsExpr .primary (.lparen :: us ++ [.rparen]) e := by
  refine of_primary fun ts _ => ?_
  rw [List.append_assoc]
  exact reads_primary_group.2 (h.whole_cons (by decide) (by decide) ts)

/-- An index is read after its container, between brackets. -/
theorem index (he : ReadsExpr .suffixed us e) (hf : ReadsExpr .equality vs f) :
    ReadsExpr .suffixed (us ++ .lbracket :: vs ++ [.rbracket]) (.index e f) := by
  intro p ts g rest hp hts hg
  have htokens : us ++ .lbracket :: vs ++ [.rbracket] ++ ts =
      us ++ .lbracket :: (vs ++ .rbracket :: ts) := by simp
  rw [htokens]
  refine he hp (.suffixed (by simp)) ((reads_suffixes_index (hp.lt_suffix (.inr rfl))).2 ?_)
  exact ⟨f, ts, hf.whole_cons (by decide) (by decide) ts, hg⟩

end ReadsExpr

/-! ## Programs that go on -/

/-- Of all the tokens `us`, the first ones are read without errors as the statements, and then
    reading goes on as from the tokens `ts`, be there errors in these or none. -/
def LeadsTo (us : List Token) (ss : List Stmt) (ts : List Token) : Prop :=
  (program us).program = ss ++ (program ts).program ∧ (program us).errors = (program ts).errors

namespace LeadsTo

variable {us vs ts : List Token} {ss ss' : List Stmt}

theorem refl (ts : List Token) : LeadsTo ts [] ts :=
  ⟨rfl, rfl⟩

/-- Statements are read before those that they lead to. -/
theorem trans (h : LeadsTo us ss vs) (h' : LeadsTo vs ss' ts) : LeadsTo us (ss ++ ss') ts :=
  ⟨by rw [h.1, h'.1, List.append_assoc], h.2.trans h'.2⟩

/-- A stray semicolon is passed over. -/
theorem semicolon (h : LeadsTo us ss ts) : LeadsTo (.semicolon :: us) ss ts := by
  rwa [LeadsTo, program]

end LeadsTo

/-! ## Lists -/

/-- Up to a token that closes them, the tokens are read as the expressions. -/
def ReadsExprs (us : List Token) (es : List Expr) : Prop :=
  ∀ ⦃k : Token.Kind⦄ ⦃close : Token⦄, k.token? = some close → close ∈ [.rparen, .rbracket] →
    ∀ ts, (exprs k (us ++ close :: ts)).Reads es ts

/-- Up to the brace that closes them, the tokens are read as the pairs. -/
def ReadsPairs (us : List Token) (ps : List (Expr × Expr)) : Prop :=
  ∀ ts, (pairs (us ++ .rbrace :: ts)).Reads ps ts

/-- The tokens are read as the statements: up to the brace that closes them as those of a
    block, up to their end as a program. -/
structure ReadsStmts (us : List Token) (ss : List Stmt) : Prop where
  block (ts : List Token) : (block (us ++ .rbrace :: ts)).Reads ss ts
  program : LeadsTo us ss []

/-- Arguments are read after the callee, between parentheses. -/
theorem ReadsExpr.call {us vs : List Token} {callee : Expr} {args : List Expr}
    (h : ReadsExpr .suffixed us callee) (hargs : ReadsExprs vs args) :
    ReadsExpr .suffixed (us ++ .lparen :: vs ++ [.rparen]) (.call callee args) := by
  intro p ts g rest hp hts hg
  have htokens : us ++ .lparen :: vs ++ [.rparen] ++ ts =
      us ++ .lparen :: (vs ++ .rparen :: ts) := by simp
  rw [htokens]
  refine h hp (.suffixed (by simp)) ((reads_suffixes_call (hp.lt_suffix (.inl rfl))).2 ?_)
  exact ⟨args, ts, hargs rfl (by decide) ts, hg⟩

theorem ReadsExpr.array {us : List Token} {es : List Expr} (h : ReadsExprs us es) :
    ReadsExpr .primary (.lbracket :: us ++ [.rbracket]) (.array es) := by
  refine of_primary fun ts _ => ?_
  rw [List.append_assoc]
  exact reads_primary_array.2 ⟨es, h rfl (by decide) ts, rfl⟩

theorem ReadsExpr.hash {us : List Token} {ps : List (Expr × Expr)} (h : ReadsPairs us ps) :
    ReadsExpr .primary (.lbrace :: us ++ [.rbrace]) (.hash ps) := by
  refine of_primary fun ts _ => ?_
  rw [List.append_assoc]
  exact reads_primary_hash.2 ⟨ps, h ts, rfl⟩

/-- A condition is read with the block that it chooses, if no `else` comes after it. -/
theorem ReadsExpr.cond {cs ys : List Token} {c : Expr} {yes : Block}
    (hc : ReadsExpr .equality cs c) (hyes : ReadsStmts ys yes) :
    ReadsExpr .primary (.kwIf :: .lparen :: cs ++ .rparen :: (.lbrace :: ys ++ [.rbrace]))
      (.cond c yes none) := by
  refine of_primary fun ts hts => ?_
  have htokens : .kwIf :: .lparen :: cs ++ .rparen :: (.lbrace :: ys ++ [.rbrace]) ++ ts =
      .kwIf :: .lparen :: (cs ++ .rparen :: .lbrace :: (ys ++ .rbrace :: ts)) := by simp
  rw [htokens]
  have hcond := hc.whole_cons (t := .rparen) (by decide) (by decide)
    (.lbrace :: (ys ++ .rbrace :: ts))
  have hnone := reads_alternative.2 (.inr ⟨hts, rfl, rfl⟩)
  exact reads_primary_cond.2 ⟨_, c, _, yes, ts, none, rfl, hcond, hyes.block ts, hnone, rfl⟩

theorem ReadsExpr.condElse {cs ys ns : List Token} {c : Expr} {yes no : Block}
    (hc : ReadsExpr .equality cs c) (hyes : ReadsStmts ys yes) (hno : ReadsStmts ns no) :
    ReadsExpr .primary
      (.kwIf :: .lparen :: cs ++
        .rparen :: (.lbrace :: ys ++ [.rbrace] ++ .kwElse :: (.lbrace :: ns ++ [.rbrace])))
      (.cond c yes (some no)) := by
  refine of_primary fun ts _ => ?_
  have htokens : .kwIf :: .lparen :: cs ++
        .rparen :: (.lbrace :: ys ++ [.rbrace] ++ .kwElse :: (.lbrace :: ns ++ [.rbrace])) ++ ts =
      .kwIf :: .lparen :: (cs ++ .rparen :: .lbrace :: (ys ++
        .rbrace :: .kwElse :: .lbrace :: (ns ++ .rbrace :: ts))) := by simp
  rw [htokens]
  have hcond := hc.whole_cons (t := .rparen) (by decide) (by decide)
    (.lbrace :: (ys ++ .rbrace :: .kwElse :: .lbrace :: (ns ++ .rbrace :: ts)))
  have hsome := reads_alternative.2 (.inl ⟨_, no, rfl, hno.block ts, rfl⟩)
  exact reads_primary_cond.2 ⟨_, c, _, yes, _, some no, rfl, hcond, hyes.block _, hsome, rfl⟩

/-- A function literal is read with its parameters and its body. -/
theorem ReadsExpr.function {bs : List Token} {body : Block} (xs : List String)
    (h : ReadsStmts bs body) :
    ReadsExpr .primary
      (.kwFn :: .lparen :: (xs.map Token.ident).intersperse .comma ++
        .rparen :: (.lbrace :: bs ++ [.rbrace]))
      (.function xs body) := by
  refine of_primary fun ts _ => ?_
  have htokens : .kwFn :: .lparen :: (xs.map Token.ident).intersperse .comma ++
        .rparen :: (.lbrace :: bs ++ [.rbrace]) ++ ts =
      .kwFn :: .lparen :: (xs.map Token.ident).intersperse .comma ++
        .rparen :: .lbrace :: (bs ++ .rbrace :: ts) := by simp
  rw [htokens]
  exact reads_primary_function.2 ⟨xs, _, body, rfl, h.block ts, rfl⟩

/-- What stands first in a list is not the token that closes it. -/
theorem head?_ne_of_opens {us : List Token} {close : Token}
    (hus : ∃ t vs, us = t :: vs ∧ Opens t) (hclose : ¬Opens close) (ts : List Token) :
    (us ++ ts).head? ≠ some close := by
  obtain ⟨t, vs, rfl, ht⟩ := hus
  rintro ⟨⟩
  exact hclose ht

namespace ReadsExprs

variable {us vs : List Token} {e f : Expr} {es : List Expr} {close : Token}

/-- No expression starts with a token that closes a list. -/
theorem not_opens (h : close ∈ [Token.rparen, .rbracket]) : ¬Opens close := by
  intro hopens
  have := hopens.not_mem
  simp_all

/-- A token that closes a list goes on no expression. -/
theorem not_mem_goingOn (h : close ∈ [Token.rparen, .rbracket]) :
    close ∉ goingOn ∧ close ≠ .kwElse ∧ close ≠ .comma := by
  simp only [List.mem_cons, List.not_mem_nil, or_false] at h
  rcases h with rfl | rfl <;> decide

theorem nil : ReadsExprs [] [] :=
  fun _ _ hk _ _ => (reads_exprs hk).2 (.inl ⟨rfl, rfl⟩)

/-- A last expression is read up to the token that closes the list. -/
theorem last (hus : SpellsExpr .equality us e) (h : ReadsExpr .equality us e) :
    ReadsExprs us [e] := by
  intro k close hk hclose ts
  obtain ⟨hgo, helse, hcomma⟩ := not_mem_goingOn hclose
  have hhead := head?_ne_of_opens hus.opens (not_opens hclose) (close :: ts)
  refine (reads_exprs hk).2 (.inr ⟨hhead, ?_⟩)
  exact (reads_exprs₁ hk hcomma).2 ⟨e, _, h.whole_cons hgo helse ts, .inr ⟨rfl, rfl⟩⟩

/-- An expression is read up to the comma before the others. -/
theorem cons (hus : SpellsExpr .equality us e) (h : ReadsExpr .equality us e)
    (hes : ReadsExprs vs (f :: es)) : ReadsExprs (us ++ .comma :: vs) (e :: f :: es) := by
  intro k close hk hclose ts
  obtain ⟨-, -, hcomma⟩ := not_mem_goingOn hclose
  rw [List.append_assoc, List.cons_append]
  have hhead := head?_ne_of_opens hus.opens (not_opens hclose) (.comma :: (vs ++ close :: ts))
  have he := h.whole_cons (t := .comma) (by decide) (by decide) (vs ++ close :: ts)
  have hrest : (exprs₁ k (vs ++ close :: ts)).Reads (f :: es) ts := by
    rcases (reads_exprs hk).1 (hes hk hclose ts) with ⟨-, h⟩ | ⟨-, h⟩
    · cases h
    · exact h
  refine (reads_exprs hk).2 (.inr ⟨hhead, (reads_exprs₁ hk hcomma).2 ?_⟩)
  exact ⟨e, _, he, .inl ⟨_, f :: es, rfl, hrest, rfl⟩⟩

end ReadsExprs

namespace ReadsPairs

variable {us vs ws : List Token} {k v : Expr} {ps : List (Expr × Expr)}

theorem not_opens_rbrace : ¬Opens .rbrace :=
  fun h => h.not_mem (by decide)

theorem nil : ReadsPairs [] [] :=
  fun _ => reads_pairs.2 (.inl ⟨rfl, rfl⟩)

theorem last (hus : SpellsExpr .equality us k) (hk : ReadsExpr .equality us k)
    (hv : ReadsExpr .equality vs v) : ReadsPairs (us ++ .colon :: vs) [(k, v)] := by
  intro ts
  rw [List.append_assoc, List.cons_append]
  have hkey := hk.whole_cons (t := .colon) (by decide) (by decide) (vs ++ .rbrace :: ts)
  have hvalue := hv.whole_cons (t := .rbrace) (by decide) (by decide) ts
  have hhead := head?_ne_of_opens hus.opens not_opens_rbrace (.colon :: (vs ++ .rbrace :: ts))
  exact reads_pairs.2 (.inr ⟨hhead, k, _, v, _, hkey, hvalue, .inr ⟨rfl, rfl⟩⟩)

theorem cons (hus : SpellsExpr .equality us k) (hk : ReadsExpr .equality us k)
    (hv : ReadsExpr .equality vs v) (hps : ReadsPairs ws ps) :
    ReadsPairs (us ++ .colon :: vs ++ .comma :: ws) ((k, v) :: ps) := by
  intro ts
  have htokens : us ++ .colon :: vs ++ .comma :: ws ++ .rbrace :: ts =
      us ++ .colon :: (vs ++ .comma :: (ws ++ .rbrace :: ts)) := by simp
  rw [htokens]
  have hkey := hk.whole_cons (t := .colon) (by decide) (by decide)
    (vs ++ .comma :: (ws ++ .rbrace :: ts))
  have hvalue := hv.whole_cons (t := .comma) (by decide) (by decide) (ws ++ .rbrace :: ts)
  have hhead := head?_ne_of_opens hus.opens not_opens_rbrace
    (.colon :: (vs ++ .comma :: (ws ++ .rbrace :: ts)))
  refine reads_pairs.2 (.inr ⟨hhead, k, _, v, _, hkey, hvalue, .inl ?_⟩)
  exact ⟨_, ps, rfl, hps ts, rfl⟩

end ReadsPairs

/-! ## Statements -/

/-- Before anything that does not go on it, the tokens are read as the statement, with
    a semicolon passed over. -/
def ReadsStmt (us : List Token) (s : Stmt) : Prop :=
  ∀ ⦃ts : List Token⦄, (∀ t ∈ ts.head?, t ∉ goingOn) → ts.head? ≠ some .kwElse →
    (stmt (us ++ ts)).Reads s (afterSemicolon ts)

namespace ReadsStmt

variable {us : List Token} {e : Expr}

/-- A statement that binds a name is read as this. -/
theorem bind (x : String) (h : ReadsExpr .equality us e) :
    ReadsStmt (.kwLet :: .ident x :: .assign :: us) (.bind x e) :=
  fun ts hts helse => reads_stmt.2 (.inl ⟨x, _, e, ts, rfl, h.whole hts helse, rfl, rfl⟩)

theorem ret (h : ReadsExpr .equality us e) : ReadsStmt (.kwReturn :: us) (.ret e) :=
  fun ts hts helse => reads_stmt.2 (.inr (.inl ⟨_, e, ts, rfl, h.whole hts helse, rfl, rfl⟩))

theorem expr (hus : SpellsExpr .equality us e) (h : ReadsExpr .equality us e) :
    ReadsStmt us (.expr e) := by
  intro ts hts helse
  have hlet : (us ++ ts).head? ≠ some .kwLet :=
    head?_ne_of_opens hus.opens (fun h => h.not_mem (by decide)) ts
  have hreturn : (us ++ ts).head? ≠ some .kwReturn :=
    head?_ne_of_opens hus.opens (fun h => h.not_mem (by decide)) ts
  exact reads_stmt.2 (.inr (.inr ⟨hlet, hreturn, e, ts, h.whole hts helse, rfl, rfl⟩))

end ReadsStmt

/-- A statement starts with none of the tokens that stand between statements or go on
    a choice. -/
theorem SpellsStmt.head_not_mem {us : List Token} {s : Stmt} (h : SpellsStmt us s) :
    ∃ t vs, us = t :: vs ∧ t ∉ [.semicolon, .rbrace, .kwElse] := by
  obtain ⟨t, vs, rfl, ht⟩ := h.opens
  refine ⟨t, vs, rfl, ?_⟩
  rcases ht with rfl | rfl | ht
  · decide
  · decide
  · have := ht.not_mem
    simp_all

/-- No statement starts with `else`. -/
theorem SpellsStmts.head?_ne_else {us : List Token} {ss : List Stmt} (h : SpellsStmts us ss)
    {ts : List Token} (hts : ts.head? ≠ some .kwElse) : (us ++ ts).head? ≠ some .kwElse := by
  cases h with
  | nil => exact hts
  | semicolon _ => simp
  | cons hs _ _ =>
    obtain ⟨t, vs, rfl, ht⟩ := hs.head_not_mem
    rintro ⟨⟩
    simp at ht

theorem afterSemicolon_of_ne {ts : List Token} (h : ts.head? ≠ some .semicolon) :
    afterSemicolon ts = ts := by
  unfold afterSemicolon
  split
  · exact absurd rfl h
  · rfl

/-- A semicolon before the statements of a block makes no difference. -/
theorem reads_block_afterSemicolon {ts rest : List Token} {b : Block}
    (h : (block ts).Reads b rest) : (block (afterSemicolon ts)).Reads b rest := by
  by_cases hhead : ts.head? = some .semicolon
  · obtain ⟨us, rfl⟩ := List.head?_eq_some_iff.1 hhead
    rcases reads_block.1 h with ⟨h, -⟩ | ⟨us, h, hblock⟩ | ⟨-, -, h, -⟩
    · cases h
    · obtain rfl := (List.cons.inj h).2
      exact hblock
    · exact absurd hhead h
  · rw [afterSemicolon_of_ne hhead]
    exact h

/-- Whether a semicolon is passed over after a statement or before the next does not matter. -/
theorem program_afterSemicolon (ts : List Token) : program (afterSemicolon ts) = program ts := by
  by_cases hhead : ts.head? = some .semicolon
  · obtain ⟨us, rfl⟩ := List.head?_eq_some_iff.1 hhead
    rw [program]
    rfl
  · rw [afterSemicolon_of_ne hhead]

/-- A semicolon between statements makes no difference. -/
theorem LeadsTo.afterSemicolon {us ts : List Token} {ss : List Stmt}
    (h : LeadsTo us ss (afterSemicolon ts)) : LeadsTo us ss ts := by
  rwa [LeadsTo, program_afterSemicolon] at h

/-- A statement that is read leads to what comes after it. -/
theorem LeadsTo.of_reads_stmt {t : Token} {ts rest : List Token} {s : Stmt}
    (ht : t ≠ .semicolon) (h : (stmt (t :: ts)).Reads s rest) : LeadsTo (t :: ts) [s] rest := by
  obtain ⟨hresult, hfound, rfl⟩ := h
  rw [LeadsTo, program.eq_3 t ts ht]
  simp only [hresult, Except.toOption, Option.toList_some, Reading.errors, foundIn_append, hfound,
    List.nil_append, and_self]

/-- No statement goes on with what stands between two of them, or after the last. -/
theorem head?_append_cons_not_mem {vs ts : List Token} {u : Token} (hu : u ∉ goingOn)
    (hvs : ∀ t ∈ vs.head?, t ∉ goingOn) : ∀ t ∈ (vs ++ u :: ts).head?, t ∉ goingOn := by
  cases vs with
  | nil =>
    rintro t ⟨⟩
    exact hu
  | cons v vs => exact hvs

/-- A program that begins with a statement goes on after it, past a semicolon or not. -/
theorem ReadsStmt.leadsTo {us ts : List Token} {s : Stmt} (hus : SpellsStmt us s)
    (hs : ReadsStmt us s) (hts : ∀ t ∈ ts.head?, t ∉ goingOn) (helse : ts.head? ≠ some .kwElse) :
    LeadsTo (us ++ ts) [s] ts := by
  obtain ⟨t, us, rfl, ht⟩ := hus.head_not_mem
  have hsemicolon : t ≠ .semicolon := fun heq => ht (heq ▸ List.mem_cons_self)
  exact .afterSemicolon (.of_reads_stmt hsemicolon (hs hts helse))

namespace ReadsStmts

variable {us vs : List Token} {s : Stmt} {ss : List Stmt}

theorem nil : ReadsStmts [] [] where
  block _ := reads_block.2 (.inl ⟨rfl, rfl⟩)
  program := .refl []

theorem semicolon (h : ReadsStmts us ss) : ReadsStmts (.semicolon :: us) ss where
  block ts := reads_block.2 (.inr (.inl ⟨_, rfl, h.block ts⟩))
  program := h.program.semicolon

theorem cons (hus : SpellsStmt us s) (hvs : SpellsStmts vs ss) (hgo : ∀ t ∈ vs.head?, t ∉ goingOn)
    (hs : ReadsStmt us s) (hss : ReadsStmts vs ss) : ReadsStmts (us ++ vs) (s :: ss) := by
  refine ⟨fun ts => ?_, ?_⟩
  · -- In a block, what follows the statement is another one or the brace.
    obtain ⟨t, us, rfl, ht⟩ := hus.head_not_mem
    have hsemicolon : t ≠ .semicolon := by
      rintro rfl
      simp at ht
    have hrbrace : t ≠ .rbrace := by
      rintro rfl
      simp at ht
    rw [List.append_assoc]
    have hgo' : ∀ t ∈ (vs ++ .rbrace :: ts).head?, t ∉ goingOn :=
      head?_append_cons_not_mem (by decide) hgo
    have helse : (vs ++ .rbrace :: ts).head? ≠ some .kwElse := hvs.head?_ne_else (by simp)
    refine reads_block.2 (.inr (.inr ⟨by simp, ?_, ?_, s, _, ss, hs hgo' helse, ?_, rfl⟩))
    · exact fun h => hrbrace (Option.some.inj h)
    · exact fun h => hsemicolon (Option.some.inj h)
    · exact reads_block_afterSemicolon (hss.block ts)
  · -- In a program, it is another one or nothing.
    have helse : vs.head? ≠ some .kwElse := by
      have h := @SpellsStmts.head?_ne_else vs ss hvs [] (by simp)
      rwa [List.append_nil] at h
    exact (ReadsStmt.leadsTo hus hs hgo helse).trans hss.program

end ReadsStmts

/-! ## Trees -/

mutual

/-- An expression is read from all tokens that spell it. -/
theorem SpellsExpr.reads {l : Level} {us : List Token} {e : Expr} :
    SpellsExpr l us e → ReadsExpr l us e
  | .loosen h => h.reads.loosen
  | .binary hop h h' => .binary hop h.reads h'.reads
  | .unary hop h => .unary hop h.reads
  | .call h h' => h.reads.call h'.reads
  | .index h h' => h.reads.index h'.reads
  | .atom ha => .atom ha
  | .group h => h.reads.group
  | .array h => .array h.reads
  | .hash h => .hash h.reads
  | .cond h (.braces h') => .cond h.reads h'.reads
  | .condElse h (.braces h') (.braces h'') => .condElse h.reads h'.reads h''.reads
  | .function (.braces h) => .function _ h.reads
termination_by structural h => h

theorem SpellsExprs.reads {us : List Token} {es : List Expr} :
    SpellsExprs us es → ReadsExprs us es
  | .nil => .nil
  | .last h => .last h h.reads
  | .cons h h' => .cons h h.reads h'.reads
termination_by structural h => h

theorem SpellsPairs.reads {us : List Token} {ps : List (Expr × Expr)} :
    SpellsPairs us ps → ReadsPairs us ps
  | .nil => .nil
  | .last h h' => .last h h.reads h'.reads
  | .cons h h' h'' => .cons h h.reads h'.reads h''.reads
termination_by structural h => h

/-- Statements are read from all tokens that spell them. -/
theorem SpellsStmts.reads {us : List Token} {ss : List Stmt} :
    SpellsStmts us ss → ReadsStmts us ss
  | .nil => .nil
  | .semicolon h => h.reads.semicolon
  | .cons hs hgo h => .cons hs h hgo hs.reads h.reads
termination_by structural h => h

theorem SpellsStmt.reads {us : List Token} {s : Stmt} : SpellsStmt us s → ReadsStmt us s
  | .bind h => .bind _ h.reads
  | .ret h => .ret h.reads
  | .expr h => .expr h h.reads
termination_by structural h => h

end

/-! ## What stands after a program -/

/-- After these tokens and a semicolon the rest is read as if there was nothing before it, be there
    errors in it or none. -/
def Precedes (ts : List Token) (ss : List Stmt) : Prop :=
  ∀ us, LeadsTo (ts ++ .semicolon :: us) ss us

namespace Precedes

variable {us vs : List Token} {s : Stmt} {ss : List Stmt}

theorem nil : Precedes [] [] :=
  fun ts => (LeadsTo.refl ts).semicolon

theorem semicolon (h : Precedes us ss) : Precedes (.semicolon :: us) ss :=
  fun ts => (h ts).semicolon

theorem cons (hus : SpellsStmt us s) (hvs : SpellsStmts vs ss) (hgo : ∀ t ∈ vs.head?, t ∉ goingOn)
    (h : Precedes vs ss) : Precedes (us ++ vs) (s :: ss) := by
  intro ts
  -- What follows the first statement is the second one, or the semicolon after both.
  have hgo' : ∀ t ∈ (vs ++ .semicolon :: ts).head?, t ∉ goingOn :=
    head?_append_cons_not_mem (by decide) hgo
  have helse : (vs ++ .semicolon :: ts).head? ≠ some .kwElse := hvs.head?_ne_else (by simp)
  rw [List.append_assoc]
  exact (ReadsStmt.leadsTo hus hus.reads hgo' helse).trans (h ts)

end Precedes

/-- Statements precede whatever comes after them and a semicolon. -/
theorem SpellsStmts.precedes {us : List Token} {ss : List Stmt} :
    SpellsStmts us ss → Precedes us ss
  | .nil => .nil
  | .semicolon h => h.precedes.semicolon
  | .cons hs hgo h => .cons hs h hgo h.precedes
termination_by structural h => h

/-! ## The main statement -/

/-- Tokens are read without errors as the programs that they spell. -/
theorem spellsProgram_iff {ts : List Token} {p : Program} :
    SpellsProgram ts p ↔ (program ts).errors = [] ∧ (program ts).program = p := by
  constructor
  · intro h
    obtain ⟨hprogram, herrors⟩ := h.reads.program
    rw [program, List.append_nil] at hprogram
    rw [program] at herrors
    exact ⟨herrors, hprogram⟩
  · rintro ⟨herrors, rfl⟩
    exact spellsProgram_of_errors_eq_nil herrors

/-- A source is parsed without errors as a program if and only if its tokens spell
    this program, and no tokens spell two. -/
theorem parse_eq_ok_iff_spellsProgram :
    (∀ (source : String) (p : Program),
      Program.parse source = .ok p ↔ SpellsProgram (Token.ofString source) p) ∧
    ∀ (ts : List Token) (p q : Program), SpellsProgram ts p → SpellsProgram ts q → p = q := by
  constructor
  · intro source p
    rw [Program.parse_eq_ok_iff, spellsProgram_iff, Program.read]
  · intro ts p q hp hq
    rw [← (spellsProgram_iff.1 hp).2, ← (spellsProgram_iff.1 hq).2]

end Grammar

end Monkey
