import Monkey.Proofs.Grammar
import Monkey.Proofs.Grammar.Reads

/-!
# What is read is spelled

A part that is read without errors is spelled by the tokens that were taken for it.

The suffixes of an expression are where strengths and levels meet. The expression
before them stands on some level, and no operator that follows binds stronger than
those of this level: so it can be the left operand of any operator that follows
(`suffixes_sound`).
-/

namespace Monkey

namespace Grammar

open Parse (Stops afterSemicolon)

/-! ## Strengths and levels -/

/-- The level of what is read in surroundings of a certain strength. -/
def levelWithin : Precedence → Level
  | .lowest => .equality
  | .equality => .comparison
  | .comparison => .sum
  | .sum => .product
  | .product | .unary | .call | .index => .unary

/-- The strength of the suffixes that make an expression of a level. -/
def Level.strength : Level → Precedence
  | equality => .equality
  | comparison => .comparison
  | sum => .sum
  | product => .product
  | unary => .unary
  | suffixed | primary => .index

/-- The level of the applications of a binary operator. -/
def levelOf : BinaryOp → Level
  | .eq | .ne => .equality
  | .lt | .gt => .comparison
  | .add | .sub => .sum
  | .mul | .div => .product

/-- The operators of a level bind as strong as is said of the level. -/
theorem strength_levelOf (op : BinaryOp) : (levelOf op).strength = op.precedence := by
  cases op <;> rfl

theorem levelWithin_precedence (op : BinaryOp) :
    levelWithin op.precedence = (levelOf op).next := by
  cases op <;> rfl

theorem mem_operators_of_suffix? {t : Token} {op : BinaryOp}
    (h : t.suffix? = some (.operator op)) : (t, op) ∈ (levelOf op).operators := by
  unfold Token.suffix? at h
  split at h <;> cases h <;> decide

/-- An operator that binds stronger than the surroundings makes what may stand there. -/
theorem rank_levelWithin_le {p : Precedence} {op : BinaryOp} (h : p < op.precedence) :
    (levelWithin p).rank ≤ (levelOf op).rank := by
  revert h
  cases p <;> cases op <;> decide

/-- An expression can be the left operand of an operator that binds no stronger than
    those of its level. -/
theorem rank_levelOf_le {l : Level} {op : BinaryOp} (h : ¬l.strength < op.precedence) :
    (levelOf op).rank ≤ l.rank := by
  revert h
  cases l <;> cases op <;> decide

/-- Only calls, indexes and primaries can be called or indexed. -/
theorem rank_suffixed_le {l : Level} {s : Suffix} (hs : s = .call ∨ s = .index)
    (h : ¬l.strength < s.precedence) : Level.suffixed.rank ≤ l.rank := by
  revert h
  rcases hs with rfl | rfl <;> cases l <;> decide

theorem rank_levelWithin_le_unary (p : Precedence) :
    (levelWithin p).rank ≤ Level.unary.rank := by
  cases p <;> decide

/-- Every suffix binds in the weakest surroundings. -/
theorem lowest_lt_precedence (s : Suffix) : Precedence.lowest < s.precedence := by
  cases s with
  | operator op => cases op <;> decide
  | call | index => decide

/-- No suffix binds stronger than an index. -/
theorem not_index_lt_precedence (s : Suffix) : ¬Precedence.index < s.precedence := by
  cases s with
  | operator op => cases op <;> decide
  | call | index => decide

/-! ## Ends of statements -/

/-- The tokens that go on an expression are those that start suffixes. -/
theorem mem_goingOn_iff {t : Token} : t ∈ goingOn ↔ ∃ s, t.suffix? = some s := by
  cases t <;> simp [goingOn, Token.suffix?]

/-- Every suffix binds stronger than the weakest surroundings. -/
theorem stops_lowest_iff {ts : List Token} :
    Stops .lowest ts ↔ ∀ t ∈ ts.head?, t ∉ goingOn := by
  refine forall_congr' fun t => imp_congr_right fun _ => ?_
  rw [mem_goingOn_iff, not_exists]
  refine forall_congr' fun s => imp_congr_right fun _ => iff_of_false ?_ id
  exact fun h => h (lowest_lt_precedence s)

/-- A statement and what is spelled after it, where a semicolon has been passed over:
    `tail` is what stands after both. -/
theorem SpellsStmts.cons_of_afterSemicolon {us vs ws tail : List Token} {s : Stmt}
    {ss : List Stmt} (hs : SpellsStmt us s) (hvs : ∀ t ∈ vs.head?, t ∉ goingOn)
    (hws : afterSemicolon vs = ws ++ tail) (h : SpellsStmts ws ss) :
    ∃ xs, us ++ vs = xs ++ tail ∧ SpellsStmts xs (s :: ss) := by
  unfold afterSemicolon at hws
  split at hws
  · subst hws
    refine ⟨us ++ .semicolon :: ws, by simp, .cons hs ?_ (.semicolon h)⟩
    rintro t ⟨⟩
    decide
  · subst hws
    refine ⟨us ++ ws, by simp, .cons hs ?_ h⟩
    cases ws with
    | nil => simp
    | cons w ws => exact hvs

/-! ## Expressions, lists, blocks and statements -/

open Reply Parse

/-- Reading goes on only with a suffix that binds stronger than the surroundings. -/
theorem exists_suffix_of_not_stops {p : Precedence} {ts : List Token} (h : ¬Stops p ts) :
    ∃ t us s, ts = t :: us ∧ t.suffix? = some s ∧ p < s.precedence := by
  simp only [Stops, Classical.not_forall, Classical.not_not] at h
  obtain ⟨t, ht, s, hs, hp⟩ := h
  obtain ⟨us, rfl⟩ := List.head?_eq_some_iff.1 ht
  exact ⟨t, us, s, rfl, hs, hp⟩

theorem eq_of_suffix?_eq_call {t : Token} (h : t.suffix? = some .call) : t = .lparen := by
  unfold Token.suffix? at h
  split at h <;> first | rfl | cases h

theorem eq_of_suffix?_eq_index {t : Token} (h : t.suffix? = some .index) : t = .lbracket := by
  unfold Token.suffix? at h
  split at h <;> first | rfl | cases h

/-- What is read from fewer than `n` tokens is spelled by those that were taken. -/
structure SoundBelow (n : Nat) : Prop where
  expr {p : Precedence} {ts rest : List Token} {e : Expr} : ts.length < n →
    (expr p ts).Reads e rest →
    ∃ us, ts = us ++ rest ∧ SpellsExpr (levelWithin p) us e ∧ Stops p rest
  /-- The expression `left` before the suffixes stands on the level `l`, and those that
      follow bind no stronger than this level does. -/
  suffixes {p : Precedence} {l : Level} {vs ts rest : List Token} {left e : Expr} :
    ts.length < n → SpellsExpr l vs left → (levelWithin p).rank ≤ l.rank → Stops l.strength ts →
    (suffixes p left ts).Reads e rest →
    ∃ us, ts = us ++ rest ∧ SpellsExpr (levelWithin p) (vs ++ us) e ∧ Stops p rest
  exprs₁ {k : Token.Kind} {close : Token} {ts rest : List Token} {es : List Expr} :
    ts.length < n → k.token? = some close → close ≠ .comma → (exprs₁ k ts).Reads es rest →
    ∃ us, ts = us ++ close :: rest ∧ SpellsExprs us es ∧ es ≠ []
  pairs {ts rest : List Token} {ps : List (Expr × Expr)} : ts.length < n →
    (pairs ts).Reads ps rest → ∃ us, ts = us ++ .rbrace :: rest ∧ SpellsPairs us ps
  block {ts rest : List Token} {b : Block} : ts.length < n →
    (block ts).Reads b rest → ∃ us, ts = us ++ .rbrace :: rest ∧ SpellsStmts us b

namespace SoundBelow

variable {n : Nat} {p : Precedence} {ts rest : List Token} {e : Expr}

/-- Expressions up to a closing token are spelled, and there may be none. -/
theorem exprs (ih : SoundBelow n) {k : Token.Kind} {close : Token} (hts : ts.length < n)
    (hk : k.token? = some close) (hclose : close ≠ .comma) {es : List Expr}
    (h : (Parse.exprs k ts).Reads es rest) :
    ∃ us, ts = us ++ close :: rest ∧ SpellsExprs us es := by
  rcases (reads_exprs hk).1 h with ⟨rfl, rfl⟩ | ⟨-, h⟩
  · exact ⟨[], rfl, .nil⟩
  · obtain ⟨us, hus, hes, -⟩ := ih.exprs₁ hts hk hclose h
    exact ⟨us, hus, hes⟩

/-- A unary operator takes all the suffixes that stand after it, and anything else
    that is read as a primary is one. -/
theorem primary_step (ih : SoundBelow n) (hts : ts.length ≤ n)
    (h : (primary ts).Reads e rest) :
    ∃ l us, ts = us ++ rest ∧ SpellsExpr l us e ∧ Level.unary.rank ≤ l.rank ∧
      Stops l.strength rest := by
  have hprimary (us : List Token) (hts : ts = us ++ rest) (hus : SpellsExpr .primary us e) :
      ∃ l us, ts = us ++ rest ∧ SpellsExpr l us e ∧ Level.unary.rank ≤ l.rank ∧
        Stops l.strength rest :=
    ⟨.primary, us, hts, hus, by decide, fun _ _ s _ => not_index_lt_precedence s⟩
  obtain ⟨t, ts, rfl, ht⟩ := opens_of_reads_primary h
  have hlt : ts.length < n := hts
  cases ht with
  | atom ha =>
    obtain ⟨rfl, rfl⟩ := (reads_primary_atom ha).1 h
    exact hprimary [t] rfl (.atom ha)
  | unary hop =>
    obtain ⟨f, hf, rfl⟩ := (reads_primary_unary hop).1 h
    obtain ⟨us, rfl, hus, hstop⟩ := ih.expr hlt hf
    exact ⟨.unary, t :: us, rfl, .unary hop hus, Nat.le_refl _, hstop⟩
  | lparen =>
    obtain ⟨us, rfl, hus, -⟩ := ih.expr hlt (reads_primary_group.1 h)
    exact hprimary (.lparen :: us ++ [.rparen]) (by simp) (.group hus)
  | lbracket =>
    obtain ⟨es, hes, rfl⟩ := reads_primary_array.1 h
    obtain ⟨us, rfl, hus⟩ := ih.exprs hlt rfl (by decide) hes
    exact hprimary (.lbracket :: us ++ [.rbracket]) (by simp) (.array hus)
  | lbrace =>
    obtain ⟨ps, hps, rfl⟩ := reads_primary_hash.1 h
    obtain ⟨us, rfl, hus⟩ := ih.pairs hlt hps
    exact hprimary (.lbrace :: us ++ [.rbrace]) (by simp) (.hash hus)
  | kwIf =>
    obtain ⟨_, c, vs, yes, ws, no, rfl, hc, hyes, hno, rfl⟩ := reads_primary_cond.1 h
    have hvs := hc.length_le
    have hws := hyes.length_le
    simp only [List.length_tail, List.length_cons] at hlt hvs hws
    obtain ⟨cs, rfl, hcs, -⟩ := ih.expr (by omega) hc
    obtain ⟨ys, rfl, hys⟩ := ih.block (by omega) hyes
    rcases reads_alternative.1 hno with ⟨vs, no, rfl, hblock, rfl⟩ | ⟨-, rfl, rfl⟩
    · simp only [List.length_cons] at hws
      obtain ⟨ns, rfl, hns⟩ := ih.block (by omega) hblock
      exact hprimary _ (by simp) (.condElse hcs (.braces hys) (.braces hns))
    · exact hprimary _ (by simp) (.cond hcs (.braces hys))
  | kwFn =>
    obtain ⟨xs, us, body, rfl, hbody, rfl⟩ := reads_primary_function.1 h
    simp only [List.length_append, List.length_cons] at hlt
    obtain ⟨bs, rfl, hbs⟩ := ih.block (by omega) hbody
    have hfunction := @SpellsExpr.function xs _ _ (.braces hbs)
    exact hprimary _ (by simp) hfunction

/-- Suffixes go on an expression of the level that they find, and leave one of the level of the
    surroundings. -/
theorem suffixes_step (ih : SoundBelow n) (hts : ts.length ≤ n) {l : Level} {vs : List Token}
    {left : Expr} (hleft : SpellsExpr l vs left) (hl : (levelWithin p).rank ≤ l.rank)
    (hstop : Stops l.strength ts) (h : (Parse.suffixes p left ts).Reads e rest) :
    ∃ us, ts = us ++ rest ∧ SpellsExpr (levelWithin p) (vs ++ us) e ∧ Stops p rest := by
  by_cases hp : Stops p ts
  · -- Nothing goes on the expression, and a tighter level is within a looser one.
    rw [suffixes_of_stops hp, reads_done] at h
    obtain ⟨rfl, rfl⟩ := h
    exact ⟨[], rfl, by simpa using hleft.of_rank_le hl, hp⟩
  obtain ⟨t, ts, s, rfl, ht, hs⟩ := exists_suffix_of_not_stops hp
  have hls := hstop t rfl s ht
  have hlt : ts.length < n := hts
  have hlevel := Nat.le_trans (rank_levelWithin_le_unary p)
    (show Level.unary.rank ≤ Level.suffixed.rank by decide)
  have hindex (us : List Token) : Stops .index us := fun _ _ s _ => not_index_lt_precedence s
  -- The suffix makes an expression of its level from `left`, which comes before those
  -- that follow it in turn.
  cases s with
  | operator op =>
    obtain ⟨right, us, hright, hrest⟩ := (reads_suffixes_operator ht hs).1 h
    have hus := hright.length_le
    rw [List.length_tail] at hus
    obtain ⟨rs, rfl, hrs, hstop'⟩ := ih.expr hlt hright
    rw [levelWithin_precedence] at hrs
    rw [← strength_levelOf] at hstop'
    have hbinary := SpellsExpr.binary (mem_operators_of_suffix? ht)
      (hleft.of_rank_le (rank_levelOf_le hls)) hrs
    obtain ⟨ws, rfl, hws, hstop''⟩ :=
      ih.suffixes (by omega) hbinary (rank_levelWithin_le hs) hstop' hrest
    exact ⟨t :: rs ++ ws, by simp, by simpa using hws, hstop''⟩
  | call =>
    obtain rfl := eq_of_suffix?_eq_call ht
    obtain ⟨args, us, hargs, hrest⟩ := (reads_suffixes_call hs).1 h
    have hus := hargs.length_le
    obtain ⟨rs, rfl, hrs⟩ := ih.exprs hlt rfl (by decide) hargs
    have hcall := SpellsExpr.call (hleft.of_rank_le (rank_suffixed_le (.inl rfl) hls)) hrs
    obtain ⟨ws, rfl, hws, hstop'⟩ := ih.suffixes (by omega) hcall hlevel (hindex us) hrest
    exact ⟨.lparen :: rs ++ .rparen :: ws, by simp, by simpa using hws, hstop'⟩
  | index =>
    obtain rfl := eq_of_suffix?_eq_index ht
    obtain ⟨key, us, hkey, hrest⟩ := (reads_suffixes_index hs).1 h
    have hus := hkey.length_le
    rw [List.length_tail, List.length_cons] at hus
    obtain ⟨rs, rfl, hrs, -⟩ := ih.expr hlt hkey
    have hindexed := SpellsExpr.index (hleft.of_rank_le (rank_suffixed_le (.inr rfl) hls)) hrs
    obtain ⟨ws, rfl, hws, hstop'⟩ := ih.suffixes (by omega) hindexed hlevel (hindex us) hrest
    exact ⟨.lbracket :: rs ++ .rbracket :: ws, by simp, by simpa using hws, hstop'⟩

/-- An expression that is read stands on the level of the surroundings, and nothing after it goes
    on it. -/
theorem expr_step (ih : SoundBelow n) (hts : ts.length ≤ n) (h : (Parse.expr p ts).Reads e rest) :
    ∃ us, ts = us ++ rest ∧ SpellsExpr (levelWithin p) us e ∧ Stops p rest := by
  obtain ⟨first, vs, hfirst, hvs⟩ := reads_expr.1 h
  have hlen := hfirst.length_le
  rw [List.length_tail] at hlen
  obtain ⟨l, us, rfl, hus, hl, hstop⟩ := ih.primary_step hts hfirst
  have hp := Nat.le_trans (rank_levelWithin_le_unary p) hl
  obtain ⟨ws, rfl, hws, hrest⟩ := ih.suffixes_step (by omega) hus hp hstop hvs
  exact ⟨us ++ ws, (List.append_assoc _ _ _).symm, hws, hrest⟩

theorem exprs₁_step (ih : SoundBelow n) (hts : ts.length ≤ n) {k : Token.Kind} {close : Token}
    (hk : k.token? = some close) (hclose : close ≠ .comma) {es : List Expr}
    (h : (Parse.exprs₁ k ts).Reads es rest) :
    ∃ us, ts = us ++ close :: rest ∧ SpellsExprs us es ∧ es ≠ [] := by
  obtain ⟨e, vs, he, hrest⟩ := (reads_exprs₁ hk hclose).1 h
  have hlen := he.length_le
  obtain ⟨us, rfl, hus, -⟩ := ih.expr_step hts he
  rcases hrest with ⟨vs, fs, rfl, hfs, rfl⟩ | ⟨rfl, rfl⟩
  · rw [List.length_tail, List.length_cons] at hlen
    obtain ⟨vs, rfl, hvs, hne⟩ := ih.exprs₁ (by omega) hk hclose hfs
    obtain ⟨f, fs, rfl⟩ := List.exists_cons_of_ne_nil hne
    exact ⟨us ++ .comma :: vs, by simp, .cons hus hvs, by simp⟩
  · exact ⟨us, rfl, .last hus, by simp⟩

theorem pairs_step (ih : SoundBelow n) (hts : ts.length ≤ n) {ps : List (Expr × Expr)}
    (h : (Parse.pairs ts).Reads ps rest) :
    ∃ us, ts = us ++ .rbrace :: rest ∧ SpellsPairs us ps := by
  rcases reads_pairs.1 h with ⟨rfl, rfl⟩ | ⟨-, key, us, value, vs, hkey, hvalue, hrest⟩
  · exact ⟨[], rfl, .nil⟩
  have hus := hkey.length_le
  have hvs := hvalue.length_le
  rw [List.length_tail, List.length_cons] at hus
  rw [List.length_tail] at hvs
  obtain ⟨ks, rfl, hks, -⟩ := ih.expr_step hts hkey
  obtain ⟨ws, rfl, hws, -⟩ := ih.expr_step (by omega) hvalue
  rcases hrest with ⟨xs, qs, rfl, hqs, rfl⟩ | ⟨rfl, rfl⟩
  · rw [List.length_cons] at hvs
    obtain ⟨xs, rfl, hxs⟩ := ih.pairs (by omega) hqs
    exact ⟨ks ++ .colon :: ws ++ .comma :: xs, by simp, .cons hks hws hxs⟩
  · exact ⟨ks ++ .colon :: ws, by simp, .last hks hws⟩

/-- A statement is spelled up to a token that does not go on it, and maybe a semicolon. -/
theorem stmt_step (ih : SoundBelow n) (hts : ts.length ≤ n) {s : Stmt}
    (h : (stmt ts).Reads s rest) :
    ∃ us vs, ts = us ++ vs ∧ SpellsStmt us s ∧ (∀ t ∈ vs.head?, t ∉ goingOn) ∧
      rest = afterSemicolon vs := by
  rcases reads_stmt.1 h with ⟨x, us, e, vs, rfl, he, rfl, rfl⟩ | ⟨us, e, vs, rfl, he, rfl, rfl⟩ |
    ⟨-, -, e, vs, he, rfl, rfl⟩
  · simp only [List.length_cons] at hts
    obtain ⟨us, rfl, hus, hvs⟩ := ih.expr (by omega) he
    exact ⟨_, vs, rfl, .bind hus, stops_lowest_iff.1 hvs, rfl⟩
  · obtain ⟨us, rfl, hus, hvs⟩ := ih.expr hts he
    exact ⟨_, vs, rfl, .ret hus, stops_lowest_iff.1 hvs, rfl⟩
  · obtain ⟨us, rfl, hus, hvs⟩ := ih.expr_step hts he
    exact ⟨us, vs, rfl, .expr hus, stops_lowest_iff.1 hvs, rfl⟩

/-- Statements are spelled up to the brace that closes their block. -/
theorem block_step (ih : SoundBelow n) (hts : ts.length ≤ n) {b : Block}
    (h : (Parse.block ts).Reads b rest) :
    ∃ us, ts = us ++ .rbrace :: rest ∧ SpellsStmts us b := by
  rcases reads_block.1 h with ⟨rfl, rfl⟩ | ⟨us, rfl, h'⟩ | ⟨hne, -, -, s, us, ss, hs, hss, rfl⟩
  · exact ⟨[], rfl, .nil⟩
  · -- A stray semicolon.
    obtain ⟨us, rfl, hus⟩ := ih.block hts h'
    exact ⟨.semicolon :: us, rfl, .semicolon hus⟩
  · have hlen := hs.length_le
    have hpos := List.length_pos_iff.2 hne
    rw [List.length_tail] at hlen
    obtain ⟨us, vs, rfl, hus, hvs, rfl⟩ := ih.stmt_step hts hs
    obtain ⟨ws, hws, hss⟩ := ih.block (by omega) hss
    exact SpellsStmts.cons_of_afterSemicolon hus hvs hws hss

end SoundBelow

/-- What is read is spelled, by induction on how many tokens there are. -/
theorem soundBelow (n : Nat) : SoundBelow n := by
  -- Every step is about one more token than those that it takes for granted.
  induction n with
  | zero => constructor <;> exact fun h => (Nat.not_lt_zero _ h).elim
  | succ n ih =>
    exact {
      expr := fun h => ih.expr_step (Nat.le_of_lt_succ h)
      suffixes := fun h => ih.suffixes_step (Nat.le_of_lt_succ h)
      exprs₁ := fun h hk hclose => ih.exprs₁_step (Nat.le_of_lt_succ h) hk hclose
      pairs := fun h => ih.pairs_step (Nat.le_of_lt_succ h)
      block := fun h => ih.block_step (Nat.le_of_lt_succ h) }

/-! ## Programs -/

/-- A program that is read without errors is spelled by its tokens. -/
theorem spellsProgram_of_errors_eq_nil {ts : List Token} (h : (program ts).errors = []) :
    SpellsProgram ts (program ts).program := by
  fun_induction program ts with
  | case1 => exact .nil
  | case2 ts ih => exact .semicolon (ih h)
  | case3 t ts _ first others ih =>
    -- Errors that are found inside a statement that is read count as well.
    obtain ⟨hfound, hothers⟩ := errors_append_eq_nil_iff.1 h
    rcases hfirst : first.result with e | s
    · exact absurd hfound (first.found_of_error hfirst)
    · have hs : first.Reads s first.rest := ⟨hfirst, hfound, rfl⟩
      obtain ⟨us, vs, hts, hus, hvs, hrest⟩ := (soundBelow _).stmt_step (Nat.le_refl _) hs
      have hrest' : afterSemicolon vs = first.rest ++ [] := by rw [List.append_nil, hrest]
      obtain ⟨xs, hxs, hspells⟩ := SpellsStmts.cons_of_afterSemicolon hus hvs hrest' (ih hothers)
      obtain rfl : xs = t :: ts := by rw [hts, hxs, List.append_nil]
      exact hspells

end Grammar

end Monkey
