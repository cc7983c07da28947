import Monkey.Expr.Render
import Monkey.Proofs.Canonical

/-!
# Rendered programs

A rendered program can be parsed again where the rendering keeps the statements apart:
it leaves out the braces of blocks, and nothing ends a statement that is an expression.
So the main statement is about programs that have no blocks and in which all statements
but the last end with a semicolon (`Program.parse_render`).

Such a rendering is scanned, whatever it is followed by, as tokens that spell what is
rendered (`Rendered`). This is built up in the shape of the tree, one lemma for each form
of expression. Calls and literals are rendered without parentheses, so what is spelled is
an expression on the level of calls; all others are in parentheses.
-/

namespace Monkey

open Token

/-! ## Trees without blocks -/

mutual

/-- The expression contains no block, that is, neither a choice nor a function. -/
def Expr.blockFree : Expr → Bool
  | .ident _ | .int _ | .str _ | .bool _ => true
  | .array elements => Expr.blockFreeList elements
  | .hash pairs => Expr.blockFreePairs pairs
  | .unary _ e => e.blockFree
  | .binary _ l r => l.blockFree && r.blockFree
  | .cond .. | .function .. => false
  | .call callee args => callee.blockFree && Expr.blockFreeList args
  | .index container key => container.blockFree && key.blockFree
termination_by structural e => e

/-- None of the expressions contains a block. -/
def Expr.blockFreeList : List Expr → Bool
  | [] => true
  | e :: es => e.blockFree && Expr.blockFreeList es
termination_by structural es => es

/-- None of the keys and values contains a block. -/
def Expr.blockFreePairs : List (Expr × Expr) → Bool
  | [] => true
  | (k, v) :: ps => k.blockFree && v.blockFree && Expr.blockFreePairs ps
termination_by structural ps => ps

end

/-- The statement contains no block. -/
def Stmt.blockFree : Stmt → Bool
  | .bind _ e | .ret e | .expr e => e.blockFree

/-! ## Texts and their tokens -/

namespace Token

/-- The text is scanned as the tokens, and what follows it as what it would be scanned as
    on its own, unless it goes on a name. -/
def Scans (cs : List Char) (ts : List Token) : Prop :=
  ∀ ⦃rest us⦄, Halts isNameRest rest → Splits rest us → Splits (cs ++ rest) (ts ++ us)

/-- A sign that nothing makes longer may stand before any tokens. -/
theorem Splits.sign {c : Char} {t : Token} (hc : sign? c = some t) (ht : t ∉ [assign, bang])
    {rest : List Char} {ts : List Token} (h : Splits rest ts) : Splits (c :: rest) (t :: ts) := by
  have hword : Word t t.spelling.toList rest :=
    .sign (mem_signs_of_sign? hc) fun hmem => absurd hmem ht
  rw [spelling_of_sign? hc, String.toList_singleton] at hword
  exact h.lexeme (.word hword)

/-- What starts with an equals sign is read as one or as two. -/
theorem fst_ofSign_assign (cs : List Char) :
    (ofSign assign cs).1 = assign ∨ (ofSign assign cs).1 = eq := by
  unfold ofSign
  split <;> simp_all

/-- The first of the tokens is the one that is read first. -/
theorem fst_next_of_scan {c : Char} {cs : List Char} {t : Token} {ts : List Token}
    (h : scan (c :: cs) = t :: ts) : (next (c :: cs)).1 = t := by
  rw [scan] at h
  split at h
  · cases h
  · exact (List.cons.inj h).1

/-- No token that starts an expression starts with an equals sign. -/
theorem Splits.ne_equals {cs : List Char} {t : Token} {ts : List Token} (h : Splits cs (t :: ts))
    (ht : Grammar.Opens t) : cs.head? ≠ some '=' := by
  intro hcs
  obtain ⟨ds, rfl⟩ := List.head?_eq_some_iff.1 hcs
  have hfirst : (ofSign assign ds).1 = t := fst_next_of_scan h.scan_eq
  rcases fst_ofSign_assign ds with heq | heq
  · exact ht.not_mem (by rw [← hfirst, heq]; decide)
  · exact ht.not_mem (by rw [← hfirst, heq]; decide)

namespace Scans

variable {cs ds : List Char} {t u : Token} {ts us : List Token}

theorem nil : Scans [] [] :=
  fun _ _ _ h => h

/-- A blank may come before a text. -/
theorem blank (h : Scans cs ts) : Scans (' ' :: cs) ts :=
  fun _ _ hrest hus => (h hrest hus).blank (by decide)

/-- A token may be written before a text where it ends. -/
theorem write (h : Scans cs ts) (ht : Writable t)
    (hends : ∀ rest us, Splits (cs ++ rest) (ts ++ us) → Ends t (cs ++ rest)) :
    Scans (t.written.toList ++ cs) (t :: ts) := by
  intro rest us hrest hus
  have hcs := h hrest hus
  rw [List.append_assoc]
  exact hcs.write ht (hends rest us hcs)

/-- A token may always be written before a blank. -/
theorem write_blank (h : Scans cs ts) (ht : Writable t) :
    Scans (t.written.toList ++ ' ' :: cs) (t :: ts) :=
  h.blank.write ht fun rest _ _ => .of_blank t (cs ++ rest)

/-- A token that nothing but characters of names makes longer may be written at the end. -/
theorem write_end (ht : Writable t) (hmem : t ∉ [assign, bang]) :
    Scans t.written.toList [t] :=
  fun _ _ hrest hus => hus.write ht ⟨fun h => absurd h hmem, fun _ => hrest⟩

/-- A sign that nothing makes longer may come before a text. -/
theorem sign {c : Char} (h : Scans cs ts) (hc : sign? c = some t) (ht : t ∉ [assign, bang]) :
    Scans (c :: cs) (t :: ts) :=
  fun _ _ hrest hus => (h hrest hus).sign hc ht

/-- A text may stand before another one that does not go on a name. -/
theorem append (h : Scans cs ts) (h' : Scans ds us)
    (hds : ∀ rest, Halts isNameRest (ds ++ rest)) : Scans (cs ++ ds) (ts ++ us) := by
  intro rest vs hrest hvs
  rw [List.append_assoc, List.append_assoc]
  exact h (hds rest) (h' hrest hvs)

/-- Two texts may stand together, if the second starts with what goes on no name. -/
theorem append_cons {d : Char} (h : Scans cs ts) (h' : Scans (d :: ds) us)
    (hd : isNameRest d = false) : Scans (cs ++ d :: ds) (ts ++ us) :=
  h.append h' fun rest => halts_cons hd (ds ++ rest)

/-- A text may stand between two signs. -/
theorem between {c d : Char} (h : Scans cs ts) (hc : sign? c = some t) (hd : sign? d = some u)
    (ht : t ∉ [assign, bang]) (hu : u ∉ [assign, bang]) (hdrest : isNameRest d = false) :
    Scans (c :: cs ++ [d]) (t :: ts ++ [u]) :=
  (h.append_cons (nil.sign hd hu) hdrest).sign hc ht

/-- A text may be put between parentheses. -/
theorem parens (h : Scans cs ts) : Scans ('(' :: cs ++ [')']) (parens ts) :=
  h.between rfl rfl (by decide) (by decide) (by decide)

theorem brackets (h : Scans cs ts) : Scans ('[' :: cs ++ [']']) (brackets ts) :=
  h.between rfl rfl (by decide) (by decide) (by decide)

theorem braces (h : Scans cs ts) : Scans ('\x7b' :: cs ++ ['\x7d']) (braces ts) :=
  h.between rfl rfl (by decide) (by decide) (by decide)

/-- A text may stand before others, with commas between them. -/
theorem comma {x y : String} {xs : List String} (hx : Scans x.toList ts)
    (hxs : Scans (", ".intercalate (y :: xs)).toList us) :
    Scans (", ".intercalate (x :: y :: xs)).toList (ts ++ .comma :: us) := by
  have hcomma := hxs.blank.sign (c := ',') rfl (by decide)
  simpa [String.intercalate_cons_cons] using hx.append_cons hcomma (by decide)

/-- Two texts may stand as a key and a value. -/
theorem colon {x y : String} (hx : Scans x.toList ts) (hy : Scans y.toList us) :
    Scans (x ++ ": " ++ y).toList (ts ++ .colon :: us) := by
  have hcolon := hy.blank.sign (c := ':') rfl (by decide)
  simpa using hx.append_cons hcolon (by decide)

end Scans

end Token

open Grammar

/-! ## Operators -/

/-- A unary operator is rendered as its token is written. -/
theorem UnaryOp.written_token (op : UnaryOp) : op.token.written = op.symbol := by
  cases op <;> rfl

theorem BinaryOp.written_token (op : BinaryOp) : op.token.written = op.symbol := by
  cases op <;> rfl

theorem UnaryOp.isMark_token (op : UnaryOp) : op.token.isMark = true :=
  isMark_of_mem_unaryOperators (token_mem_unaryOperators op)

theorem BinaryOp.isMark_token (op : BinaryOp) : op.token.isMark = true :=
  isMark_of_mem_operators (token_mem_operators op)

theorem UnaryOp.token_mem_signs (op : UnaryOp) : op.token ∈ signs := by
  cases op <;> decide

/-! ## Expressions -/

/-- The rendering of the expression is scanned as the tokens, which spell it. -/
structure Rendered (e : Expr) (ts : List Token) : Prop where
  spells : SpellsExpr .suffixed ts e
  scans : Scans e.render.toList ts

/-- The renderings of the expressions, with commas between them, are scanned as the
    tokens, which spell them. -/
structure RenderedList (es : List Expr) (ts : List Token) : Prop where
  spells : SpellsExprs ts es
  scans : Scans (", ".intercalate (Expr.renderList es)).toList ts

/-- The renderings of the pairs, with commas between them, are scanned as the tokens,
    which spell them. -/
structure RenderedPairs (ps : List (Expr × Expr)) (ts : List Token) : Prop where
  spells : SpellsPairs ts ps
  scans : Scans (", ".intercalate (Expr.renderPairs ps)).toList ts

namespace Rendered

variable {e l r : Expr} {us vs : List Token}

/-- A name, a number, a text or a truth value is rendered as its token. -/
theorem atom {t : Token} (h : atom? t = some e) (ht : Writable t)
    (hrender : e.render = t.written) : Rendered e [t] where
  spells := (SpellsExpr.atom h).of_rank_le (by decide)
  scans := hrender ▸ .write_end ht (by cases t <;> simp_all [atom?])

theorem array {es : List Expr} (h : RenderedList es vs) :
    Rendered (.array es) (brackets vs) where
  spells := (SpellsExpr.array h.spells).of_rank_le (by decide)
  scans := by simpa [Expr.render] using h.scans.brackets

theorem hash {ps : List (Expr × Expr)} (h : RenderedPairs ps vs) :
    Rendered (.hash ps) (braces vs) where
  spells := (SpellsExpr.hash h.spells).of_rank_le (by decide)
  scans := by simpa [Expr.render] using h.scans.braces

theorem unary (op : UnaryOp) (h : Rendered e vs) :
    Rendered (.unary op e) (parens (op.token :: vs)) where
  spells := (SpellsExpr.unary (token_mem_unaryOperators op)
    (h.spells.of_rank_le (by decide))).whole.parens _
  scans := by
    obtain ⟨t, ts, rfl, ht⟩ := h.spells.opens
    -- A `!` would be part of another token before an equals sign, and a minus nowhere.
    have hop : Scans (op.symbol.toList ++ e.render.toList) (op.token :: t :: ts) := by
      rw [← op.written_token]
      refine h.scans.write (.of_isMark op.isMark_token) fun rest us hus => ?_
      exact ⟨fun _ => hus.ne_equals ht, fun hmem => absurd op.token_mem_signs hmem⟩
    simpa [Expr.render] using hop.parens

/-- A binary operator is rendered between its operands, all between parentheses. -/
theorem binary (op : BinaryOp) (hl : Rendered l us) (hr : Rendered r vs) :
    Rendered (.binary op l r) (parens (us ++ op.token :: vs)) where
  spells := by
    have hl := hl.spells.of_rank_le (show (levelOf op).rank ≤ _ by cases op <;> decide)
    have hr := hr.spells.of_rank_le (show (levelOf op).next.rank ≤ _ by cases op <;> decide)
    exact (SpellsExpr.binary (token_mem_operators op) hl hr).whole.parens _
  scans := by
    have hop := (hr.scans.write_blank (.of_isMark op.isMark_token)).blank
    have h := (hl.scans.append_cons hop (by decide)).parens
    simpa [Expr.render, BinaryOp.written_token] using h

/-- A call is rendered as the callee, then the arguments between parentheses. -/
theorem call {args : List Expr} (h : Rendered e us) (hargs : RenderedList args vs) :
    Rendered (.call e args) (us ++ parens vs) where
  spells := by
    have hcall := SpellsExpr.call h.spells hargs.spells
    rwa [List.append_assoc] at hcall
  scans := by
    have hcall := h.scans.append_cons hargs.scans.parens (by decide)
    simpa [Expr.render] using hcall

/-- An index is rendered as the container, then the key between brackets, all between parentheses.
    -/
theorem index (hl : Rendered l us) (hr : Rendered r vs) :
    Rendered (.index l r) (parens (us ++ brackets vs)) where
  spells := by
    have hindex := SpellsExpr.index hl.spells hr.spells.whole
    rw [List.append_assoc] at hindex
    exact hindex.whole.parens _
  scans := by
    have hindex := (hl.scans.append_cons hr.scans.brackets (by decide)).parens
    simpa [Expr.render] using hindex

end Rendered

theorem RenderedList.nil : RenderedList [] [] where
  spells := .nil
  scans := .nil

theorem RenderedPairs.nil : RenderedPairs [] [] where
  spells := .nil
  scans := .nil

/-- One more expression comes before the others, with a comma between if there are any. -/
theorem Rendered.list_cons {e : Expr} {es : List Expr} {us vs : List Token} (he : Rendered e us)
    (hes : RenderedList es vs) : ∃ ts, RenderedList (e :: es) ts := by
  cases es with
  | nil => exact ⟨us, .last he.spells.whole, he.scans⟩
  | cons f es => exact ⟨_, .cons he.spells.whole hes.spells, he.scans.comma hes.scans⟩

theorem Rendered.pairs_cons {k v : Expr} {ps : List (Expr × Expr)} {us vs ws : List Token}
    (hk : Rendered k us) (hv : Rendered v vs) (hps : RenderedPairs ps ws) :
    ∃ ts, RenderedPairs ((k, v) :: ps) ts := by
  have hpair := hk.scans.colon hv.scans
  cases ps with
  | nil => exact ⟨_, .last hk.spells.whole hv.spells.whole, hpair⟩
  | cons p ps =>
    have hspells := Grammar.SpellsPairs.cons hk.spells.whole hv.spells.whole hps.spells
    exact ⟨_, hspells, hpair.comma hps.scans⟩

mutual

/-- The rendering of an expression without blocks is scanned as tokens that spell it. -/
theorem Expr.exists_rendered (e : Expr) (hblocks : e.blockFree = true)
    (hleaves : ∀ t ∈ e.leaves, Writable t) : ∃ ts, Rendered e ts :=
  match e, hblocks with
  | .ident x, _ => ⟨_, .atom (t := .ident x) rfl (hleaves _ List.mem_cons_self) rfl⟩
  | .int n, _ => ⟨_, .atom (t := .int n) rfl (hleaves _ List.mem_cons_self) rfl⟩
  | .str x, _ => ⟨_, .atom (t := .str x) rfl (hleaves _ List.mem_cons_self) rfl⟩
  | .bool true, _ => ⟨_, .atom (t := .kwTrue) rfl trivial rfl⟩
  | .bool false, _ => ⟨_, .atom (t := .kwFalse) rfl trivial rfl⟩
  | .array elements, hblocks => by
    obtain ⟨vs, h⟩ := Expr.exists_renderedList elements hblocks hleaves
    exact ⟨_, .array h⟩
  | .hash pairs, hblocks => by
    obtain ⟨vs, h⟩ := Expr.exists_renderedPairs pairs hblocks hleaves
    exact ⟨_, .hash h⟩
  | .unary op e, hblocks => by
    obtain ⟨vs, h⟩ := Expr.exists_rendered e hblocks hleaves
    exact ⟨_, .unary op h⟩
  | .binary op l r, hblocks => by
    obtain ⟨hl, hr⟩ := Bool.and_eq_true_iff.1 hblocks
    obtain ⟨hl', hr'⟩ := List.forall_mem_append.1 hleaves
    obtain ⟨us, hl⟩ := Expr.exists_rendered l hl hl'
    obtain ⟨vs, hr⟩ := Expr.exists_rendered r hr hr'
    exact ⟨_, .binary op hl hr⟩
  | .call callee args, hblocks => by
    obtain ⟨hcallee, hargs⟩ := Bool.and_eq_true_iff.1 hblocks
    obtain ⟨hcallee', hargs'⟩ := List.forall_mem_append.1 hleaves
    obtain ⟨us, hcallee⟩ := Expr.exists_rendered callee hcallee hcallee'
    obtain ⟨vs, hargs⟩ := Expr.exists_renderedList args hargs hargs'
    exact ⟨_, .call hcallee hargs⟩
  | .index container key, hblocks => by
    obtain ⟨hcontainer, hkey⟩ := Bool.and_eq_true_iff.1 hblocks
    obtain ⟨hcontainer', hkey'⟩ := List.forall_mem_append.1 hleaves
    obtain ⟨us, hcontainer⟩ := Expr.exists_rendered container hcontainer hcontainer'
    obtain ⟨vs, hkey⟩ := Expr.exists_rendered key hkey hkey'
    exact ⟨_, .index hcontainer hkey⟩
termination_by structural e

/-- Expressions without blocks are rendered, one by one. -/
theorem Expr.exists_renderedList (es : List Expr) (hblocks : Expr.blockFreeList es = true)
    (hleaves : ∀ t ∈ Expr.leavesList es, Writable t) : ∃ ts, RenderedList es ts :=
  match es with
  | [] => ⟨_, .nil⟩
  | e :: es => by
    obtain ⟨he, hes⟩ := Bool.and_eq_true_iff.1 hblocks
    obtain ⟨he', hes'⟩ := List.forall_mem_append.1 hleaves
    obtain ⟨us, he⟩ := Expr.exists_rendered e he he'
    obtain ⟨vs, hes⟩ := Expr.exists_renderedList es hes hes'
    exact he.list_cons hes
termination_by structural es

theorem Expr.exists_renderedPairs (ps : List (Expr × Expr))
    (hblocks : Expr.blockFreePairs ps = true) (hleaves : ∀ t ∈ Expr.leavesPairs ps, Writable t) :
    ∃ ts, RenderedPairs ps ts :=
  match ps with
  | [] => ⟨_, .nil⟩
  | (k, v) :: ps => by
    obtain ⟨hkv, hps⟩ := Bool.and_eq_true_iff.1 hblocks
    obtain ⟨hk, hv⟩ := Bool.and_eq_true_iff.1 hkv
    obtain ⟨hk', hvps'⟩ := List.forall_mem_append.1 hleaves
    obtain ⟨hv', hps'⟩ := List.forall_mem_append.1 hvps'
    obtain ⟨us, hk⟩ := Expr.exists_rendered k hk hk'
    obtain ⟨vs, hv⟩ := Expr.exists_rendered v hv hv'
    obtain ⟨ws, hps⟩ := Expr.exists_renderedPairs ps hps hps'
    exact hk.pairs_cons hv hps
termination_by structural ps

end

/-! ## Programs -/

/-- The rendering of the statements is scanned as the tokens, which spell them. -/
structure RenderedBlock (ss : List Stmt) (ts : List Token) : Prop where
  spells : SpellsStmts ts ss
  splits : Splits (Stmt.renderBlock ss).toList ts

namespace RenderedBlock

variable {e : Expr} {ss : List Stmt} {us vs : List Token}

theorem nil : RenderedBlock [] [] where
  spells := .nil
  splits := .empty

/-- A binding ends with a semicolon, so any statements may be rendered after it. -/
theorem bind (h : RenderedBlock ss vs) {x : String} (hx : IsName x) (he : Rendered e us) :
    ∃ ts, RenderedBlock (.bind x e :: ss) ts := by
  refine ⟨_, .cons_semicolon (.bind he.spells.whole) h.spells, ?_⟩
  have hvalue := he.scans (halts_cons (by decide) _) (h.splits.sign (c := ';') rfl (by decide))
  have hassign := hvalue.write_blank (t := .assign) trivial
  have hlet := (hassign.write_blank (t := .ident x) hx).write_blank (t := .kwLet) trivial
  simpa [Stmt.renderBlock, Stmt.render, written, spelling] using hlet

/-- A `return` is rendered with a semicolon, so anything may come after it. -/
theorem ret (h : RenderedBlock ss vs) (he : Rendered e us) :
    ∃ ts, RenderedBlock (.ret e :: ss) ts := by
  refine ⟨_, .cons_semicolon (.ret he.spells.whole) h.spells, ?_⟩
  have hvalue := he.scans (halts_cons (by decide) _) (h.splits.sign (c := ';') rfl (by decide))
  have hreturn := hvalue.write_blank (t := .kwReturn) trivial
  simpa [Stmt.renderBlock, Stmt.render, written, spelling] using hreturn

/-- Nothing may be rendered after an expression. -/
theorem expr (he : Rendered e us) : RenderedBlock [.expr e] us where
  spells := by
    have hspells := SpellsStmts.cons (.expr he.spells.whole) (by simp) .nil
    rwa [List.append_nil] at hspells
  splits := by
    have hsplits := he.scans (halts_nil _) .empty
    simpa [Stmt.renderBlock, Stmt.render] using hsplits

end RenderedBlock

/-- Statements of which only the last may be an expression are rendered, by induction from the
    last. -/
theorem exists_renderedBlock {ss : List Stmt} (hblocks : ∀ s ∈ ss, s.blockFree = true)
    (hleaves : ∀ t ∈ Stmt.leavesList ss, Writable t) (hlast : ∀ e, .expr e ∉ ss.dropLast) :
    ∃ ts, RenderedBlock ss ts := by
  induction ss with
  | nil => exact ⟨_, .nil⟩
  | cons s ss ih =>
    obtain ⟨hs, hss⟩ := List.forall_mem_cons.1 hblocks
    obtain ⟨hs', hss'⟩ := List.forall_mem_append.1 hleaves
    have hrest : ∀ e, .expr e ∉ ss.dropLast := by
      intro e he
      cases ss with
      | nil => cases he
      | cons => exact hlast e (List.mem_cons_of_mem _ he)
    obtain ⟨vs, hvs⟩ := ih hss hss' hrest
    cases s with
    | bind x e =>
      obtain ⟨hx, he⟩ := List.forall_mem_cons.1 hs'
      obtain ⟨us, he⟩ := e.exists_rendered hs he
      exact hvs.bind hx he
    | ret e =>
      obtain ⟨us, he⟩ := e.exists_rendered hs hs'
      exact hvs.ret he
    | expr e =>
      obtain ⟨us, he⟩ := e.exists_rendered hs hs'
      cases ss with
      | nil => exact ⟨us, .expr he⟩
      -- Nothing would keep the expression and the next statement apart.
      | cons => exact absurd List.mem_cons_self (hlast e)

/-- A program that is parsed from some source is parsed from its rendering as well, if it
    contains no blocks and only its last statement may be an expression. -/
theorem Program.parse_render {source : String} {p : Program} (h : Program.parse source = .ok p)
    (hblocks : ∀ s ∈ p, s.blockFree = true) (hlast : ∀ e, .expr e ∉ p.dropLast) :
    Program.parse p.render = .ok p := by
  obtain ⟨-, rfl⟩ := Program.parse_eq_ok_iff.1 h
  obtain ⟨ts, hts⟩ := exists_renderedBlock hblocks (Program.writable_leaves source) hlast
  exact Program.parse_of_splits hts.splits hts.spells

/-- A program with operators in operands, a text in a hash, a call that is called and
    indexes. -/
def Program.nested : Program :=
  [.bind "f" (.index (.array [.unary .not (.unary .not (.ident "x")),
      .hash [(.str "a b", .unary .negate (.int 1))]]) (.int 0)),
    .ret (.binary .eq (.call (.call (.ident "f")
      [.binary .add (.int 1) (.binary .mul (.int 2) (.int 3))]) [.ident "y"]) (.ident "z")),
    .expr (.index (.call (.ident "f") [.int 2]) (.unary .negate (.ident "a")))]

theorem Program.parse_render_nested :
    Program.parse "let f = [!!x, \x7b\"a b\": -1\x7d][0]; return f(1 + 2 * 3)(y) == z; f(2)[-a]" =
      .ok Program.nested ∧
    (∀ s ∈ Program.nested, s.blockFree = true) ∧ (∀ e, .expr e ∉ Program.nested.dropLast) ∧
    Program.parse Program.nested.render = .ok Program.nested := by
  have hparse : Program.parse
      "let f = [!!x, \x7b\"a b\": -1\x7d][0]; return f(1 + 2 * 3)(y) == z; f(2)[-a]" =
      .ok Program.nested :=
    Program.parse_eq_ok_iff.2 ⟨List.isEmpty_iff.1 (by decide +kernel), by decide +kernel⟩
  have hblocks : ∀ s ∈ Program.nested, s.blockFree = true := by decide
  have hlast : ∀ e, .expr e ∉ Program.nested.dropLast := by simp [Program.nested]
  exact ⟨hparse, hblocks, hlast, Program.parse_render hparse hblocks hlast⟩

end Monkey
