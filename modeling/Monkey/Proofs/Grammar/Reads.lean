import Monkey.Program.Parse
import Monkey.Proofs.Grammar

/-!
# Flawless replies

`Reply.Reads` says that a reply has read a part without finding any error, not even in
a block, and what tokens it has left over. What each function of `Monkey.Parse` reads
comes out of what its parts read, one after the other.

* `reads_expr` and the lemmas on `suffixes` say what an expression is read from.
* `reads_stmt` and `reads_block` say what statements are read from.
-/

namespace Monkey

namespace Reply

open Parse (foundIn foundIn_append)

variable {α β : Type} {given larger : List Token}

/-- The reply is `a`, with no error found and the tokens `rest` left over. -/
def Reads (r : Reply α given) (a : α) (rest : List Token) : Prop :=
  r.result = .ok a ∧ foundIn r.events = [] ∧ r.rest = rest

/-- No tokens are left over but those that were given. -/
theorem Reads.length_le {r : Reply α given} {a : α} {rest : List Token} (h : r.Reads a rest) :
    rest.length ≤ given.length :=
  h.2.2 ▸ r.rest_suffix.length_le

/-- What is there already is read from no tokens. -/
@[simp]
theorem reads_done {a b : α} {rest : List Token} :
    (done a given).Reads b rest ↔ b = a ∧ rest = given := by
  simp only [Reads, done, foundIn, List.filterMap_nil, Except.ok.injEq, true_and, eq_comm]

/-- Nothing is read where an error is found. -/
@[simp]
theorem not_reads_fail {e : SyntaxError} {here : List Token} {a : α} {rest : List Token} :
    ¬(fail e here given).Reads a rest := by
  simp [Reads, fail]

@[simp]
theorem reads_widen {r : Reply α given} {h : given <:+ larger} {a : α} {rest : List Token} :
    (r.widen h).Reads a rest ↔ r.Reads a rest :=
  Iff.rfl

@[simp]
theorem reads_cons {t : Token} {r : Reply α given} {a : α} {rest : List Token} :
    (r.cons t).Reads a rest ↔ r.Reads a rest :=
  Iff.rfl

@[simp]
theorem reads_ofTail {r : Reply α given.tail} {a : α} {rest : List Token} :
    r.ofTail.Reads a rest ↔ r.Reads a rest :=
  Iff.rfl

/-- That a statement is begun is no error. -/
@[simp]
theorem reads_begin {here : List Token} {r : Reply α given} {a : α} {rest : List Token} :
    (r.begin here).Reads a rest ↔ r.Reads a rest :=
  Iff.rfl

/-- What is made of a part is read from the tokens of the part. -/
@[simp]
theorem reads_map {f : α → β} {r : Reply α given} {b : β} {rest : List Token} :
    (r.map f).Reads b rest ↔ ∃ a, r.Reads a rest ∧ f a = b := by
  rcases r with ⟨_ | a, events, rest', _, _⟩
  · simp [Reads, map, Except.map]
  · simp only [Reads, map, Except.map, Except.ok.injEq]
    constructor
    · rintro ⟨rfl, hn, hr⟩
      exact ⟨a, ⟨rfl, hn, hr⟩, rfl⟩
    · rintro ⟨a, ⟨rfl, hn, hr⟩, rfl⟩
      exact ⟨rfl, hn, hr⟩

/-- A second part is read from the tokens after the first. -/
theorem reads_andThen_suffix {r : Reply α given}
    {next : α → (ts : List Token) → ts <:+ given → Reply β ts} {b : β} {rest : List Token} :
    (r.andThen next).Reads b rest ↔
      ∃ a ts, r.Reads a ts ∧ ∃ h : ts <:+ given, (next a ts h).Reads b rest := by
  rcases r with ⟨_ | a, events, rest', h, _⟩
  · simp [Reads, andThen]
  · simp only [Reads, andThen, foundIn_append, List.append_eq_nil_iff, Except.ok.injEq]
    constructor
    · rintro ⟨hb, ⟨hn, hn'⟩, hr⟩
      exact ⟨a, rest', ⟨rfl, hn, rfl⟩, h, hb, hn', hr⟩
    · rintro ⟨a, ts, ⟨rfl, hn, rfl⟩, _, hb, hn', hr⟩
      exact ⟨hb, ⟨hn, hn'⟩, hr⟩

/-- What goes on does so from the tokens left over. -/
@[simp]
theorem reads_andThen {r : Reply α given} {next : α → (ts : List Token) → Reply β ts} {b : β}
    {rest : List Token} :
    (r.andThen fun a ts _ => next a ts).Reads b rest ↔
      ∃ a ts, r.Reads a ts ∧ (next a ts).Reads b rest := by
  rw [reads_andThen_suffix]
  refine exists_congr fun a => exists_congr fun ts => and_congr_right fun h => ?_
  exact ⟨fun ⟨_, hnext⟩ => hnext, fun hnext => ⟨h.2.2 ▸ r.rest_suffix, hnext⟩⟩

/-- A part that was given up has an error found in it. -/
@[simp]
theorem reads_recover {r : Reply α given} {o : Option α} {rest : List Token} :
    r.recover.Reads o rest ↔ ∃ a, r.Reads a rest ∧ some a = o := by
  rcases r with ⟨e | a, events, rest', _, hfound⟩
  · have hne : foundIn events ≠ [] := hfound rfl
    simp [Reads, recover, hne]
  · simp only [Reads, recover, Except.toOption, Except.ok.injEq]
    constructor
    · rintro ⟨rfl, hn, hr⟩
      exact ⟨a, ⟨rfl, hn, hr⟩, rfl⟩
    · rintro ⟨a, ⟨rfl, hn, hr⟩, rfl⟩
      exact ⟨rfl, hn, hr⟩

end Reply

/-- The token of a kind whose tokens carry nothing. -/
def Token.Kind.token? : Token.Kind → Option Token
  | illegal | ident | int | str => none
  | eof => some .eof
  | assign => some .assign
  | plus => some .plus
  | minus => some .minus
  | bang => some .bang
  | asterisk => some .asterisk
  | slash => some .slash
  | lt => some .lt
  | gt => some .gt
  | eq => some .eq
  | ne => some .ne
  | lparen => some .lparen
  | rparen => some .rparen
  | lbrace => some .lbrace
  | rbrace => some .rbrace
  | lbracket => some .lbracket
  | rbracket => some .rbracket
  | comma => some .comma
  | semicolon => some .semicolon
  | colon => some .colon
  | kwFn => some .kwFn
  | kwLet => some .kwLet
  | kwIf => some .kwIf
  | kwElse => some .kwElse
  | kwTrue => some .kwTrue
  | kwFalse => some .kwFalse
  | kwReturn => some .kwReturn

/-- The token of a kind is of that kind. -/
theorem Token.kind_of_token? {k : Token.Kind} {u : Token} (h : k.token? = some u) :
    u.kind = k := by
  cases k <;> cases h <;> rfl

/-- Tokens of a kind that is spelled in one way are all the same. -/
theorem Token.token?_kind (t : Token) : t.kind.token? = none ∨ t.kind.token? = some t := by
  cases t <;> first | exact .inl rfl | exact .inr rfl

/-- A token is of a kind that is spelled in one way exactly if it is the token of the kind. -/
theorem Token.kind_eq_iff {k : Token.Kind} {t u : Token} (h : k.token? = some u) :
    t.kind = k ↔ t = u := by
  constructor
  · rintro rfl
    rcases t.token?_kind with ht | ht
    · exact absurd (h.symm.trans ht) (Option.some_ne_none u)
    · exact Option.some.inj (ht.symm.trans h)
  · rintro rfl
    exact Token.kind_of_token? h

namespace Parse

open Reply

variable {rest : List Token}

/-! ## Single tokens -/

/-- The token that is expected comes first. -/
theorem reads_expect {k : Token.Kind} {u : Token} (h : k.token? = some u) {ts : List Token}
    {a : Unit} : (expect k ts).Reads a rest ↔ ts = u :: rest := by
  cases ts with
  | nil => simp [expect]
  | cons t ts =>
    by_cases ht : t = u
    · simp [expect, ht, (Token.kind_eq_iff h).2 rfl, eq_comm]
    · simp [expect, ht, Token.kind_eq_iff h]

/-- A name is one token. -/
theorem reads_name {ts : List Token} {x : String} :
    (name ts).Reads x rest ↔ ts = .ident x :: rest := by
  unfold name
  split
  · simp
  · simp [eq_comm]
  · next t ts ht =>
    simp only [Reply.not_reads_fail, List.cons.injEq, false_iff]
    rintro ⟨rfl, -⟩
    exact ht x rfl

/-- After a statement a semicolon is passed over, if there is one. -/
theorem reads_finish {s s' : Stmt} {ts : List Token} :
    (finish s ts).Reads s' rest ↔ s' = s ∧ rest = afterSemicolon ts := by
  simp [finish]

/-- Some names are read with commas between them, up to a closing parenthesis. -/
theorem reads_names {ts : List Token} {xs : List String} :
    (names ts).Reads xs rest ↔
      xs ≠ [] ∧ ts = (xs.map Token.ident).intersperse .comma ++ .rparen :: rest := by
  fun_induction names ts generalizing xs with
  | case1 => simp
  | case2 x ts ih =>
    simp only [reads_cons, reads_map, ih]
    constructor
    · rintro ⟨ys, ⟨hys, rfl⟩, rfl⟩
      obtain ⟨y, ys, rfl⟩ := List.exists_cons_of_ne_nil hys
      simp
    · rintro ⟨-, h⟩
      match xs with
      | [] => simp at h
      | [y] => simp at h
      | y :: z :: ys => exact ⟨z :: ys, ⟨by simp, by simpa using (List.cons.inj h).2⟩, by simp_all⟩
  | case3 x ts h =>
    simp only [reads_cons, reads_map, reads_expect (k := .rparen) rfl]
    constructor
    · rintro ⟨-, rfl, rfl⟩
      simp
    · rintro ⟨-, hts⟩
      match xs with
      | [] => simp at hts
      | [y] => simp_all
      | y :: z :: ys => simp_all
  | case4 t ts _ h =>
    simp only [not_reads_fail, false_iff]
    rintro ⟨hxs, hts⟩
    obtain ⟨x, xs, rfl⟩ := List.exists_cons_of_ne_nil hxs
    cases xs <;> simp_all

/-- Parameters are read with commas between them, up to a closing parenthesis. -/
theorem reads_params {ts : List Token} {xs : List String} :
    (params ts).Reads xs rest ↔
      ts = (xs.map Token.ident).intersperse .comma ++ .rparen :: rest := by
  unfold params
  split
  · next ts =>
    simp only [reads_cons, reads_done]
    constructor
    · rintro ⟨rfl, rfl⟩
      rfl
    · intro h
      match xs with
      | [] => simp_all
      | [y] => simp_all
      | y :: z :: ys => simp_all
  · next ts h =>
    rw [reads_names]
    refine ⟨And.right, fun hts => ⟨?_, hts⟩⟩
    rintro rfl
    exact h rest hts

/-! ## Expressions -/

/-- No token goes on an expression in surroundings of the strength `p`: it is none
    that starts a suffix, or the surroundings are at least as strong. -/
def Stops (p : Precedence) (ts : List Token) : Prop :=
  ∀ t ∈ ts.head?, ∀ s, t.suffix? = some s → ¬p < s.precedence

/-- An expression is a primary and what goes on it. -/
theorem reads_expr {p : Precedence} {ts : List Token} {e : Expr} :
    (expr p ts).Reads e rest ↔
      ∃ first us, (primary ts).Reads first us ∧ (suffixes p first us).Reads e rest := by
  rw [expr, reads_andThen]

section

variable {ts : List Token} {t : Token} {e : Expr}

/-- A name, a number, a text or a truth value is read from one token. -/
theorem reads_primary_atom {a : Expr} (h : Grammar.atom? t = some a) :
    (primary (t :: ts)).Reads e rest ↔ e = a ∧ rest = ts := by
  rw [primary.eq_def]
  cases t <;> cases h <;> exact reads_done

/-- After a unary operator its operand is read. -/
theorem reads_primary_unary {op : UnaryOp} (h : (t, op) ∈ Grammar.unaryOperators) :
    (primary (t :: ts)).Reads e rest ↔ ∃ f, (expr .unary ts).Reads f rest ∧ .unary op f = e := by
  simp only [Grammar.unaryOperators, List.mem_cons, Prod.mk.injEq, List.not_mem_nil,
    or_false] at h
  rcases h with ⟨rfl, rfl⟩ | ⟨rfl, rfl⟩ <;> rw [primary] <;> exact reads_ofTail.trans reads_map

/-- Between parentheses any expression is read. -/
theorem reads_primary_group :
    (primary (.lparen :: ts)).Reads e rest ↔ (expr .lowest ts).Reads e (.rparen :: rest) := by
  rw [primary.eq_def]
  change (Reply.andThen (expr .lowest ts).ofTail _).Reads e rest ↔ _
  simp only [reads_andThen, reads_ofTail, reads_map, reads_expect (k := .rparen) rfl]
  constructor
  · rintro ⟨e, _, he, -, rfl, rfl⟩
    exact he
  · intro he
    exact ⟨e, _, he, (), rfl, rfl⟩

/-- After a bracket the elements of an array are read. -/
theorem reads_primary_array :
    (primary (.lbracket :: ts)).Reads e rest ↔
      ∃ es, (exprs .rbracket ts).Reads es rest ∧ .array es = e := by
  rw [primary.eq_def]
  exact reads_map

/-- After a brace the pairs of a hash are read. -/
theorem reads_primary_hash :
    (primary (.lbrace :: ts)).Reads e rest ↔ ∃ ps, (pairs ts).Reads ps rest ∧ .hash ps = e := by
  rw [primary.eq_def]
  exact reads_map

/-- After `if` a condition is read between parentheses, then a block, then maybe another. -/
theorem reads_primary_cond :
    (primary (.kwIf :: ts)).Reads e rest ↔
      ∃ us c vs yes ws no, ts = .lparen :: us ∧
        (expr .lowest us).Reads c (.rparen :: .lbrace :: vs) ∧ (block vs).Reads yes ws ∧
        (alternative ws).Reads no rest ∧ .cond c yes no = e := by
  rw [primary.eq_def]
  change (Reply.andThen (expect .lparen ts) _).Reads e rest ↔ _
  simp only [reads_andThen, reads_ofTail, reads_map, reads_expect (k := .lparen) rfl,
    reads_expect (k := .rparen) rfl, reads_expect (k := .lbrace) rfl]
  constructor
  · rintro ⟨-, us, rfl, c, _, hc, -, _, rfl, -, vs, rfl, yes, ws, hyes, no, hno, rfl⟩
    exact ⟨us, c, vs, yes, ws, no, rfl, hc, hyes, hno, rfl⟩
  · rintro ⟨us, c, vs, yes, ws, no, rfl, hc, hyes, hno, rfl⟩
    exact ⟨(), us, rfl, c, _, hc, (), _, rfl, (), vs, rfl, yes, ws, hyes, no, hno, rfl⟩

/-- After `fn` the parameters are read between parentheses, and then a block. -/
theorem reads_primary_function :
    (primary (.kwFn :: ts)).Reads e rest ↔
      ∃ xs us body,
        ts = .lparen :: (xs.map Token.ident).intersperse .comma ++ .rparen :: .lbrace :: us ∧
        (block us).Reads body rest ∧ .function xs body = e := by
  rw [primary.eq_def]
  change (Reply.andThen (expect .lparen ts) _).Reads e rest ↔ _
  simp only [reads_andThen, reads_map, reads_params, reads_expect (k := .lparen) rfl,
    reads_expect (k := .lbrace) rfl]
  constructor
  · rintro ⟨-, _, rfl, xs, _, rfl, -, us, rfl, body, hbody, rfl⟩
    exact ⟨xs, us, body, rfl, hbody, rfl⟩
  · rintro ⟨xs, us, body, rfl, hbody, rfl⟩
    exact ⟨(), _, rfl, xs, _, rfl, (), us, rfl, body, hbody, rfl⟩

/-- Only tokens that start expressions are read as the start of one. -/
theorem opens_of_reads_primary (h : (primary ts).Reads e rest) :
    ∃ t us, ts = t :: us ∧ Grammar.Opens t := by
  rw [primary.eq_def] at h
  cases ts with
  | nil => exact (not_reads_fail h).elim
  | cons t ts =>
    refine ⟨t, ts, rfl, ?_⟩
    cases t with
    | ident | int | str | kwTrue | kwFalse => exact .atom rfl
    | bang => exact .unary (by decide : (_, UnaryOp.not) ∈ _)
    | minus => exact .unary (by decide : (_, UnaryOp.negate) ∈ _)
    | lparen => exact .lparen
    | lbracket => exact .lbracket
    | lbrace => exact .lbrace
    | kwIf => exact .kwIf
    | kwFn => exact .kwFn
    | _ => exact (not_reads_fail h).elim

end

/-- Where no suffix binds stronger than the surroundings, reading ends. -/
theorem suffixes_of_stops {p : Precedence} {ts : List Token} (h : Stops p ts) (left : Expr) :
    suffixes p left ts = .done left ts := by
  unfold suffixes
  split
  · rfl
  · next t ts =>
    split
    · rfl
    · next s hs => rw [if_neg (h t rfl s hs)]

section

variable {p : Precedence} {t : Token} {left e : Expr} {ts : List Token}

/-- An operator that binds stronger than the surroundings takes what is before it, and a right
    operand in surroundings as strong as itself. -/
theorem reads_suffixes_operator {op : BinaryOp} (ht : t.suffix? = some (.operator op))
    (hp : p < (Suffix.operator op).precedence) :
    (suffixes p left (t :: ts)).Reads e rest ↔
      ∃ right us, (expr op.precedence ts).Reads right us ∧
        (suffixes p (.binary op left right) us).Reads e rest := by
  rw [suffixes, ht]
  simp only [if_pos hp, reads_cons, reads_andThen, reads_ofTail]

/-- Arguments in parentheses make a call of what is before them. -/
theorem reads_suffixes_call (hp : p < Suffix.call.precedence) :
    (suffixes p left (.lparen :: ts)).Reads e rest ↔
      ∃ args us, (exprs .rparen ts).Reads args us ∧
        (suffixes p (.call left args) us).Reads e rest := by
  rw [suffixes]
  simp only [Token.suffix?, if_pos hp, reads_cons, reads_andThen]

/-- A key in brackets makes an index of what is before it. -/
theorem reads_suffixes_index (hp : p < Suffix.index.precedence) :
    (suffixes p left (.lbracket :: ts)).Reads e rest ↔
      ∃ key us, (expr .lowest ts).Reads key (.rbracket :: us) ∧
        (suffixes p (.index left key) us).Reads e rest := by
  rw [suffixes]
  simp only [Token.suffix?, if_pos hp, reads_cons, reads_andThen, reads_ofTail,
    reads_expect (k := .rbracket) rfl]
  constructor
  · rintro ⟨key, _, hkey, -, us, rfl, hus⟩
    exact ⟨key, us, hkey, hus⟩
  · rintro ⟨key, us, hkey, hus⟩
    exact ⟨key, _, hkey, (), us, rfl, hus⟩

end

/-! ## Lists and blocks -/

section

variable {k : Token.Kind} {close : Token} {ts : List Token}

/-- Up to the token that closes them there are no expressions, or some. -/
theorem reads_exprs (hk : k.token? = some close) {es : List Expr} :
    (exprs k ts).Reads es rest ↔
      (ts = close :: rest ∧ es = []) ∨ (ts.head? ≠ some close ∧ (exprs₁ k ts).Reads es rest) := by
  rw [exprs.eq_def]
  split
  · simp
  · next t ts =>
    by_cases ht : t = close
    · simp [ht, (Token.kind_eq_iff hk).2 rfl, and_comm, eq_comm]
    · simp [ht, Token.kind_eq_iff hk]

/-- After an expression there is a comma and others, or the token that closes them. -/
theorem reads_exprs₁ (hk : k.token? = some close) (hclose : close ≠ .comma) {es : List Expr} :
    (exprs₁ k ts).Reads es rest ↔
      ∃ e us, (expr .lowest ts).Reads e us ∧
        ((∃ vs fs, us = .comma :: vs ∧ (exprs₁ k vs).Reads fs rest ∧ es = e :: fs) ∨
          (us = close :: rest ∧ es = [e])) := by
  rw [exprs₁, reads_andThen_suffix]
  refine exists_congr fun e => exists_congr fun us => and_congr_right fun h => ?_
  have hsuffix : us <:+ ts := h.2.2 ▸ (expr .lowest ts).ofTail.rest_suffix
  rw [exists_prop_of_true hsuffix]
  split
  · simp only [reads_cons, reads_map, List.cons.injEq, true_and, hclose.symm, false_and, or_false]
    constructor
    · rintro ⟨fs, hfs, rfl⟩
      exact ⟨_, fs, rfl, hfs, rfl⟩
    · rintro ⟨_, fs, rfl, hfs, rfl⟩
      exact ⟨fs, hfs, rfl⟩
  · next hus =>
    simp only [reads_map, reads_expect hk]
    constructor
    · rintro ⟨-, rfl, rfl⟩
      exact .inr ⟨rfl, rfl⟩
    · rintro (⟨vs, fs, rfl, -, -⟩ | ⟨rfl, rfl⟩)
      · exact (hus vs hsuffix rfl HEq.rfl).elim
      · exact ⟨(), rfl, rfl⟩

theorem head?_ne_of_forall {t : Token} (h : ∀ us, ts = t :: us → False) : ts.head? ≠ some t := by
  intro hhead
  obtain ⟨us, hus⟩ := List.head?_eq_some_iff.1 hhead
  exact h us hus

/-- Up to the brace that closes them there are no pairs, or one and maybe a comma and others. -/
theorem reads_pairs {ps : List (Expr × Expr)} :
    (pairs ts).Reads ps rest ↔
      (ts = .rbrace :: rest ∧ ps = []) ∨
        (ts.head? ≠ some .rbrace ∧ ∃ key us value vs,
          (expr .lowest ts).Reads key (.colon :: us) ∧ (expr .lowest us).Reads value vs ∧
          ((∃ ws qs, vs = .comma :: ws ∧ (pairs ws).Reads qs rest ∧ ps = (key, value) :: qs) ∨
            (vs = .rbrace :: rest ∧ ps = [(key, value)]))) := by
  rw [pairs.eq_def]
  split
  · simp [and_comm, eq_comm]
  · next hts =>
    have hhead : ts.head? ≠ some .rbrace := head?_ne_of_forall hts
    have hne : ts ≠ .rbrace :: rest := hts rest
    simp only [reads_andThen, reads_ofTail, reads_expect (k := .colon) rfl, hne, false_and,
      false_or, hhead, ne_eq, not_false_iff, true_and]
    refine exists_congr fun key => ⟨?_, ?_⟩
    · rintro ⟨_, hkey, -, us, rfl, h⟩
      obtain ⟨value, vs, hvalue, _, h⟩ := reads_andThen_suffix.1 h
      refine ⟨us, value, vs, hkey, hvalue, ?_⟩
      split at h
      · next ws _ =>
        obtain ⟨qs, hqs, rfl⟩ := reads_map.1 (reads_cons.1 h)
        exact .inl ⟨ws, qs, rfl, hqs, rfl⟩
      · obtain ⟨rfl, rfl⟩ := reads_done.1 (reads_cons.1 h)
        exact .inr ⟨rfl, rfl⟩
      · next hcomma _ =>
        obtain ⟨_, h, -⟩ := reads_map.1 h
        obtain rfl := (reads_expect (k := .comma) rfl).1 h
        exact (hcomma rest _ rfl HEq.rfl).elim
    · rintro ⟨us, value, vs, hkey, hvalue, h⟩
      refine ⟨_, hkey, (), us, rfl, reads_andThen_suffix.2 ⟨value, vs, hvalue, ?_⟩⟩
      refine ⟨hvalue.2.2 ▸ (expr .lowest us).ofTail.rest_suffix, ?_⟩
      rcases h with ⟨ws, qs, rfl, hqs, rfl⟩ | ⟨rfl, rfl⟩
      · exact reads_cons.2 (reads_map.2 ⟨qs, hqs, rfl⟩)
      · exact reads_cons.2 (reads_done.2 ⟨rfl, rfl⟩)

/-- After `else` a block is read, and without it nothing. -/
theorem reads_alternative {no : Option Block} :
    (alternative ts).Reads no rest ↔
      (∃ us b, ts = .kwElse :: .lbrace :: us ∧ (block us).Reads b rest ∧ no = some b) ∨
        (ts.head? ≠ some .kwElse ∧ no = none ∧ rest = ts) := by
  rw [alternative.eq_def]
  split
  · next ts =>
    simp only [reads_cons, reads_andThen, reads_expect (k := .lbrace) rfl, reads_map]
    constructor
    · rintro ⟨-, us, rfl, b, hb, rfl⟩
      exact .inl ⟨us, b, rfl, hb, rfl⟩
    · rintro (⟨us, b, h, hb, rfl⟩ | ⟨h, -⟩)
      · exact ⟨(), us, (List.cons.inj h).2, b, hb, rfl⟩
      · exact absurd rfl h
  · next hts =>
    have hhead : ts.head? ≠ some .kwElse := head?_ne_of_forall hts
    rw [reads_done]
    refine ⟨fun h => .inr ⟨hhead, h⟩, ?_⟩
    rintro (⟨us, b, h, -⟩ | ⟨-, h⟩)
    · exact (hts _ h).elim
    · exact h

/-- A block is closed by its brace, or starts with a semicolon that is passed over, or with a
    statement. -/
theorem reads_block {b : Block} :
    (block ts).Reads b rest ↔
      (ts = .rbrace :: rest ∧ b = []) ∨
        (∃ us, ts = .semicolon :: us ∧ (block us).Reads b rest) ∨
        (ts ≠ [] ∧ ts.head? ≠ some .rbrace ∧ ts.head? ≠ some .semicolon ∧ ∃ s us ss,
          (stmt ts).Reads s us ∧ (block us).Reads ss rest ∧ b = s :: ss) := by
  rw [block.eq_def]
  split
  · simp
  · simp [and_comm, eq_comm]
  · simp
  · next t ts hbrace hsemicolon =>
    refine reads_cons.trans ?_
    change ((stmt (t :: ts)).recover.andThen _).Reads b rest ↔ _
    simp only [reads_andThen, reads_recover, reads_map]
    constructor
    · rintro ⟨_, us, ⟨s, hs, rfl⟩, ss, hss, rfl⟩
      exact .inr (.inr ⟨by simp, by simpa using hbrace, by simpa using hsemicolon, s, us, ss, hs,
        hss, rfl⟩)
    · rintro (⟨h, -⟩ | ⟨us, h, -⟩ | ⟨-, -, -, s, us, ss, hs, hss, rfl⟩)
      · exact (hbrace (List.cons.inj h).1).elim
      · exact (hsemicolon (List.cons.inj h).1).elim
      · exact ⟨some s, us, ⟨s, hs, rfl⟩, ss, hss, rfl⟩

/-- What starts neither with `let` nor with `return` is read as an expression. -/
theorem stmt_of_ne {ts : List Token} (hlet : ts.head? ≠ some .kwLet)
    (hreturn : ts.head? ≠ some .kwReturn) :
    stmt ts = ((expr .lowest ts).andThen fun e ts _ => finish (.expr e) ts).begin ts := by
  rw [stmt.eq_def]
  congr 1
  cases ts with
  | nil => rfl
  | cons t ts => cases t <;> first | rfl | exact absurd rfl hlet | exact absurd rfl hreturn

/-- A statement binds a name after `let`, returns after `return`, and is an expression otherwise.
    -/
theorem reads_stmt {s : Stmt} :
    (stmt ts).Reads s rest ↔
      (∃ x us e vs, ts = .kwLet :: .ident x :: .assign :: us ∧ (expr .lowest us).Reads e vs ∧
        s = .bind x e ∧ rest = afterSemicolon vs) ∨
      (∃ us e vs, ts = .kwReturn :: us ∧ (expr .lowest us).Reads e vs ∧
        s = .ret e ∧ rest = afterSemicolon vs) ∨
      (ts.head? ≠ some .kwLet ∧ ts.head? ≠ some .kwReturn ∧ ∃ e vs, (expr .lowest ts).Reads e vs ∧
        s = .expr e ∧ rest = afterSemicolon vs) := by
  by_cases hlet : ts.head? = some .kwLet
  · obtain ⟨ts, rfl⟩ := List.head?_eq_some_iff.1 hlet
    rw [stmt.eq_def, reads_begin]
    change ((name ts).andThen _).Reads s rest ↔ _
    simp only [reads_andThen, reads_name, reads_expect (k := .assign) rfl, reads_ofTail,
      reads_finish]
    constructor
    · rintro ⟨x, _, rfl, -, us, rfl, e, vs, he, rfl, rfl⟩
      exact .inl ⟨x, us, e, vs, rfl, he, rfl, rfl⟩
    · rintro (⟨x, us, e, vs, h, he, rfl, rfl⟩ | ⟨us, e, vs, h, -⟩ | ⟨h, -⟩)
      · exact ⟨x, _, (List.cons.inj h).2, (), us, rfl, e, vs, he, rfl, rfl⟩
      · cases h
      · exact absurd hlet h
  by_cases hreturn : ts.head? = some .kwReturn
  · obtain ⟨ts, rfl⟩ := List.head?_eq_some_iff.1 hreturn
    rw [stmt.eq_def, reads_begin]
    change ((expr .lowest ts).ofTail.andThen _).Reads s rest ↔ _
    simp only [reads_andThen, reads_ofTail, reads_finish]
    constructor
    · rintro ⟨e, vs, he, rfl, rfl⟩
      exact .inr (.inl ⟨ts, e, vs, rfl, he, rfl, rfl⟩)
    · rintro (⟨x, us, e, vs, h, -⟩ | ⟨us, e, vs, h, he, rfl, rfl⟩ | ⟨-, h, -⟩)
      · cases h
      · obtain rfl := (List.cons.inj h).2
        exact ⟨e, vs, he, rfl, rfl⟩
      · exact absurd hreturn h
  · rw [stmt_of_ne hlet hreturn]
    simp only [reads_begin, reads_andThen, reads_finish]
    constructor
    · rintro ⟨e, vs, he, rfl, rfl⟩
      exact .inr (.inr ⟨hlet, hreturn, e, vs, he, rfl, rfl⟩)
    · rintro (⟨x, us, e, vs, rfl, -⟩ | ⟨us, e, vs, rfl, -⟩ | ⟨-, -, e, vs, he, rfl, rfl⟩)
      · exact absurd rfl hlet
      · exact absurd rfl hreturn
      · exact ⟨e, vs, he, rfl, rfl⟩

end

end Parse

end Monkey
