import Monkey.Proofs.Grammar.Sound

/-!
# Events in order

Something can happen at a token three times: as what comes next, where another token may be
expected; as the start of a statement; and as the start of an expression, where it may start
none. The times are counted down to the end of the source, where none is left
(`Parse.Event.time`).

* The events on the way to a part are in the order of their times, and none of them comes after
  what is left over starts (`Reply.Orderly`). A part that is read closes the blocks that it
  opens, so nothing has been found right before the tokens left over; a part that is given up
  may have ended in an error there.
* On the way to a part, as many statements are begun as are in it and as errors are found, or
  more.

Both are kept by every step of reading (`Parse.OrderlyBelow`).
-/

namespace Monkey

/-! ## Statements in blocks -/

mutual

/-- The number of statements in the blocks of an expression. -/
def Expr.stmtCount : Expr → Nat
  | .ident _ | .int _ | .str _ | .bool _ => 0
  | .array elements => Expr.stmtCountList elements
  | .hash pairs => Expr.stmtCountPairs pairs
  | .unary _ e => e.stmtCount
  | .binary _ l r => l.stmtCount + r.stmtCount
  | .cond c yes none => c.stmtCount + Stmt.countList yes
  | .cond c yes (some no) => c.stmtCount + Stmt.countList yes + Stmt.countList no
  | .function _ body => Stmt.countList body
  | .call callee args => callee.stmtCount + Expr.stmtCountList args
  | .index container key => container.stmtCount + key.stmtCount
termination_by structural e => e

/-- The number of statements in the blocks of expressions. -/
def Expr.stmtCountList : List Expr → Nat
  | [] => 0
  | e :: es => e.stmtCount + Expr.stmtCountList es
termination_by structural es => es

/-- The number of statements in the blocks of pairs of a key and a value. -/
def Expr.stmtCountPairs : List (Expr × Expr) → Nat
  | [] => 0
  | (k, v) :: ps => k.stmtCount + v.stmtCount + Expr.stmtCountPairs ps
termination_by structural ps => ps

/-- The number of statements that a statement is made of, with itself. -/
def Stmt.count : Stmt → Nat
  | .bind _ e | .ret e | .expr e => 1 + e.stmtCount
termination_by structural s => s

/-- The number of statements, with those in blocks. -/
def Stmt.countList : List Stmt → Nat
  | [] => 0
  | s :: ss => s.count + Stmt.countList ss
termination_by structural ss => ss

end

theorem Stmt.countList_append (ss ss' : List Stmt) :
    Stmt.countList (ss ++ ss') = Stmt.countList ss + Stmt.countList ss' := by
  induction ss with
  | nil => simp [Stmt.countList]
  | cons s ss ih => simp only [List.cons_append, Stmt.countList, ih, Nat.add_assoc]

/-- The number of statements of a program, with those in blocks. -/
abbrev Program.stmtCount (p : Program) : Nat :=
  Stmt.countList p

/-! ## Events and times -/

namespace Grammar

/-- The kinds of the tokens that start expressions. -/
def openers : List Token.Kind :=
  [.ident, .int, .str, .kwTrue, .kwFalse, .bang, .minus, .lparen, .lbracket, .lbrace, .kwIf, .kwFn]

/-- Whether a token starts an expression is a matter of its kind. -/
theorem opens_iff {t : Token} : Opens t ↔ t.kind ∈ openers := by
  constructor
  · intro h
    cases h with
    | atom h => cases t <;> cases h <;> simp [Token.kind, openers]
    | @unary _ op h => cases t <;> cases op <;> simp_all [unaryOperators, Token.kind, openers]
    | lparen | lbracket | lbrace | kwIf | kwFn => decide
  · intro h
    cases t with
    | ident | int | str | kwTrue | kwFalse => exact .atom rfl
    | bang => exact .unary (by decide : (_, UnaryOp.not) ∈ _)
    | minus => exact .unary (by decide : (_, UnaryOp.negate) ∈ _)
    | lparen => exact .lparen
    | lbracket => exact .lbracket
    | lbrace => exact .lbrace
    | kwIf => exact .kwIf
    | kwFn => exact .kwFn
    | _ => simp [Token.kind, openers] at h

end Grammar

/-- What the error says of the token to blame is true: it is of another kind than the one
    expected, or it starts no expression. -/
def SyntaxError.Apt : SyntaxError → Prop
  | unexpected k t => t.kind ≠ k
  | noExpression t => t.kind ∉ Grammar.openers

namespace Parse

namespace Event

/-- A statement is begun with a token other than a semicolon, and an error blames the token
    that stands there. -/
def Apt : Event → Prop
  | begun ts => ∃ t us, ts = t :: us ∧ t ≠ .semicolon
  | found e ts => e.got = ts.head?.getD .eof ∧ e.Apt

/-- The time that is left when an event happens. -/
def time : Event → Nat
  | found (.unexpected _ _) ts => 3 * ts.length
  | begun ts => 3 * ts.length - 1
  | found (.noExpression _) ts => 3 * ts.length - 2

/-- The event happens before the other one, or this one at the end of the source. -/
def Before (x y : Event) : Prop :=
  y.time < x.time ∨ y.time = 0

/-- The event happens within the tokens `ts`, with at most the time `limit` left. -/
structure Within (ts : List Token) (limit : Nat) (x : Event) : Prop where
  apt : x.Apt
  here : x.here <:+ ts
  time_le : x.time ≤ limit

end Event

/-- The events happen one after the other within the tokens `ts`, with at most the time
    `limit` left. -/
structure InOrder (ts : List Token) (limit : Nat) (events : List Event) : Prop where
  within : ∀ x ∈ events, x.Within ts limit
  before : events.Pairwise Event.Before

namespace InOrder

variable {ts us : List Token} {limit limit' : Nat} {events events' : List Event} {x : Event}

theorem nil : InOrder ts limit [] :=
  ⟨List.forall_mem_nil _, .nil⟩

theorem singleton (h : x.Within ts limit) : InOrder ts limit [x] :=
  ⟨List.forall_mem_singleton.2 h, List.pairwise_singleton _ _⟩

/-- Events in order are so within more tokens and with more time left. -/
theorem mono (h : InOrder ts limit events) (hts : ts <:+ us) (hlimit : limit ≤ limit') :
    InOrder us limit' events where
  within x hx := ⟨(h.within x hx).apt, (h.within x hx).here.trans hts,
    Nat.le_trans (h.within x hx).time_le hlimit⟩
  before := h.before

/-- Other events happen when less time is left, or none. -/
theorem append (h : InOrder ts limit events) (h' : InOrder us limit' events') (hus : us <:+ ts)
    (hlimit : limit' ≤ limit) (htime : ∀ x ∈ events, limit' < x.time ∨ limit' = 0) :
    InOrder ts limit (events ++ events') where
  within := List.forall_mem_append.2 ⟨h.within, (h'.mono hus hlimit).within⟩
  before := by
    refine List.pairwise_append.2 ⟨h.before, h'.before, fun x hx y hy => ?_⟩
    have hy := (h'.within y hy).time_le
    rcases htime x hx with hlt | hzero
    · exact .inl (Nat.lt_of_le_of_lt hy hlt)
    · exact .inr (Nat.eq_zero_of_le_zero (hzero ▸ hy))

end InOrder

end Parse

section

variable (events events' : List Parse.Event)

theorem Parse.length_foundIn_append : (foundIn (events ++ events')).length =
    (foundIn events).length + (foundIn events').length := by
  rw [foundIn_append, List.length_append]

theorem Parse.length_begunIn_append : (begunIn (events ++ events')).length =
    (begunIn events).length + (begunIn events').length := by
  rw [begunIn_append, List.length_append]

end

namespace Reply

open Parse (Event InOrder begunIn foundIn length_begunIn_append length_foundIn_append)

variable {α β : Type} {given ts us : List Token} {limit limit' : Nat} {Q : α → Nat → Prop}
  {R : β → Nat → Prop}

/-- The events on the way to a reply happen in order within the tokens `ts`, with at most the
    time `limit` left. Of what was read, and of the number by which the statements begun
    exceed the errors found, `Q` is known. -/
structure Orderly (ts : List Token) (limit : Nat) (Q : α → Nat → Prop) (r : Reply α given) :
    Prop where
  inOrder : InOrder ts limit r.events
  of_ok : ∀ a, r.result = .ok a → (∀ x ∈ r.events, 3 * r.rest.length < x.time) ∧
    ∃ m, (begunIn r.events).length = (foundIn r.events).length + m ∧ Q a m
  of_error : ∀ e, r.result = .error e → (∀ x ∈ r.events, 3 * r.rest.length ≤ x.time) ∧
    (foundIn r.events).length ≤ (begunIn r.events).length + 1

namespace Orderly

theorem widen {r : Reply α given} (h : r.Orderly ts limit Q) {larger : List Token}
    (hs : given <:+ larger) (hts : ts <:+ us) (hlimit : limit ≤ limit') :
    (r.widen hs).Orderly us limit' Q :=
  ⟨h.inOrder.mono hts hlimit, h.of_ok, h.of_error⟩

theorem mono {r : Reply α given} (h : r.Orderly ts limit Q) (hts : ts <:+ us)
    (hlimit : limit ≤ limit') : r.Orderly us limit' Q :=
  ⟨h.inOrder.mono hts hlimit, h.of_ok, h.of_error⟩

/-- Of what was read less may be known. -/
theorem imp {Q' : α → Nat → Prop} {r : Reply α given} (h : r.Orderly ts limit Q)
    (hQ : ∀ a m, Q a m → Q' a m) : r.Orderly ts limit Q' where
  inOrder := h.inOrder
  of_ok a ha := by
    obtain ⟨htime, m, hm, hQa⟩ := h.of_ok a ha
    exact ⟨htime, m, hm, hQ a m hQa⟩
  of_error := h.of_error

theorem done {a : α} (h : Q a 0) : (Reply.done a given).Orderly ts limit Q where
  inOrder := .nil
  of_ok := by
    rintro _ ⟨⟩
    exact ⟨List.forall_mem_nil _, 0, rfl, h⟩
  of_error _ he := nomatch he

/-- An error is found in time, before the tokens left over. -/
theorem fail {e : SyntaxError} {here : List Token} (hwithin : (Event.found e here).Within ts limit)
    (htime : 3 * given.length ≤ (Event.found e here).time) :
    (Reply.fail e here given : Reply α given).Orderly ts limit Q where
  inOrder := .singleton hwithin
  of_ok := nofun
  of_error _ _ := ⟨List.forall_mem_singleton.2 htime, Nat.le_refl 1⟩

/-- Another token is expected next. -/
theorem unexpected {k : Token.Kind} {t : Token} (ht : t = given.head?.getD .eof)
    (hk : t.kind ≠ k) :
    (Reply.fail (.unexpected k t) given given : Reply α given).Orderly given
      (3 * given.length) Q :=
  .fail ⟨⟨ht, hk⟩, List.suffix_rfl, Nat.le_refl _⟩ (Nat.le_refl _)

/-- No expression starts with the next token. -/
theorem noExpression {t : Token} {here : List Token} (ht : t = here.head?.getD .eof)
    (hopen : t.kind ∉ Grammar.openers) (hgiven : given = here.tail) :
    (Reply.fail (.noExpression t) here given : Reply α given).Orderly here
      (3 * here.length - 2) Q := by
  refine .fail ⟨⟨ht, hopen⟩, List.suffix_rfl, Nat.le_refl _⟩ ?_
  rw [hgiven, List.length_tail, Event.time]
  omega

theorem map {f : α → β} {r : Reply α given} (h : r.Orderly ts limit Q)
    (hf : ∀ a m, Q a m → R (f a) m) : (r.map f).Orderly ts limit R where
  inOrder := h.inOrder
  of_ok b hb := by
    obtain ⟨a, ha, rfl⟩ := result_map_eq_ok hb
    obtain ⟨htime, m, hm, hQ⟩ := h.of_ok a ha
    exact ⟨htime, m, hm, hf a m hQ⟩
  of_error e he := h.of_error e (result_map_eq_error he)

/-- What goes on with what was read happens later. -/
theorem andThen_within {r : Reply α given}
    {next : α → (ts : List Token) → ts <:+ given → Reply β ts} (h : r.Orderly ts limit Q)
    (hgiven : given <:+ ts) (hlimit : 3 * given.length ≤ limit)
    (hnext : ∀ a us h m, Q a m →
      (next a us h).Orderly us (3 * us.length) fun b k => R b (m + k)) :
    (r.andThen next).Orderly ts limit R := by
  rcases hresult : r.result with e | a
  · obtain ⟨hevents, hresult', hrest⟩ := andThen_of_error next hresult
    refine ⟨hevents ▸ h.inOrder, fun b hb => ?_, fun e' _ => ?_⟩
    · cases hresult'.symm.trans hb
    · rw [hevents, hrest]
      exact h.of_error e hresult
  · obtain ⟨hevents, hresult', hrest⟩ := andThen_of_ok next hresult
    obtain ⟨htime, m, hm, hQ⟩ := h.of_ok a hresult
    have hs := hnext a r.rest r.rest_suffix m hQ
    have hlater : ∀ x ∈ r.events, 3 * (next a r.rest r.rest_suffix).rest.length < x.time := by
      intro x hx
      have hlength := (next a r.rest r.rest_suffix).rest_suffix.length_le
      exact Nat.lt_of_le_of_lt (Nat.mul_le_mul_left 3 hlength) (htime x hx)
    refine ⟨?_, fun b hb => ?_, fun e he => ?_⟩
    · rw [hevents]
      have hr := Nat.mul_le_mul_left 3 r.rest_suffix.length_le
      exact h.inOrder.append hs.inOrder (r.rest_suffix.trans hgiven) (Nat.le_trans hr hlimit)
        fun x hx => .inl (htime x hx)
    · obtain ⟨htime', k, hk, hR⟩ := hs.of_ok b (hresult'.symm.trans hb)
      rw [hevents, hrest, length_begunIn_append, length_foundIn_append]
      exact ⟨List.forall_mem_append.2 ⟨hlater, htime'⟩, m + k, by omega, hR⟩
    · obtain ⟨htime', hk⟩ := hs.of_error e (hresult'.symm.trans he)
      rw [hevents, hrest, length_begunIn_append, length_foundIn_append]
      refine ⟨List.forall_mem_append.2 ⟨fun x hx => ?_, htime'⟩, by omega⟩
      exact Nat.le_of_lt (hlater x hx)

/-- The events on the way to a second part come after those on the way to the first. -/
theorem andThen {r : Reply α given}
    {next : α → (ts : List Token) → ts <:+ given → Reply β ts}
    (h : r.Orderly given (3 * given.length) Q)
    (hnext : ∀ a us h m, Q a m →
      (next a us h).Orderly us (3 * us.length) fun b k => R b (m + k)) :
    (r.andThen next).Orderly given (3 * given.length) R :=
  h.andThen_within List.suffix_rfl (Nat.le_refl _) hnext

/-- A part that starts with a token may be one that comes next. -/
theorem ofTail {r : Reply α given.tail} (h : r.Orderly given (3 * given.length - 2) Q) :
    r.ofTail.Orderly given (3 * given.length) Q :=
  h.widen _ List.suffix_rfl (Nat.sub_le _ _)

/-- What is read after a token. -/
theorem cons {r : Reply α given} (h : r.Orderly given (3 * given.length) Q) (t : Token) :
    (r.cons t).Orderly (t :: given) (3 * (t :: given).length) Q :=
  h.widen _ (List.suffix_cons t given) (Nat.mul_le_mul_left 3 (Nat.le_succ _))

/-- What is read after the token that a part starts with. -/
theorem after {r : Reply α given} (h : r.Orderly given (3 * given.length) Q) (t : Token) :
    r.Orderly (t :: given) (3 * (t :: given).length - 2) Q := by
  refine h.mono (List.suffix_cons t given) ?_
  rw [List.length_cons]
  omega

end Orderly

/-! ## Statements -/

/-- The events on the way to a block are in order. The block may start with a statement, and
    is closed by a token. -/
structure OrderlyBlock (ts : List Token) (r : Reply Block given) : Prop where
  orderly : r.Orderly ts (3 * ts.length - 1) fun b m => Stmt.countList b ≤ m
  length_lt : ∀ b, r.result = .ok b → r.rest.length < ts.length

/-- The events on the way to a statement, which is read or given up, happen in order, and no
    later than right before the tokens left over. As many statements are begun as are in what
    was read and as errors are found, or more. -/
structure OrderlyStmt (ts : List Token) (r : Reply Stmt given) : Prop where
  inOrder : InOrder ts (3 * ts.length - 1) r.events
  le_time : ∀ x ∈ r.events, 3 * r.rest.length ≤ x.time
  count_le : (foundIn r.events).length + Stmt.countList r.result.toOption.toList ≤
    (begunIn r.events).length

namespace OrderlyStmt

/-- A statement is begun in time before anything else happens in it. -/
theorem begin {t : Token} {r : Reply Stmt us} (ht : t ≠ .semicolon)
    (h : r.Orderly (t :: us) (3 * (t :: us).length - 2) fun s m => s.count ≤ 1 + m) :
    (r.begin (t :: us)).OrderlyStmt (t :: us) where
  inOrder := by
    have hbegun : Event.Within (t :: us) (3 * (t :: us).length - 1) (.begun (t :: us)) :=
      ⟨⟨t, us, rfl, ht⟩, List.suffix_rfl, Nat.le_refl _⟩
    refine (InOrder.singleton hbegun).append h.inOrder List.suffix_rfl (by omega) ?_
    refine List.forall_mem_singleton.2 (.inl ?_)
    simp only [Event.time, List.length_cons]
    omega
  le_time := by
    have hrest := r.rest_suffix.length_le
    refine List.forall_mem_cons.2 ⟨?_, fun x hx => ?_⟩
    · simp only [Event.time, List.length_cons, Reply.begin]
      omega
    · rcases hresult : r.result with e | s
      · exact (h.of_error e hresult).1 x hx
      · exact Nat.le_of_lt ((h.of_ok s hresult).1 x hx)
  count_le := by
    simp only [Reply.begin, begunIn, foundIn, List.filterMap_cons, Event.begun?, Event.found?,
      List.length_cons]
    rcases hresult : r.result with e | s
    · exact (h.of_error e hresult).2
    · obtain ⟨-, m, hm, hs⟩ := h.of_ok s hresult
      simp only [begunIn, foundIn] at hm
      simp only [Except.toOption, Option.toList_some, Stmt.countList]
      omega

/-- After a statement, which may have been given up, the rest of its block follows. -/
theorem recover_andThen {r : Reply Stmt given} (h : r.OrderlyStmt ts)
    (next : (us : List Token) → Reply Block us) (hgiven : given <:+ ts)
    (hnext : ∀ us, us <:+ given → (next us).OrderlyBlock us) :
    (r.recover.andThen fun s us _ => (next us).map (s.toList ++ ·)).OrderlyBlock ts := by
  obtain ⟨hevents, hresult, hrest⟩ :=
    r.recover_andThen fun s us _ => (next us).map (s.toList ++ ·)
  generalize r.recover.andThen (fun s us _ => (next us).map (s.toList ++ ·)) = whole at *
  have hs := hnext r.rest r.rest_suffix
  generalize hnext : next r.rest = s at *
  replace hevents : whole.events = r.events ++ s.events := hevents
  replace hrest : whole.rest = s.rest := hrest
  have hlength : s.rest.length ≤ r.rest.length := s.rest_suffix.length_le
  have hgiven := r.rest_suffix.trans hgiven
  have hcount := h.count_le
  refine ⟨⟨?_, fun b hb => ?_, fun e he => ?_⟩, fun b hb => ?_⟩
  · have hlength := hgiven.length_le
    rw [hevents]
    refine h.inOrder.append hs.orderly.inOrder hgiven (by omega) fun x hx => ?_
    have := h.le_time x hx
    omega
  · -- The block is closed by a token, and so later than any error right before the rest of it.
    obtain ⟨ss, hss, rfl⟩ := result_map_eq_ok (hresult.symm.trans hb)
    obtain ⟨htime, k, hk, hcount'⟩ := hs.orderly.of_ok ss hss
    have hlt := hs.length_lt ss hss
    rw [hevents, hrest, length_begunIn_append, length_foundIn_append, Stmt.countList_append]
    refine ⟨List.forall_mem_append.2 ⟨fun x hx => ?_, htime⟩,
      (begunIn r.events).length - (foundIn r.events).length + k, by omega, by omega⟩
    have := h.le_time x hx
    omega
  · obtain ⟨htime, hk⟩ := hs.orderly.of_error e (result_map_eq_error (hresult.symm.trans he))
    rw [hevents, hrest, length_begunIn_append, length_foundIn_append]
    refine ⟨List.forall_mem_append.2 ⟨fun x hx => ?_, htime⟩, by omega⟩
    have := h.le_time x hx
    omega
  · obtain ⟨ss, hss, -⟩ := result_map_eq_ok (hresult.symm.trans hb)
    rw [hrest]
    exact Nat.lt_of_lt_of_le (hs.length_lt ss hss) hgiven.length_le

end OrderlyStmt

end Reply

namespace Parse

open Reply (Orderly OrderlyStmt)

variable {n : Nat} {ts us : List Token}

/-! ## Single tokens -/

/-- A token that is expected is there, or it is the first that anything is found at. -/
theorem orderly_expect {k : Token.Kind} (hk : k ≠ .eof) (ts : List Token) :
    (expect k ts).Orderly ts (3 * ts.length) fun _ _ => True := by
  cases ts with
  | nil => exact .unexpected rfl hk.symm
  | cons t ts =>
    rw [expect]
    split
    · exact Orderly.cons (.done trivial) t
    · next ht => exact .unexpected rfl ht

theorem orderly_name (ts : List Token) :
    (name ts).Orderly ts (3 * ts.length) fun _ _ => True := by
  rw [name.eq_def]
  split
  · exact .unexpected rfl (by decide)
  · exact Orderly.cons (.done trivial) _
  · next t ts ht =>
    refine .unexpected rfl fun hkind => ?_
    cases t <;> cases hkind
    exact ht _ rfl

theorem orderly_names (ts : List Token) :
    (names ts).Orderly ts (3 * ts.length) fun _ _ => True := by
  fun_induction names ts with
  | case1 => exact .unexpected rfl (by decide)
  | case2 x ts ih => exact ((ih.map fun _ _ _ => trivial).cons _).cons _
  | case3 x ts _ =>
    exact ((orderly_expect (k := .rparen) (by decide) ts).map fun _ _ _ => trivial).cons _
  | case4 t ts _ ht =>
    refine .unexpected rfl fun hkind => ?_
    cases t <;> cases hkind
    exact ht _ rfl

theorem orderly_params (ts : List Token) :
    (params ts).Orderly ts (3 * ts.length) fun _ _ => True := by
  rw [params.eq_def]
  split
  · exact Orderly.cons (.done trivial) _
  · exact orderly_names _

/-- A statement that has been read is finished with a semicolon, or without one. -/
theorem orderly_finish (s : Stmt) (ts : List Token) {Q : Stmt → Nat → Prop} (h : Q s 0) :
    (finish s ts).Orderly ts (3 * ts.length) Q :=
  Orderly.widen (.done h) _ List.suffix_rfl (Nat.le_refl _)

/-! ## Expressions and statements -/

/-- From fewer than `n` tokens the events are orderly. -/
structure OrderlyBelow (n : Nat) : Prop where
  expr (p : Precedence) {ts : List Token} : ts.length < n →
    (expr p ts).Orderly ts (3 * ts.length - 2) fun e m => e.stmtCount ≤ m
  suffixes (p : Precedence) (left : Expr) {ts : List Token} : ts.length < n →
    (suffixes p left ts).Orderly ts (3 * ts.length) fun e m => e.stmtCount ≤ left.stmtCount + m
  exprs₁ {close : Token.Kind} {ts : List Token} : close ≠ .eof → ts.length < n →
    (exprs₁ close ts).Orderly ts (3 * ts.length) fun es m => Expr.stmtCountList es ≤ m
  pairs {ts : List Token} : ts.length < n →
    (pairs ts).Orderly ts (3 * ts.length) fun ps m => Expr.stmtCountPairs ps ≤ m
  block {ts : List Token} : ts.length < n → (block ts).OrderlyBlock ts

namespace OrderlyBelow

/-- Of the expressions up to a closing token, read in order, there may be none. -/
theorem exprs (ih : OrderlyBelow n) {close : Token.Kind} (hclose : close ≠ .eof)
    (hts : ts.length < n) :
    (Parse.exprs close ts).Orderly ts (3 * ts.length) fun es m =>
      Expr.stmtCountList es ≤ m := by
  rw [Parse.exprs.eq_def]
  split
  · exact ih.exprs₁ hclose hts
  · next t ts =>
    split
    · refine Orderly.cons (.done ?_) t
      exact Nat.le_refl 0
    · exact ih.exprs₁ hclose hts

/-- A block that starts later within what is below is read in order. -/
theorem block_next (ih : OrderlyBelow n) (hts : ts.length < n) :
    (Parse.block ts).Orderly ts (3 * ts.length) fun b m => Stmt.countList b ≤ m :=
  (ih.block hts).orderly.mono List.suffix_rfl (Nat.sub_le _ _)

/-- A block after `else` is read in order, and without `else` nothing is. -/
theorem alternative (ih : OrderlyBelow n) (hts : ts.length < n) :
    (Parse.alternative ts).Orderly ts (3 * ts.length) fun no m =>
      Stmt.countList (no.getD []) ≤ m := by
  rw [Parse.alternative.eq_def]
  split
  · next ts =>
    refine Orderly.cons (Orderly.andThen (orderly_expect (by decide) ts) fun _ us h m _ => ?_) _
    have hus := Nat.lt_of_le_of_lt h.length_le (Nat.lt_of_succ_lt hts)
    exact (ih.block_next hus).map fun b k hb => Nat.le_add_left_of_le hb
  · exact .done (Nat.le_refl 0)

/-- A primary expression takes a token, so its parts start below. -/
theorem primary_step (ih : OrderlyBelow n) (hts : ts.length ≤ n) :
    (Parse.primary ts).Orderly ts (3 * ts.length - 2) fun e m => e.stmtCount ≤ m := by
  rw [Parse.primary.eq_def]
  match ts with
  | [] => exact .noExpression rfl (by decide) rfl
  | .ident _ :: ts | .int _ :: ts | .str _ :: ts | .kwTrue :: ts | .kwFalse :: ts =>
    exact .done (Nat.le_refl 0)
  | .bang :: ts | .minus :: ts =>
    refine Orderly.after (Orderly.ofTail ((ih.expr .unary hts).map fun _ _ he => ?_)) _
    exact he
  | .lparen :: ts =>
    refine Orderly.after ((ih.expr .lowest hts).ofTail.andThen fun e us _ m he => ?_) _
    exact (orderly_expect (k := .rparen) (by decide) us).map fun _ k _ => Nat.le_add_right_of_le he
  | .lbracket :: ts =>
    have helements := ih.exprs (by decide : Token.Kind.rbracket ≠ .eof) hts
    refine Orderly.after (helements.map fun _ _ hes => ?_) _
    exact hes
  | .lbrace :: ts =>
    refine Orderly.after ((ih.pairs hts).map fun _ _ hps => ?_) _
    exact hps
  | .kwIf :: ts =>
    refine Orderly.after ((orderly_expect (by decide) ts).andThen fun _ us h m₁ _ => ?_) _
    have hus := Nat.lt_of_le_of_lt h.length_le hts
    refine (ih.expr .lowest hus).ofTail.andThen fun c vs h m₂ hc => ?_
    have hvs := Nat.lt_of_le_of_lt h.length_le hus
    refine (orderly_expect (by decide) vs).andThen fun _ ws h m₃ _ => ?_
    have hws := Nat.lt_of_le_of_lt h.length_le hvs
    refine (orderly_expect (by decide) ws).andThen fun _ xs h m₄ _ => ?_
    have hxs := Nat.lt_of_le_of_lt h.length_le hws
    refine (ih.block_next hxs).andThen fun yes ys h m₅ hyes => ?_
    refine (ih.alternative (Nat.lt_of_le_of_lt h.length_le hxs)).map fun no k hno => ?_
    cases no with
    | none =>
      simp only [Expr.stmtCount]
      omega
    | some no =>
      simp only [Expr.stmtCount, Option.getD_some] at hno ⊢
      omega
  | .kwFn :: ts =>
    refine Orderly.after ((orderly_expect (by decide) ts).andThen fun _ us h m₁ _ => ?_) _
    have hus := Nat.lt_of_le_of_lt h.length_le hts
    refine (orderly_params us).andThen fun xs vs h m₂ _ => ?_
    have hvs := Nat.lt_of_le_of_lt h.length_le hus
    refine (orderly_expect (by decide) vs).andThen fun _ ws h m₃ _ => ?_
    refine (ih.block_next (Nat.lt_of_le_of_lt h.length_le hvs)).map fun body k hbody => ?_
    simp only [Expr.stmtCount]
    omega
  | .illegal _ :: ts | .eof :: ts | .assign :: ts | .plus :: ts | .asterisk :: ts | .slash :: ts
  | .lt :: ts | .gt :: ts | .eq :: ts | .ne :: ts | .rparen :: ts | .rbrace :: ts
  | .rbracket :: ts | .comma :: ts | .semicolon :: ts | .colon :: ts | .kwLet :: ts
  | .kwElse :: ts | .kwReturn :: ts =>
    exact .noExpression rfl (by simp [Token.kind, Grammar.openers]) rfl

/-- Every suffix takes a token, so what follows it starts below. -/
theorem suffixes_step (ih : OrderlyBelow n) (p : Precedence) (left : Expr) (hts : ts.length ≤ n) :
    (Parse.suffixes p left ts).Orderly ts (3 * ts.length) fun e m =>
      e.stmtCount ≤ left.stmtCount + m := by
  rw [Parse.suffixes.eq_def]
  split
  · exact .done (Nat.le_refl _)
  · next t ts =>
    split
    · exact .done (Nat.le_refl _)
    · next s _ =>
      split
      · cases s with
        | operator op =>
          refine Orderly.cons ((ih.expr op.precedence hts).ofTail.andThen
            fun right us h m hr => ?_) t
          refine (ih.suffixes p (.binary op left right) (Nat.lt_of_le_of_lt h.length_le hts)).imp
            fun e k he => ?_
          simp only [Expr.stmtCount] at he
          omega
        | call =>
          refine Orderly.cons ((ih.exprs (by decide) hts).andThen fun args us h m hargs => ?_) t
          refine (ih.suffixes p (.call left args) (Nat.lt_of_le_of_lt h.length_le hts)).imp
            fun e k he => ?_
          simp only [Expr.stmtCount] at he
          omega
        | index =>
          refine Orderly.cons ((ih.expr .lowest hts).ofTail.andThen fun key us h m hkey => ?_) t
          refine (orderly_expect (by decide) us).andThen fun _ vs h' m' _ => ?_
          have hvs := Nat.lt_of_le_of_lt (h'.trans h).length_le hts
          refine (ih.suffixes p (.index left key) hvs).imp fun e k he => ?_
          simp only [Expr.stmtCount] at he
          omega
      · exact .done (Nat.le_refl _)

/-- An expression takes a primary expression, and suffixes after it. -/
theorem expr_step (ih : OrderlyBelow n) (p : Precedence) (hts : ts.length ≤ n) :
    (Parse.expr p ts).Orderly ts (3 * ts.length - 2) fun e m => e.stmtCount ≤ m := by
  rw [Parse.expr]
  have htail := List.length_tail (l := ts)
  refine (ih.primary_step hts).andThen_within (List.tail_suffix ts) (by omega)
    fun e us h m he => ?_
  have hus := Nat.le_trans (h.trans (List.tail_suffix ts)).length_le hts
  exact (ih.suffixes_step p e hus).imp fun f k hf => by omega

theorem exprs₁_step (ih : OrderlyBelow n) {close : Token.Kind} (hclose : close ≠ .eof)
    (hts : ts.length ≤ n) :
    (Parse.exprs₁ close ts).Orderly ts (3 * ts.length) fun es m =>
      Expr.stmtCountList es ≤ m := by
  rw [Parse.exprs₁]
  refine (ih.expr_step .lowest hts).ofTail.andThen fun e us h m he => ?_
  have hus := Nat.le_trans h.length_le hts
  split
  · refine Orderly.cons ((ih.exprs₁ hclose hus).map fun es k hes => ?_) _
    simp only [Expr.stmtCountList]
    omega
  · refine (orderly_expect hclose _).map fun _ k _ => ?_
    simp only [Expr.stmtCountList]
    omega

theorem pairs_step (ih : OrderlyBelow n) (hts : ts.length ≤ n) :
    (Parse.pairs ts).Orderly ts (3 * ts.length) fun ps m => Expr.stmtCountPairs ps ≤ m := by
  rw [Parse.pairs.eq_def]
  split
  · refine Orderly.cons (.done ?_) _
    exact Nat.le_refl 0
  · refine (ih.expr_step .lowest hts).ofTail.andThen fun key us h m₁ hkey => ?_
    have hus := Nat.le_trans h.length_le hts
    refine (orderly_expect (k := .colon) (by decide) us).andThen fun _ vs h m₂ _ => ?_
    have hvs := Nat.le_trans h.length_le hus
    refine (ih.expr_step .lowest hvs).ofTail.andThen fun value ws h m₃ hvalue => ?_
    have hws := Nat.le_trans h.length_le hvs
    have hpair (qs : List (Expr × Expr)) (k : Nat) (hqs : Expr.stmtCountPairs qs ≤ k) :
        Expr.stmtCountPairs ((key, value) :: qs) ≤ m₁ + (m₂ + (m₃ + k)) := by
      simp only [Expr.stmtCountPairs]
      omega
    split
    · exact Orderly.cons ((ih.pairs hws).map hpair) _
    · exact Orderly.cons (.done (hpair [] 0 (Nat.le_refl 0))) _
    · exact (orderly_expect (by decide) _).map fun _ k _ => hpair [] k (Nat.zero_le k)

/-- A statement is begun before anything is found in it. -/
theorem stmt_step (ih : OrderlyBelow n) {t : Token} (hts : (t :: ts).length ≤ n)
    (ht : t ≠ .semicolon) :
    (Parse.stmt (t :: ts)).OrderlyStmt (t :: ts) := by
  have hexpr :
      ((Parse.expr .lowest (t :: ts)).andThen fun e us _ => finish (.expr e) us).Orderly
        (t :: ts) (3 * (t :: ts).length - 2) fun s m => s.count ≤ 1 + m := by
    refine (ih.expr_step .lowest hts).andThen_within (List.suffix_cons t ts) ?_
      fun e us _ m he => ?_
    · simp only [List.length_tail, List.length_cons]
      omega
    · refine orderly_finish (.expr e) us ?_
      simp only [Stmt.count]
      omega
  rw [Parse.stmt.eq_def]
  cases t with
  | kwLet =>
    refine .begin ht (Orderly.after ((orderly_name ts).andThen fun x us h m₁ _ => ?_) _)
    have hus := Nat.lt_of_le_of_lt h.length_le hts
    refine (orderly_expect (by decide) us).andThen fun _ vs h m₂ _ => ?_
    have hvs := Nat.lt_of_le_of_lt h.length_le hus
    refine (ih.expr .lowest hvs).ofTail.andThen fun e ws _ m₃ he => ?_
    refine orderly_finish (.bind x e) ws ?_
    simp only [Stmt.count]
    omega
  | kwReturn =>
    refine .begin ht (Orderly.after ((ih.expr .lowest hts).ofTail.andThen fun e us _ m he => ?_) _)
    refine orderly_finish (.ret e) us ?_
    simp only [Stmt.count]
    omega
  | _ => exact .begin ht hexpr

/-- A block ends in a brace or with an error, after its statements. -/
theorem block_step (ih : OrderlyBelow n) (hts : ts.length ≤ n) :
    (Parse.block ts).OrderlyBlock ts := by
  rw [Parse.block.eq_def]
  split
  · refine ⟨.unexpected rfl (by decide), fun b hb => ?_⟩
    cases hb
  · next ts =>
    have hdone : (Reply.done [] ts).Orderly ts (3 * ts.length) fun b m =>
      Stmt.countList b ≤ m := .done (Nat.le_refl 0)
    refine ⟨hdone.widen _ (List.suffix_cons _ _) ?_, fun _ _ => Nat.lt_succ_self _⟩
    simp only [List.length_cons]
    omega
  · next ts =>
    have hblock := ih.block hts
    refine ⟨hblock.orderly.widen _ (List.suffix_cons _ _) ?_, fun b hb => ?_⟩
    · simp only [List.length_cons]
      omega
    · exact Nat.lt_succ_of_lt (hblock.length_lt b hb)
  · next t ts hbrace hsemicolon =>
    have hrest := (ih.stmt_step hts hsemicolon).recover_andThen Parse.block
      (List.suffix_cons t ts) fun us hus => ih.block (Nat.lt_of_le_of_lt hus.length_le hts)
    exact ⟨hrest.orderly.widen _ List.suffix_rfl (Nat.le_refl _), hrest.length_lt⟩

end OrderlyBelow

/-- Reading is in order, by induction on how many tokens there are. -/
theorem orderlyBelow (n : Nat) : OrderlyBelow n := by
  -- Every step is about one more token than those that it takes for granted.
  induction n with
  | zero => constructor <;> intros <;> exact (Nat.not_lt_zero _ ‹_›).elim
  | succ n ih =>
    exact {
      expr := fun p _ h => ih.expr_step p (Nat.le_of_lt_succ h)
      suffixes := fun p left _ h => ih.suffixes_step p left (Nat.le_of_lt_succ h)
      exprs₁ := fun hclose h => ih.exprs₁_step hclose (Nat.le_of_lt_succ h)
      pairs := fun h => ih.pairs_step (Nat.le_of_lt_succ h)
      block := fun h => ih.block_step (Nat.le_of_lt_succ h) }

end Parse

end Monkey
