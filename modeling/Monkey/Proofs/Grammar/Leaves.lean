import Monkey.Proofs.Grammar.Sound

/-!
# Leaves

The leaves of a tree are the tokens that it carries names, numbers and texts of, in the
order of the source (`Expr.leaves`). Whatever is read, in full or in part, has no leaves
but tokens that it was read from (`Parse.leaves_program`), and tokens that spell a tree
are its leaves, signs and keywords (`Grammar.SpellsStmts.leaves`). So what holds of all
the tokens of a source holds of the leaves of its program, and what holds of the leaves
of a program holds of how it can be spelled.
-/

namespace Monkey

/-! ## Leaves of trees -/

/-- The token carries a name, a number or a text. -/
def Token.isLeaf : Token → Bool
  | ident _ | int _ | str _ => true
  | _ => false

/-- The token is a sign or a keyword. -/
def Token.isMark : Token → Bool
  | illegal _ | eof | ident _ | int _ | str _ => false
  | _ => true

mutual

/-- The names, numbers and texts in an expression. -/
def Expr.leaves : Expr → List Token
  | .ident x => [.ident x]
  | .int n => [.int n]
  | .str s => [.str s]
  | .bool _ => []
  | .array elements => Expr.leavesList elements
  | .hash pairs => Expr.leavesPairs pairs
  | .unary _ e => e.leaves
  | .binary _ l r => l.leaves ++ r.leaves
  | .cond c yes none => c.leaves ++ Stmt.leavesList yes
  | .cond c yes (some no) => c.leaves ++ (Stmt.leavesList yes ++ Stmt.leavesList no)
  | .function params body => params.map .ident ++ Stmt.leavesList body
  | .call callee args => callee.leaves ++ Expr.leavesList args
  | .index container key => container.leaves ++ key.leaves
termination_by structural e => e

/-- The names, numbers and texts in expressions. -/
def Expr.leavesList : List Expr → List Token
  | [] => []
  | e :: es => e.leaves ++ Expr.leavesList es
termination_by structural es => es

/-- The names, numbers and texts in pairs of a key and a value. -/
def Expr.leavesPairs : List (Expr × Expr) → List Token
  | [] => []
  | (k, v) :: ps => k.leaves ++ (v.leaves ++ Expr.leavesPairs ps)
termination_by structural ps => ps

/-- The names, numbers and texts in a statement. -/
def Stmt.leaves : Stmt → List Token
  | .bind x e => .ident x :: e.leaves
  | .ret e | .expr e => e.leaves
termination_by structural s => s

/-- The names, numbers and texts in statements. -/
def Stmt.leavesList : List Stmt → List Token
  | [] => []
  | s :: ss => s.leaves ++ Stmt.leavesList ss
termination_by structural ss => ss

end

/-- The names, numbers and texts in a program. -/
abbrev Program.leaves (p : Program) : List Token :=
  Stmt.leavesList p

/-! ## Leaves of what is read -/

namespace Reply

variable {α β : Type} {given larger : List Token} {Q : α → Prop} {R : β → Prop}

/-- What was read has the property, if anything was. -/
def Gives (r : Reply α given) (Q : α → Prop) : Prop :=
  ∀ a, r.result = .ok a → Q a

namespace Gives

theorem done {a : α} (h : Q a) : (done a given).Gives Q := by
  rintro _ ⟨⟩
  exact h

theorem fail (e : SyntaxError) (here : List Token) :
    (fail e here given : Reply α given).Gives Q :=
  nofun

theorem cons {r : Reply α given} (h : r.Gives Q) (t : Token) : (r.cons t).Gives Q :=
  h

theorem ofTail {r : Reply α given.tail} (h : r.Gives Q) : r.ofTail.Gives Q :=
  h

/-- What is read after another part has a property if it follows from that of this part. -/
theorem andThen {r : Reply α given} {next : α → (ts : List Token) → ts <:+ given → Reply β ts}
    (h : r.Gives Q) (hnext : ∀ a ts h, Q a → (next a ts h).Gives R) : (r.andThen next).Gives R := by
  intro b hb
  rcases hr : r.result with e | a
  · cases (andThen_of_error next hr).2.1.symm.trans hb
  · exact hnext a r.rest r.rest_suffix (h a hr) b ((andThen_of_ok next hr).2.1.symm.trans hb)

/-- What is made of a part has a property if it follows from that of the part. -/
theorem map {f : α → β} {r : Reply α given} (h : r.Gives Q) (hf : ∀ a, Q a → R (f a)) :
    (r.map f).Gives R := by
  intro b hb
  obtain ⟨a, ha, rfl⟩ := result_map_eq_ok hb
  exact hf a (h a ha)

/-- A part that is given up has every property. -/
theorem recover {r : Reply α given} (h : r.Gives Q) : r.recover.Gives fun o => ∀ a ∈ o, Q a := by
  rintro _ ⟨⟩ a ha
  rcases hr : r.result with e | b
  · rw [hr] at ha
    cases ha
  · rw [hr] at ha
    exact h a (hr.trans (congrArg _ (Option.some.inj ha)))

theorem begin {r : Reply α given} (h : r.Gives Q) (here : List Token) : (r.begin here).Gives Q :=
  h

end Gives

end Reply

namespace Parse

open Reply (Gives)

variable {P : Token → Prop} {n : Nat} {ts us : List Token}

/-- Fewer than `n` tokens, of which the leaves have the property. -/
structure Among (P : Token → Prop) (n : Nat) (ts : List Token) : Prop where
  all : ∀ t ∈ ts, t.isLeaf = true → P t
  length_lt : ts.length < n

namespace Among

variable {t : Token}

theorem head (h : Among P n (t :: ts)) (ht : t.isLeaf = true) : P t :=
  h.all t List.mem_cons_self ht

theorem tail (h : Among P (n + 1) (t :: ts)) : Among P n ts :=
  ⟨(List.forall_mem_cons.1 h.all).2, Nat.lt_of_succ_lt_succ h.length_lt⟩

theorem suffix (h : Among P n ts) (hus : us <:+ ts) : Among P n us :=
  ⟨fun t ht => h.all t (hus.subset ht), Nat.lt_of_le_of_lt hus.length_le h.length_lt⟩

theorem cons (h : Among P n (t :: ts)) : Among P n ts :=
  h.suffix (List.suffix_cons t ts)

end Among

/-! ### Single tokens -/

theorem gives_expect (k : Token.Kind) (ts : List Token) : (expect k ts).Gives fun _ => True :=
  fun _ _ => trivial

/-- A name that is read is one of the tokens. -/
theorem leaves_name (hts : Among P n ts) : (name ts).Gives fun x => P (.ident x) := by
  unfold name
  split
  · exact .fail _ _
  · next x us =>
    have hx : (Reply.done x us).Gives fun x => P (.ident x) := .done (hts.head rfl)
    exact hx.cons _
  · exact .fail _ _

/-- A semicolon is no leaf. -/
theorem leaves_finish (s : Stmt) (h : ∀ t ∈ s.leaves, P t) (ts : List Token) :
    (finish s ts).Gives fun s => ∀ t ∈ s.leaves, P t := by
  rintro _ ⟨⟩
  exact h

/-- Names that are read are among the tokens. -/
theorem leaves_names (hts : Among P n ts) :
    (names ts).Gives fun xs => ∀ t ∈ xs.map Token.ident, P t := by
  fun_induction names ts with
  | case1 => exact .fail _ _
  | case2 x ts ih =>
    refine ((ih hts.cons.cons).map fun xs hxs => ?_).cons _ |>.cons _
    exact List.forall_mem_cons.2 ⟨hts.head rfl, hxs⟩
  | case3 x ts =>
    refine ((gives_expect .rparen ts).map fun _ _ => ?_).cons _
    exact List.forall_mem_singleton.2 (hts.head rfl)
  | case4 => exact .fail _ _

theorem leaves_params (hts : Among P n ts) :
    (params ts).Gives fun xs => ∀ t ∈ xs.map Token.ident, P t := by
  unfold params
  split
  · exact Gives.cons (.done (List.forall_mem_nil _)) _
  · exact leaves_names hts

/-! ### Expressions and statements -/

/-- What is read from fewer than `n` tokens has leaves with a property that those of the
    tokens have. -/
structure LeavesBelow (P : Token → Prop) (n : Nat) : Prop where
  expr (p : Precedence) {ts : List Token} : Among P n ts →
    (expr p ts).Gives fun e => ∀ t ∈ e.leaves, P t
  suffixes (p : Precedence) (left : Expr) {ts : List Token} : (∀ t ∈ left.leaves, P t) →
    Among P n ts → (suffixes p left ts).Gives fun e => ∀ t ∈ e.leaves, P t
  exprs₁ (close : Token.Kind) {ts : List Token} : Among P n ts →
    (exprs₁ close ts).Gives fun es => ∀ t ∈ Expr.leavesList es, P t
  pairs {ts : List Token} : Among P n ts →
    (pairs ts).Gives fun ps => ∀ t ∈ Expr.leavesPairs ps, P t
  block {ts : List Token} : Among P n ts →
    (block ts).Gives fun b => ∀ t ∈ Stmt.leavesList b, P t

namespace LeavesBelow

/-- Of the expressions up to a closing token all leaves have the property. -/
theorem exprs (ih : LeavesBelow P n) (close : Token.Kind) (hts : Among P n ts) :
    (Parse.exprs close ts).Gives fun es => ∀ t ∈ Expr.leavesList es, P t := by
  rw [Parse.exprs.eq_def]
  split
  · exact ih.exprs₁ close hts
  · next t ts =>
    split
    · exact Gives.cons (.done (List.forall_mem_nil _)) t
    · exact ih.exprs₁ close hts

/-- Of the block after `else` all leaves have the property, if there is one. -/
theorem alternative (ih : LeavesBelow P n) (hts : Among P n ts) :
    (Parse.alternative ts).Gives fun no => ∀ b ∈ no, ∀ t ∈ Stmt.leavesList b, P t := by
  rw [Parse.alternative.eq_def]
  split
  · next ts =>
    refine Gives.cons ((gives_expect .lbrace ts).andThen fun _ us hus _ => ?_) _
    refine (ih.block (hts.cons.suffix hus)).map fun b hb => ?_
    rintro _ ⟨⟩
    exact hb
  · exact .done fun _ hb => absurd hb (Option.not_mem_none _)

/-- A primary expression has its leaves from its first token and from later ones. -/
theorem primary_step (ih : LeavesBelow P n) (hts : Among P (n + 1) ts) :
    (primary ts).Gives fun e => ∀ t ∈ e.leaves, P t := by
  rw [primary.eq_def]
  match ts with
  | [] => exact .fail _ _
  | .ident x :: ts | .int n :: ts | .str s :: ts =>
    exact .done (List.forall_mem_singleton.2 (hts.head rfl))
  | .kwTrue :: ts | .kwFalse :: ts => exact .done nofun
  | .bang :: ts | .minus :: ts => exact (ih.expr .unary hts.tail).map fun _ he => he
  | .lparen :: ts =>
    refine (ih.expr .lowest hts.tail).ofTail.andThen fun e us _ he => ?_
    exact (gives_expect .rparen us).map fun _ _ => he
  | .lbracket :: ts => exact (ih.exprs .rbracket hts.tail).map fun _ hes => hes
  | .lbrace :: ts => exact (ih.pairs hts.tail).map fun _ hps => hps
  | .kwIf :: ts =>
    refine (gives_expect .lparen ts).andThen fun _ us h _ => ?_
    have hus := hts.tail.suffix h
    refine (ih.expr .lowest hus).ofTail.andThen fun c vs h hc => ?_
    have hvs := hus.suffix h
    refine (gives_expect .rparen vs).andThen fun _ ws h _ => ?_
    have hws := hvs.suffix h
    refine (gives_expect .lbrace ws).andThen fun _ xs h _ => ?_
    have hxs := hws.suffix h
    refine (ih.block hxs).andThen fun yes ys h hyes => ?_
    refine (ih.alternative (hxs.suffix h)).map fun no hno => ?_
    cases no with
    | none => exact List.forall_mem_append.2 ⟨hc, hyes⟩
    | some no =>
      have hno := hno no rfl
      exact List.forall_mem_append.2 ⟨hc, List.forall_mem_append.2 ⟨hyes, hno⟩⟩
  | .kwFn :: ts =>
    refine (gives_expect .lparen ts).andThen fun _ us h _ => ?_
    have hus := hts.tail.suffix h
    refine (leaves_params hus).andThen fun xs vs h hxs => ?_
    have hvs := hus.suffix h
    refine (gives_expect .lbrace vs).andThen fun _ ws h _ => ?_
    refine (ih.block (hvs.suffix h)).map fun body hbody => ?_
    exact List.forall_mem_append.2 ⟨hxs, hbody⟩
  | .illegal _ :: ts | .eof :: ts | .assign :: ts | .plus :: ts | .asterisk :: ts | .slash :: ts
  | .lt :: ts | .gt :: ts | .eq :: ts | .ne :: ts | .rparen :: ts | .rbrace :: ts
  | .rbracket :: ts | .comma :: ts | .semicolon :: ts | .colon :: ts | .kwLet :: ts
  | .kwElse :: ts | .kwReturn :: ts => exact .fail _ _

/-- Suffixes have their leaves from later tokens. -/
theorem suffixes_step (ih : LeavesBelow P n) (p : Precedence) (left : Expr)
    (hleft : ∀ t ∈ left.leaves, P t) (hts : Among P (n + 1) ts) :
    (Parse.suffixes p left ts).Gives fun e => ∀ t ∈ e.leaves, P t := by
  rw [Parse.suffixes.eq_def]
  split
  · exact .done hleft
  · next t ts =>
    have hts := hts.tail
    split
    · exact .done hleft
    · next s _ =>
      split
      · cases s with
        | operator op =>
          refine Gives.cons ((ih.expr op.precedence hts).ofTail.andThen fun right us h he => ?_) _
          have hbinary := List.forall_mem_append.2 ⟨hleft, he⟩
          exact ih.suffixes p (.binary op left right) hbinary (hts.suffix h)
        | call =>
          refine Gives.cons ((ih.exprs .rparen hts).andThen fun args us h hargs => ?_) _
          have hcall := List.forall_mem_append.2 ⟨hleft, hargs⟩
          exact ih.suffixes p (.call left args) hcall (hts.suffix h)
        | index =>
          refine Gives.cons ((ih.expr .lowest hts).ofTail.andThen fun key us h hkey => ?_) _
          refine (gives_expect .rbracket us).andThen fun _ vs h' _ => ?_
          have hindex := List.forall_mem_append.2 ⟨hleft, hkey⟩
          exact ih.suffixes p (.index left key) hindex (hts.suffix (h'.trans h))
      · exact .done hleft

theorem expr_step (ih : LeavesBelow P n) (p : Precedence) (hts : Among P (n + 1) ts) :
    (Parse.expr p ts).Gives fun e => ∀ t ∈ e.leaves, P t := by
  rw [Parse.expr]
  refine (ih.primary_step hts).andThen fun e us h he => ?_
  exact ih.suffixes_step p e he (hts.suffix (h.trans (List.tail_suffix ts)))

theorem exprs₁_step (ih : LeavesBelow P n) (close : Token.Kind) (hts : Among P (n + 1) ts) :
    (Parse.exprs₁ close ts).Gives fun es => ∀ t ∈ Expr.leavesList es, P t := by
  rw [Parse.exprs₁]
  refine (ih.expr_step .lowest hts).ofTail.andThen fun e us h he => ?_
  have hus := hts.suffix h
  split
  · refine Gives.cons ((ih.exprs₁ close hus.tail).map fun es hes => ?_) _
    exact List.forall_mem_append.2 ⟨he, hes⟩
  · refine (gives_expect close _).map fun _ _ => ?_
    exact List.forall_mem_append.2 ⟨he, List.forall_mem_nil _⟩

theorem pairs_step (ih : LeavesBelow P n) (hts : Among P (n + 1) ts) :
    (Parse.pairs ts).Gives fun ps => ∀ t ∈ Expr.leavesPairs ps, P t := by
  rw [Parse.pairs.eq_def]
  split
  · exact Gives.cons (.done (List.forall_mem_nil _)) _
  · refine (ih.expr_step .lowest hts).ofTail.andThen fun key us h hkey => ?_
    have hus := hts.suffix h
    refine (gives_expect .colon us).andThen fun _ vs h _ => ?_
    have hvs := hus.suffix h
    refine (ih.expr_step .lowest hvs).ofTail.andThen fun value ws h hvalue => ?_
    have hws := hvs.suffix h
    have hpair (qs : List (Expr × Expr)) (hqs : ∀ t ∈ Expr.leavesPairs qs, P t) :
        ∀ t ∈ Expr.leavesPairs ((key, value) :: qs), P t :=
      List.forall_mem_append.2 ⟨hkey, List.forall_mem_append.2 ⟨hvalue, hqs⟩⟩
    split
    · exact Gives.cons ((ih.pairs hws.tail).map hpair) _
    · exact Gives.cons (.done (hpair [] (List.forall_mem_nil _))) _
    · exact (gives_expect .comma _).map fun _ _ => hpair [] (List.forall_mem_nil _)

/-- A statement has its leaves from the tokens, the name that it binds as well. -/
theorem stmt_step (ih : LeavesBelow P n) (hts : Among P (n + 1) ts) :
    (stmt ts).Gives fun s => ∀ t ∈ s.leaves, P t := by
  by_cases hlet : ts.head? = some .kwLet
  · obtain ⟨ts, rfl⟩ := List.head?_eq_some_iff.1 hlet
    rw [stmt.eq_def]
    refine Gives.begin ((leaves_name hts.tail).andThen fun x us h hx => ?_) _
    have hus := hts.tail.suffix h
    refine (gives_expect .assign us).andThen fun _ vs h _ => ?_
    refine (ih.expr .lowest (hus.suffix h)).ofTail.andThen fun e ws _ he => ?_
    exact leaves_finish (.bind x e) (List.forall_mem_cons.2 ⟨hx, he⟩) ws
  by_cases hreturn : ts.head? = some .kwReturn
  · obtain ⟨ts, rfl⟩ := List.head?_eq_some_iff.1 hreturn
    rw [stmt.eq_def]
    refine Gives.begin ((ih.expr .lowest hts.tail).ofTail.andThen fun e us _ he => ?_) _
    exact leaves_finish (.ret e) he us
  · rw [stmt_of_ne hlet hreturn]
    refine Gives.begin ((ih.expr_step .lowest hts).andThen fun e us _ he => ?_) _
    exact leaves_finish (.expr e) he us

/-- A block has the leaves of its statements. -/
theorem block_step (ih : LeavesBelow P n) (hts : Among P (n + 1) ts) :
    (Parse.block ts).Gives fun b => ∀ t ∈ Stmt.leavesList b, P t := by
  rw [Parse.block.eq_def]
  split
  · exact .fail _ _
  · exact Gives.cons (.done (List.forall_mem_nil _)) _
  · exact Gives.cons (ih.block hts.tail) _
  · next t ts _ _ =>
    refine Gives.cons ((ih.stmt_step hts).recover.andThen fun s us h hs => ?_) _
    refine (ih.block (hts.tail.suffix h)).map fun ss hss => ?_
    cases s with
    | none => exact hss
    | some s => exact List.forall_mem_append.2 ⟨hs s rfl, hss⟩

end LeavesBelow

/-- What is read has its leaves from the tokens, by induction on how many there are. -/
theorem leavesBelow (P : Token → Prop) (n : Nat) : LeavesBelow P n := by
  -- Every step is about one more token than those that it takes for granted.
  induction n with
  | zero => constructor <;> intros <;> exact (Nat.not_lt_zero _ (Among.length_lt ‹_›)).elim
  | succ n ih =>
    exact {
      expr := fun p _ h => ih.expr_step p h
      suffixes := fun p left _ hleft h => ih.suffixes_step p left hleft h
      exprs₁ := fun close _ h => ih.exprs₁_step close h
      pairs := fun h => ih.pairs_step h
      block := fun h => ih.block_step h }

/-- The leaves of a program, as far as it could be read, are tokens that it was read
    from. -/
theorem leaves_program (hts : ∀ t ∈ ts, t.isLeaf = true → P t) :
    ∀ t ∈ (program ts).program.leaves, P t := by
  fun_induction program ts with
  | case1 => exact List.forall_mem_nil _
  | case2 ts ih => exact ih (List.forall_mem_cons.1 hts).2
  | case3 t ts _ first others ih =>
    have hrest := ih fun t ht => hts t (List.mem_cons_of_mem _ (first.rest_suffix.subset ht))
    rcases hfirst : first.result with e | s
    · exact hrest
    · have hs : ∀ t ∈ s.leaves, P t :=
        (leavesBelow P _).stmt_step ⟨hts, Nat.lt_succ_self _⟩ s hfirst
      exact List.forall_mem_append.2 ⟨hs, hrest⟩

end Parse

/-! ## Leaves of what is spelled -/

namespace Grammar

/-- What holds of the parts and of what stands between them holds of all. -/
theorem forall_mem_intersperse {α : Type} {P : α → Prop} {sep : α} {as : List α} (hsep : P sep)
    (has : ∀ a ∈ as, P a) : ∀ a ∈ as.intersperse sep, P a := by
  induction as with
  | nil => exact nofun
  | cons a as ih =>
    obtain ⟨ha, has⟩ := List.forall_mem_cons.1 has
    cases as with
    | nil => exact List.forall_mem_singleton.2 ha
    | cons b bs =>
      rw [List.intersperse_cons_cons]
      exact List.forall_mem_cons.2 ⟨ha, List.forall_mem_cons.2 ⟨hsep, ih has⟩⟩

/-- Binary operators are written as signs. -/
theorem isMark_of_mem_operators {l : Level} {t : Token} {op : BinaryOp}
    (h : (t, op) ∈ l.operators) : t.isMark = true := by
  cases l <;> simp only [Level.operators, List.mem_cons, List.not_mem_nil, or_false,
    Prod.mk.injEq] at h
  all_goals rcases h with ⟨rfl, -⟩ | ⟨rfl, -⟩ <;> rfl

theorem isMark_of_mem_unaryOperators {t : Token} {op : UnaryOp} (h : (t, op) ∈ unaryOperators) :
    t.isMark = true := by
  simp only [unaryOperators, List.mem_cons, List.not_mem_nil, or_false, Prod.mk.injEq] at h
  rcases h with ⟨rfl, -⟩ | ⟨rfl, -⟩ <;> rfl

/-- What stands between two marks. -/
theorem forall_mem_between {P : Token → Prop} {t u : Token} {ts : List Token} (ht : P t)
    (hts : ∀ v ∈ ts, P v) (hu : P u) : ∀ v ∈ t :: ts ++ [u], P v :=
  List.forall_mem_cons.2 ⟨ht, List.forall_mem_append.2 ⟨hts, List.forall_mem_singleton.2 hu⟩⟩

section

variable {P : Token → Prop} (hP : ∀ t, t.isMark = true → P t)

include hP

mutual

/-- The tokens that spell a tree are its leaves and marks. -/
theorem SpellsExpr.leaves {l : Level} {ts : List Token} {e : Expr} :
    SpellsExpr l ts e → (∀ t ∈ e.leaves, P t) → ∀ t ∈ ts, P t
  | .loosen h, he => h.leaves he
  | .binary hop h h', he => by
    obtain ⟨hl, hr⟩ := List.forall_mem_append.1 he
    have ht := hP _ (isMark_of_mem_operators hop)
    exact List.forall_mem_append.2 ⟨h.leaves hl, List.forall_mem_cons.2 ⟨ht, h'.leaves hr⟩⟩
  | .unary hop h, he =>
    List.forall_mem_cons.2 ⟨hP _ (isMark_of_mem_unaryOperators hop), h.leaves he⟩
  | .call h h', he => by
    obtain ⟨hcallee, hargs⟩ := List.forall_mem_append.1 he
    have hargs := forall_mem_between (hP .lparen rfl) (h'.leaves hargs) (hP .rparen rfl)
    rw [List.append_assoc]
    exact List.forall_mem_append.2 ⟨h.leaves hcallee, hargs⟩
  | .index h h', he => by
    obtain ⟨hcontainer, hkey⟩ := List.forall_mem_append.1 he
    have hkey := forall_mem_between (hP .lbracket rfl) (h'.leaves hkey) (hP .rbracket rfl)
    rw [List.append_assoc]
    exact List.forall_mem_append.2 ⟨h.leaves hcontainer, hkey⟩
  | @SpellsExpr.atom t _ ha, he => by
    refine List.forall_mem_singleton.2 ?_
    cases t <;> cases ha
    case kwTrue | kwFalse => exact hP _ rfl
    all_goals exact he _ List.mem_cons_self
  | .group h, he => forall_mem_between (hP .lparen rfl) (h.leaves he) (hP .rparen rfl)
  | .array h, he => forall_mem_between (hP .lbracket rfl) (h.leaves he) (hP .rbracket rfl)
  | .hash h, he => forall_mem_between (hP .lbrace rfl) (h.leaves he) (hP .rbrace rfl)
  | .cond h h', he => by
    obtain ⟨hc, hyes⟩ := List.forall_mem_append.1 he
    have hc := List.forall_mem_cons.2 ⟨hP .lparen rfl, h.leaves hc⟩
    have hyes := List.forall_mem_cons.2 ⟨hP .rparen rfl, h'.leaves hyes⟩
    exact List.forall_mem_cons.2 ⟨hP .kwIf rfl, List.forall_mem_append.2 ⟨hc, hyes⟩⟩
  | .condElse h h' h'', he => by
    obtain ⟨hc, hyes⟩ := List.forall_mem_append.1 he
    obtain ⟨hyes, hno⟩ := List.forall_mem_append.1 hyes
    have hc := List.forall_mem_cons.2 ⟨hP .lparen rfl, h.leaves hc⟩
    have hno := List.forall_mem_cons.2 ⟨hP .kwElse rfl, h''.leaves hno⟩
    have hyes := List.forall_mem_append.2 ⟨h'.leaves hyes, hno⟩
    have hyes := List.forall_mem_cons.2 ⟨hP .rparen rfl, hyes⟩
    exact List.forall_mem_cons.2 ⟨hP .kwIf rfl, List.forall_mem_append.2 ⟨hc, hyes⟩⟩
  | .function h, he => by
    obtain ⟨hxs, hbody⟩ := List.forall_mem_append.1 he
    have hxs := forall_mem_intersperse (hP .comma rfl) hxs
    have hxs := List.forall_mem_cons.2 ⟨hP .lparen rfl, hxs⟩
    have hbody := List.forall_mem_cons.2 ⟨hP .rparen rfl, h.leaves hbody⟩
    exact List.forall_mem_cons.2 ⟨hP .kwFn rfl, List.forall_mem_append.2 ⟨hxs, hbody⟩⟩
termination_by structural h => h

theorem SpellsExprs.leaves {ts : List Token} {es : List Expr} :
    SpellsExprs ts es → (∀ t ∈ Expr.leavesList es, P t) → ∀ t ∈ ts, P t
  | .nil, _ => nofun
  | .last h, hes => h.leaves (List.forall_mem_append.1 hes).1
  | .cons h h', hes => by
    obtain ⟨he, hes⟩ := List.forall_mem_append.1 hes
    have hes := List.forall_mem_cons.2 ⟨hP .comma rfl, h'.leaves hes⟩
    exact List.forall_mem_append.2 ⟨h.leaves he, hes⟩
termination_by structural h => h

theorem SpellsPairs.leaves {ts : List Token} {ps : List (Expr × Expr)} :
    SpellsPairs ts ps → (∀ t ∈ Expr.leavesPairs ps, P t) → ∀ t ∈ ts, P t
  | .nil, _ => nofun
  | .last h h', hps => by
    obtain ⟨hk, hv⟩ := List.forall_mem_append.1 hps
    have hv := List.forall_mem_cons.2 ⟨hP .colon rfl, h'.leaves (List.forall_mem_append.1 hv).1⟩
    exact List.forall_mem_append.2 ⟨h.leaves hk, hv⟩
  | .cons h h' h'', hps => by
    obtain ⟨hk, hv⟩ := List.forall_mem_append.1 hps
    obtain ⟨hv, hps⟩ := List.forall_mem_append.1 hv
    have hv := List.forall_mem_cons.2 ⟨hP .colon rfl, h'.leaves hv⟩
    have hps := List.forall_mem_cons.2 ⟨hP .comma rfl, h''.leaves hps⟩
    exact List.forall_mem_append.2 ⟨List.forall_mem_append.2 ⟨h.leaves hk, hv⟩, hps⟩
termination_by structural h => h

theorem SpellsBlock.leaves {ts : List Token} {b : Block} :
    SpellsBlock ts b → (∀ t ∈ Stmt.leavesList b, P t) → ∀ t ∈ ts, P t
  | .braces h, hb => forall_mem_between (hP .lbrace rfl) (h.leaves hb) (hP .rbrace rfl)
termination_by structural h => h

/-- Statements are spelled by their leaves, signs and keywords. -/
theorem SpellsStmts.leaves {ts : List Token} {ss : List Stmt} :
    SpellsStmts ts ss → (∀ t ∈ Stmt.leavesList ss, P t) → ∀ t ∈ ts, P t
  | .nil, _ => nofun
  | .semicolon h, hss => List.forall_mem_cons.2 ⟨hP .semicolon rfl, h.leaves hss⟩
  | .cons h _ h', hss => by
    obtain ⟨hs, hss⟩ := List.forall_mem_append.1 hss
    exact List.forall_mem_append.2 ⟨h.leaves hs, h'.leaves hss⟩
termination_by structural h => h

/-- A statement is spelled by its leaves, signs and keywords. -/
theorem SpellsStmt.leaves {ts : List Token} {s : Stmt} :
    SpellsStmt ts s → (∀ t ∈ s.leaves, P t) → ∀ t ∈ ts, P t
  | .bind h, hs => by
    obtain ⟨hx, he⟩ := List.forall_mem_cons.1 hs
    have he := List.forall_mem_cons.2 ⟨hP .assign rfl, h.leaves he⟩
    exact List.forall_mem_cons.2 ⟨hP .kwLet rfl, List.forall_mem_cons.2 ⟨hx, he⟩⟩
  | .ret h, hs => List.forall_mem_cons.2 ⟨hP .kwReturn rfl, h.leaves hs⟩
  | .expr h, hs => h.leaves hs
termination_by structural h => h

end

end

end Grammar

end Monkey
