import Mathlib.Data.List.Infix
import Mathlib.Data.List.Nodup
import Monkey.Proofs.Events
import Monkey.Proofs.Lexeme

/-!
# Where statements are begun and errors are found

The events on the way to a program are in order, as those on the way to a statement are: after
a statement that is given up another one is begun no earlier than at the token to blame
(`Parse.orderly_program`). Put together token by token (`map_sublist_of_places`), this
says of a source text:

* `Program.begun_once`: at every token a statement is begun at most once, never at a semicolon
  or at the end, and as many are begun as there are statements and errors, or more.
* `Program.errors_faithful`: the errors stand in the order of the source, at most two of them
  blame the same token, and what they say of it is true.
-/

namespace Monkey

open scoped List
open Parse (Event InOrder begunIn foundIn length_begunIn_append length_foundIn_append)

variable {ts us : List Token} {limit : Nat} {events : List Event}

/-! ## Events of programs -/

/-- The events on the way to a program are in order. As many statements are begun as are in the
    program and as errors are found, or more. -/
structure Parse.Reading.Orderly (ts : List Token) (r : Reading) : Prop where
  inOrder : InOrder ts (3 * ts.length - 1) r.events
  count_le : (foundIn r.events).length + r.program.stmtCount ≤ (begunIn r.events).length

namespace Parse

/-- After a statement, which may have been given up, the rest of the program follows. -/
theorem Reading.Orderly.afterStmt {given : List Token} {first : Reply Stmt given}
    {others : Reading} (h : first.OrderlyStmt ts) (hgiven : given <:+ ts)
    (hothers : others.Orderly first.rest) :
    Reading.Orderly ts
      ⟨first.result.toOption.toList ++ others.program, first.events ++ others.events⟩ where
  inOrder := by
    have hrest := first.rest_suffix.trans hgiven
    have hlength := hrest.length_le
    refine h.inOrder.append hothers.inOrder hrest (by omega) fun x hx => ?_
    have := h.le_time x hx
    omega
  count_le := by
    have hfirst := h.count_le
    have hrest := hothers.count_le
    rw [length_begunIn_append, length_foundIn_append, Program.stmtCount, Stmt.countList_append]
    simp only [Program.stmtCount] at hrest
    omega

/-- The events on the way to a program are in order, from the first token on. -/
theorem orderly_program (ts : List Token) : (program ts).Orderly ts := by
  fun_induction program ts with
  | case1 => exact ⟨.nil, Nat.le_refl 0⟩
  | case2 ts ih =>
    refine ⟨ih.inOrder.mono (List.suffix_cons _ ts) ?_, ih.count_le⟩
    rw [List.length_cons]
    omega
  | case3 t ts ht first others ih =>
    exact .afterStmt ((orderlyBelow _).stmt_step (Nat.le_refl _) ht) (List.suffix_cons t ts) ih

end Parse

/-! ## Places of events -/

namespace Parse

theorem mem_begunIn : us ∈ begunIn events ↔ .begun us ∈ events := by
  rw [begunIn, List.mem_filterMap]
  refine ⟨?_, fun h => ⟨_, h, rfl⟩⟩
  rintro ⟨_ | _, hx, ⟨⟩⟩
  exact hx

theorem mem_foundIn {e : SyntaxError} : (e, us) ∈ foundIn events ↔ .found e us ∈ events := by
  rw [foundIn, List.mem_filterMap]
  refine ⟨?_, fun h => ⟨_, h, rfl⟩⟩
  rintro ⟨_ | _, hx, ⟨⟩⟩
  exact hx

/-- What happens before something else does so no later in the source. -/
theorem Event.Before.length_le {x y : Event} (h : x.Before y) : y.here.length ≤ x.here.length := by
  have hx : x.time ≤ 3 * x.here.length := by
    cases x with
    | begun us => exact Nat.sub_le _ _
    | found e us => cases e <;> simp [time, here]
  have hy : 3 * y.here.length - 2 ≤ y.time := by
    cases y with
    | begun us => simp only [time, here]; omega
    | found e us => cases e <;> simp only [time, here] <;> omega
  rcases h with h | h <;> omega

/-- One statement after the other is begun, later in the source. -/
theorem InOrder.pairwise_begunIn (h : InOrder ts limit events) :
    (begunIn events).Pairwise fun us vs => vs.length < us.length := by
  refine List.pairwise_filterMap.2 (h.before.imp_of_mem fun {x y} _ hy hbefore us hus vs hvs => ?_)
  cases x <;> cases hus
  cases y <;> cases hvs
  obtain ⟨t, vs, rfl, -⟩ := (h.within _ hy).apt
  simp only [Event.Before, Event.time, List.length_cons] at hbefore ⊢
  omega

/-- Statements are not begun twice at the same place. -/
theorem InOrder.nodup_begunIn (h : InOrder ts limit events) : (begunIn events).Nodup := by
  refine h.pairwise_begunIn.imp fun {us vs} hlt => ?_
  rintro rfl
  exact Nat.lt_irrefl _ hlt

/-- Errors are found in the order of the source. Of two that blame the same token, the first one
    says that another is expected, and the second one that it starts no expression. -/
theorem InOrder.pairwise_foundIn (h : InOrder ts limit events) :
    (foundIn events).Pairwise fun p q => q.2.length ≤ p.2.length ∧
      ∀ t us, p.2 = t :: us → q.2 = t :: us →
        (∃ k, p.1 = .unexpected k t) ∧ q.1 = .noExpression t := by
  refine List.pairwise_filterMap.2 (h.before.imp_of_mem fun {x y} hx hy hbefore p hp q hq => ?_)
  cases x <;> cases hp
  cases y <;> cases hq
  next e us e' us' =>
  refine ⟨hbefore.length_le, ?_⟩
  rintro t _ rfl rfl
  have hgot : e.got = t := (h.within _ hx).apt.1
  have hgot' : e'.got = t := (h.within _ hy).apt.1
  simp only [Event.Before] at hbefore
  cases e <;> cases e' <;> cases hgot <;> cases hgot' <;>
    simp only [Event.time, List.length_cons] at hbefore <;> try omega
  exact ⟨⟨_, rfl⟩, rfl⟩

/-- Errors that blame the same token are at most two. -/
theorem sublist_of_pairwise {t : Token} {errors : List SyntaxError}
    (hgot : ∀ e ∈ errors, e.got = t)
    (h : errors.Pairwise fun e e' => (∃ k, e = .unexpected k t) ∧ e' = .noExpression t) :
    ∃ k, errors <+ [.unexpected k t, .noExpression t] := by
  match errors with
  | [] => exact ⟨.eof, List.nil_sublist _⟩
  | [.unexpected k u] =>
    obtain rfl : u = t := hgot _ List.mem_cons_self
    exact ⟨k, (List.nil_sublist _).cons_cons _⟩
  | [.noExpression u] =>
    obtain rfl : u = t := hgot _ List.mem_cons_self
    exact ⟨.eof, List.Sublist.cons _ (List.Sublist.refl _)⟩
  | e :: e' :: rest =>
    obtain ⟨hfirst, hrest⟩ := List.pairwise_cons.1 h
    obtain ⟨⟨k, rfl⟩, rfl⟩ := hfirst e' List.mem_cons_self
    cases rest with
    | nil => exact ⟨k, List.Sublist.refl _⟩
    | cons e'' rest =>
      obtain ⟨⟨k', hk'⟩, -⟩ := (List.pairwise_cons.1 hrest).1 e'' List.mem_cons_self
      cases hk'

end Parse

/-! ## Lists in the order of the source -/

section

variable {α β : Type}

/-- What comes first in a list can be taken out in front. -/
theorem filter_append_filter_not {p : α → Bool} {l : List α}
    (h : l.Pairwise fun x y => p y → p x) : l.filter p ++ l.filter (fun x => !p x) = l := by
  induction h with
  | nil => rfl
  | @cons x l hx _ ih =>
    cases hp : p x with
    | true => rw [List.filter_cons_of_pos hp, List.filter_cons_of_neg (by simp [hp]),
        List.cons_append, ih]
    | false =>
      have hnone : l.filter p = [] :=
        List.filter_eq_nil_iff.2 fun y hy hpy => Bool.false_ne_true (hp.symm.trans (hx y hy hpy))
      rw [hnone] at ih
      rw [List.filter_cons_of_neg (by simp [hp]), List.filter_cons_of_pos (by simp [hp]), hnone,
        List.nil_append, ← List.nil_append (l.filter _), ih]

/-- What is in the order of the source is known from what is at every token of it and at its
    end. -/
theorem map_sublist_of_places (place : α → List Token) {f : α → β} {atToken : Token → List β}
    {atEnd : List β} {xs : List α} (hplace : ∀ x ∈ xs, place x <:+ ts)
    (horder : xs.Pairwise fun x y => (place y).length ≤ (place x).length)
    (htoken : ∀ t us, (xs.filter (place · = t :: us)).map f <+ atToken t)
    (hend : (xs.filter (place · = [])).map f <+ atEnd) :
    xs.map f <+ ts.flatMap atToken ++ atEnd := by
  induction ts generalizing xs with
  | nil =>
    have hall : xs.filter (place · = []) = xs :=
      List.filter_eq_self.2 fun x hx => decide_eq_true (List.suffix_nil.1 (hplace x hx))
    rwa [hall] at hend
  | cons t ts ih =>
    have hfirst : xs.Pairwise fun x y =>
        decide (place y = t :: ts) → decide (place x = t :: ts) := by
      refine horder.imp_of_mem fun {x y} hx _ hle hy => ?_
      rw [of_decide_eq_true hy] at hle
      exact decide_eq_true ((hplace x hx).eq_of_length_le hle)
    have hlater (us : List Token) :
        ((xs.filter fun x => !decide (place x = t :: ts)).filter (place · = us)).map f <+
          (xs.filter (place · = us)).map f := (List.filter_sublist.filter _).map f
    rw [← filter_append_filter_not hfirst, List.map_append, List.flatMap_cons, List.append_assoc]
    refine (htoken t ts).append (ih (fun x hx => ?_) (horder.filter _)
      (fun u us => (hlater _).trans (htoken u us)) ((hlater _).trans hend))
    obtain ⟨hx, hne⟩ := List.mem_filter.1 hx
    exact (List.suffix_cons_iff.1 (hplace x hx)).resolve_left (by simpa using hne)

end

namespace Parse.InOrder

/-- The tokens that statements are begun with are tokens of the source other than semicolons,
    each of them at one place. -/
theorem heads_begunIn (h : InOrder ts limit events) :
    (begunIn events).map (·.headD .eof) <+ ts.filter (· ≠ .semicolon) := by
  have hat (us : List Token) (hus : us ∈ begunIn events) : ∃ t vs, us = t :: vs ∧ t ≠ .semicolon :=
    (h.within _ (mem_begunIn.1 hus)).apt
  have hsublist : (begunIn events).map (·.headD .eof) <+
      ts.flatMap (fun t => [t].filter (· ≠ .semicolon)) ++ [] := by
    refine map_sublist_of_places id (fun us hus => (h.within _ (mem_begunIn.1 hus)).here)
      (h.pairwise_begunIn.imp Nat.le_of_lt) (fun t us => ?_) ?_
    · rw [show (begunIn events).filter (id · = t :: us) = _ from List.filter_eq _]
      by_cases hus : t :: us ∈ begunIn events
      · obtain ⟨_, _, ⟨⟩, ht⟩ := hat _ hus
        simp [List.count_eq_one_of_mem h.nodup_begunIn hus, ht]
      · simp [List.count_eq_zero.2 hus]
    · rw [show (begunIn events).filter (id · = []) = [] from
        List.filter_eq_nil_iff.2 fun us hus hnil => ?_]
      · exact List.Sublist.refl _
      · obtain ⟨t, vs, rfl, -⟩ := hat us hus
        simp at hnil
  rwa [List.append_nil, ← List.filter_flatMap, List.flatMap_singleton'] at hsublist

/-- At a token of the source at most two errors are found: that another one is expected, and
    then that it starts no expression. -/
theorem errors_at_token (h : InOrder ts limit events) (t : Token) (us : List Token) :
    ∃ k, ((foundIn events).filter (·.2 = t :: us)).map Prod.fst <+
      [.unexpected k t, .noExpression t] := by
  have hplace {p : SyntaxError × List Token}
      (hp : p ∈ (foundIn events).filter (·.2 = t :: us)) : p.2 = t :: us :=
    of_decide_eq_true (List.mem_filter.1 hp).2
  refine sublist_of_pairwise (fun e he => ?_) (List.pairwise_map.2 ?_)
  · obtain ⟨p, hp, rfl⟩ := List.mem_map.1 he
    have hapt := (h.within _ (mem_foundIn.1 (List.mem_filter.1 hp).1)).apt.1
    rwa [hplace hp] at hapt
  · exact (h.pairwise_foundIn.filter _).imp_of_mem fun hp hq hpq =>
      hpq.2 t us (hplace hp) (hplace hq)

/-- The tokens to blame for errors are tokens of the source, each of them at most twice, and
    then its end. -/
theorem got_foundIn (h : InOrder ts limit events) :
    ∃ n, (foundIn events).map (·.1.got) <+
      ts.flatMap (fun t => [t, t]) ++ List.replicate n .eof := by
  refine ⟨((foundIn events).filter (·.2 = [])).length, ?_⟩
  refine map_sublist_of_places Prod.snd
    (fun p hp => (h.within _ (mem_foundIn.1 hp)).here) (h.pairwise_foundIn.imp And.left)
    (fun t us => ?_) ?_
  · obtain ⟨k, hk⟩ := h.errors_at_token t us
    have hgot := hk.map SyntaxError.got
    rwa [List.map_map] at hgot
  · have heof : ∀ t ∈ ((foundIn events).filter (·.2 = [])).map (·.1.got), t = .eof := by
      intro t ht
      obtain ⟨p, hp, rfl⟩ := List.mem_map.1 ht
      obtain ⟨hp, hend⟩ := List.mem_filter.1 hp
      have hapt := (h.within _ (mem_foundIn.1 hp)).apt.1
      rwa [of_decide_eq_true hend] at hapt
    rw [List.eq_replicate_of_mem heof, List.length_map]

end Parse.InOrder

/-! ## Sources -/

namespace Program

/-- The events on the way to the program of a source are in order. -/
theorem orderly_read (source : String) : (read source).Orderly (Token.ofString source) :=
  Parse.orderly_program _

/-- At every token of a source a statement is begun at most once, never at a semicolon or at the
    end. As many statements are begun as are in the program, with those in blocks, and as errors
    are found, or more; so all these are at most as many as the tokens that are no semicolons.

    Reading comes to an end for every source: it is defined by recursion on the number of tokens
    left. -/
theorem begun_once (source : String) :
    (Program.read source).program.stmtCount + (Program.read source).errors.length ≤
      (Parse.begunIn (Program.read source).events).length ∧
    let tokens := Token.ofString source
    let begun := Parse.begunIn (Program.read source).events
    begun.Nodup ∧
    (∀ here ∈ begun, here <:+ tokens ∧
      ∃ t us, here = t :: us ∧ t ≠ .semicolon ∧ t ≠ .eof) ∧
    begun.length ≤ (tokens.filter (· ≠ .semicolon)).length := by
  have h := orderly_read source
  refine ⟨?_, ?_⟩
  · rw [Parse.Reading.errors, List.length_map, Nat.add_comm]
    exact h.count_le
  intro tokens begun
  refine ⟨h.inOrder.nodup_begunIn, fun here hhere => ?_, ?_⟩
  · have hwithin := h.inOrder.within _ (Parse.mem_begunIn.1 hhere)
    have hsuffix : here <:+ tokens := hwithin.here
    obtain ⟨t, us, rfl, ht⟩ := hwithin.apt
    refine ⟨hsuffix, t, us, rfl, ht, ?_⟩
    rintro rfl
    exact (Token.splits_scan source.toList).eof_not_mem (hsuffix.subset List.mem_cons_self)
  · have hlength := h.inOrder.heads_begunIn.length_le
    rwa [List.length_map] at hlength

/-- The errors of a source are true of it and stand in its order. What each of them blames is
    the token at its place, and the places never go back; so the tokens to blame are among those
    of the source, each of them twice, and then its end, however often. At a token at most two
    errors are found, the first of which expects another one, and the second an expression.
    Where another one is expected it is of another kind, and where an expression is expected
    none starts with a token of this kind. -/
theorem errors_faithful (source : String) :
    (Program.read source).errors = (Parse.foundIn (Program.read source).events).map Prod.fst ∧
    let tokens := Token.ofString source
    let found := Parse.foundIn (Program.read source).events
    let errors := (Program.read source).errors
    (∀ p ∈ found, p.2 <:+ tokens ∧ p.1.got = p.2.head?.getD .eof) ∧
    found.Pairwise (fun p q => q.2.length ≤ p.2.length) ∧
    (∃ n, errors.map SyntaxError.got <+
      tokens.flatMap (fun t => [t, t]) ++ List.replicate n .eof) ∧
    (∀ t us, ∃ k, (found.filter (·.2 = t :: us)).map Prod.fst <+
      [.unexpected k t, .noExpression t]) ∧
    (∀ k t, .unexpected k t ∈ errors → t.kind ≠ k) ∧
    ∀ t, .noExpression t ∈ errors → ∀ u us l e, u.kind = t.kind →
      ¬Grammar.SpellsExpr l (u :: us) e := by
  refine ⟨rfl, ?_⟩
  intro tokens found errors
  have h := (orderly_read source).inOrder
  have hapt : ∀ e ∈ errors, e.Apt := by
    rintro _ he
    obtain ⟨p, hp, rfl⟩ := List.mem_map.1 he
    exact (h.within _ (Parse.mem_foundIn.1 hp)).apt.2
  refine ⟨fun p hp => ?_, h.pairwise_foundIn.imp And.left, ?_, h.errors_at_token,
    fun k t => hapt _, fun t ht u us l e hkind hspells => ?_⟩
  · have hwithin := h.within _ (Parse.mem_foundIn.1 hp)
    exact ⟨hwithin.here, hwithin.apt.1⟩
  · have hmap : errors.map SyntaxError.got = found.map (·.1.got) := List.map_map
    rw [hmap]
    exact h.got_foundIn
  · obtain ⟨_, _, ⟨⟩, hopens⟩ := hspells.opens
    exact hapt _ ht (hkind ▸ Grammar.opens_iff.1 hopens)

end Program

end Monkey
