import Mathlib.Data.List.Permutation
import Monkey.Proofs.Alike

/-!
# Expressions are pure

An expression in which no `let` occurs outside a function literal changes no scope, however
many functions it calls: all that it leaves behind are things that nothing refers to and
what it has printed. Evaluated again, it does the same (`Expr.eval_again`). The arrays,
hashes, functions and scopes of the second run have other numbers than those of the first,
but equality, which is identity, gives the same answers in both.
-/

namespace Monkey

open Eval State

/-! ## Comparisons -/

/-- The truth value that an evaluation has ended in, if it has ended in one. -/
def Outcome.bool? : Outcome Value → Option Bool
  | value (.bool b) => some b
  | _ => none

/-- A truth value is not renamed. -/
theorem Outcome.bool?_rename (r : Renaming) (o : Outcome Value) : (o.rename r).bool? = o.bool? := by
  cases o with
  | value v => cases v <;> rfl
  | _ => rfl

/-- The answer of a comparison, if this is when its evaluation ends in one. -/
def Moment.answer? (m : Moment) : Option (BinaryOp × Bool) :=
  match m.tree with
  | .expr (.binary op _ _) => (m.outcome?.bind Outcome.bool?).map (op, ·)
  | _ => none

/-- The answers of all comparisons with `==`, `!=`, `<` and `>`, the latest first. -/
def Journal.answers (j : Journal) : List (BinaryOp × Bool) :=
  j.filterMap Moment.answer?

/-- Corresponding moments have the same answer. -/
theorem Moment.Mirrors.answer?_eq {r : Renaming} {m m' : Moment} (h : m.Mirrors r m') :
    m'.answer? = m.answer? := by
  have hbool : m'.outcome?.bind Outcome.bool? = m.outcome?.bind Outcome.bool? := by
    rw [h.outcome?]
    cases m.outcome? with
    | none => rfl
    | some o => exact o.bool?_rename r
  rw [answer?, answer?, h.tree, hbool]

/-- Corresponding journals have the same answers, in the same order. -/
theorem Journal.Mirrors.answers_eq {r : Renaming} {j j' : Journal} (h : j.Mirrors r j') :
    j'.answers = j.answers := by
  induction h with
  | nil => rfl
  | cons hm _ ih =>
    rw [answers, answers, List.filterMap_cons, List.filterMap_cons, hm.answer?_eq]
    simp only [answers] at ih
    rw [ih]

/-! ## Expressions -/

/-- An expression that binds no names changes no scope that there was. -/
theorem Expr.run_eval_untouched (depth : Nat) {e : Expr} (he : e.targets = []) (scope : ScopeId)
    (s : State) : Untouched s ((e.eval (Value.apply depth) scope).run s).2 := by
  have hkeeping :
      Keeping (Untouched s) (fun _ => True) (fun _ => False) (Value.apply depth) scope :=
    { inherited := Value.inherited_true
      function := fun _ _ _ => trivial
      lookup := fun _ _ => trivial
      bind := fun _ hx _ => hx.elim
      newId := fun _ h => h.trans (.of_scopes_eq rfl)
      apply := fun {f args} _ _ t h =>
        ⟨h.trans (f.run_apply_untouched depth args t),
          .of_forall (fun _ => trivial) fun _ => trivial⟩ }
  refine (e.eval_keeps hkeeping (fun x hx => ?_) (.refl s)).1
  rw [he] at hx
  exact List.not_mem_nil hx

/-- An expression in which no `let` occurs outside a function literal ends again as it has
    ended, in the same value up to a renaming, or the same error, or not at all, and prints
    again what it has printed. The renaming is one-to-one and leaves all that there was
    before, and by it the moments of the two runs correspond, with the answers of all
    comparisons. -/
theorem Expr.eval_again {s : State} (hs : s.Grounded) {scope : ScopeId}
    (hscope : scope < s.scopes.size) {e : Expr} (he : e.targets = []) (depth : Nat) (path : Path) :
    let first := (e.trace (Value.trace depth) path scope).run s []
    let again := (e.trace (Value.trace depth) path scope).run first.1.2 []
    first.1 = (e.eval (Value.apply depth) scope).run s ∧
    again.1 = (e.eval (Value.apply depth) scope).run first.1.2 ∧
    first.1.1.LooksLike again.1.1 ∧
    (∃ text, first.1.2.printed = s.printed ++ text ∧
      again.1.2.printed = first.1.2.printed ++ text) ∧
    ∃ r : Renaming, r.Fixes s ∧ again.1.1 = first.1.1.rename r ∧ first.2.Mirrors r again.2 ∧
      again.2.answers = first.2.answers := by
  intro first again
  have herases := e.erases_trace depth path scope
  have hfirst : first.1 = (e.eval (Value.apply depth) scope).run s := herases s []
  -- The state after the first run has all scopes as they were, and only more of them.
  have huntouched : Untouched s first.1.2 := hfirst ▸ e.run_eval_untouched depth he scope s
  have hnumbers : Outnumbered s first.1.2 := by
    have hgrows := e.eval_grows (Value.apply_grows .grounded depth) hscope fun _ _ => trivial
    exact hfirst ▸ (hgrows (.refl s) hs).1
  have halike := hs.alike huntouched hnumbers fun _ => True
  have hfixes := Renaming.past_fixes s first.1.2
  have hC : ∀ i, s.All (Value.ReadsOnly fun _ => True) (.scope i) :=
    fun _ _ _ _ _ _ _ _ => trivial
  have hsteps := Mirror.steps_alike (.past s first.1.2) (fun _ => True) s.printed
    first.1.2.printed s
  have hmirrors := e.trace_mirrors hsteps (Value.trace_mirrors hsteps depth) (fun _ _ => trivial)
    path (hC scope)
  have hclosed := State.Closed.of_all (Value.ReadsOnly fun _ => True) s
  obtain ⟨⟨hend, -⟩, hjournals, houtcome, -⟩ := hmirrors ⟨halike, hclosed⟩ .nil
  have hscope' : (Mirror.alike (.past s first.1.2) (fun _ => True) s.printed
      first.1.2.printed s).rename.scope scope = scope := hfixes.scope hscope
  rw [hscope'] at hend hjournals houtcome
  refine ⟨hfirst, herases _ [], ?_, hend.printed, _, hfixes, houtcome, hjournals,
    hjournals.answers_eq⟩
  exact houtcome ▸ first.1.1.looksLike_rename _

/-- A new array is compared with one that there is, twice. -/
theorem Expr.eval_again_array :
    let s := (State.empty.newScope none).2.newId.2.bind 0 "xs" (.array 0 [])
    let e : Expr := .array [.binary .eq (.ident "xs") (.array [])]
    let first := (e.trace (Value.trace 0) [] 0).run s []
    let again := (e.trace (Value.trace 0) [] 0).run first.1.2 []
    s.Grounded ∧ 0 < s.scopes.size ∧ e.targets = [] ∧
    first.1.1 = .value (.array 2 [.bool false]) ∧ again.1.1 = .value (.array 4 [.bool false]) ∧
    ∃ r : Renaming, r.Fixes s ∧ again.1.1 = first.1.1.rename r ∧
      again.2.answers = first.2.answers := by
  intro s e first again
  have hs : s.Grounded :=
    (Session.bind 0 "xs" (.newId (.newScope none .start nofun))
      (.array fun _ h => absurd h List.not_mem_nil)).grounded
  have hvalues : first.1.1 = .value (.array 2 [.bool false]) ∧
      again.1.1 = .value (.array 4 [.bool false]) := by cbv
  obtain ⟨-, -, -, -, r, hfixes, houtcome, -, hanswers⟩ :=
    Expr.eval_again hs Nat.zero_lt_one (e := e) rfl 0 []
  exact ⟨hs, Nat.zero_lt_one, rfl, hvalues.1, hvalues.2, r, hfixes, houtcome, hanswers⟩

end Monkey
