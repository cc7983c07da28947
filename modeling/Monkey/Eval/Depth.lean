import Monkey.Eval.Related

/-!
# Depth

The bound on how deep calls may be nested decides nothing but whether an evaluation
comes to an end. Main statement (`Program.eval_of_le`): an evaluation that keeps
within a bound ends in the same outcome and the same state under every greater
bound.
-/

namespace Monkey

namespace Eval

variable {α β : Type}

/-- `m'` ends as `m` does, wherever `m` has the depth for it. -/
def Refines (m m' : Eval α) : Prop :=
  ∀ s, (m.run s).1 ≠ .exhausted → m'.run s = m.run s

namespace Refines

theorem refl (m : Eval α) : Refines m m :=
  fun _ _ => rfl

/-- An evaluation that has not the depth is refined by any. -/
theorem exhaust (m : Eval α) : Refines exhaust m :=
  fun _ h => absurd rfl h

/-- What follows has its depth as well, unless the first part has not. -/
theorem bind {m m' : Eval α} {k k' : α → Eval β} (hm : Refines m m')
    (hk : ∀ a, Refines (k a) (k' a)) : Refines (m >>= k) (m' >>= k') := by
  intro s h
  rw [run_bind] at h
  have hs : (m.run s).1 ≠ .exhausted := by
    intro he
    rcases hr : m.run s with ⟨o, t⟩
    rw [hr] at h he
    subst he
    exact h rfl
  rw [run_bind, run_bind, hm s hs]
  rcases hr : m.run s with ⟨a | _ | _ | _, t⟩
  · rw [hr] at h
    exact hk a t h
  all_goals rfl

theorem catchReturn {m m' : Eval Value} (hm : Refines m m') :
    Refines (catchReturn m) (catchReturn m') := by
  intro s h
  have hs : (m.run s).1 ≠ .exhausted := by
    intro he
    refine h ?_
    rcases hr : m.run s with ⟨o, t⟩
    rw [hr] at he
    subst he
    simp [Eval.catchReturn, hr]
  simp only [Eval.catchReturn, hm s hs]

end Refines

end Eval

open Eval

/-- Where there is depth for an evaluation, it goes on as it does with the steps of another. -/
theorem Eval.Refines.related : Recorder.Related fun α (m m' : Eval α) => Refines m m' where
  pure _ := .refl _
  bind hm hk := hm.bind hk
  lift _ := .refl _
  note _ _ _ _ hm := hm
  catching hm := hm.catchReturn
  enter _ _ _ hbody := (Refines.refl _).bind fun scope => (Refines.refl _).bind fun _ =>
    hbody () () scope

/-- With more depth, a call that ends does so in the same way. -/
theorem Value.apply_refines {depth depth' : Nat} (h : depth ≤ depth') (f : Value)
    (vs : List Value) : Refines (Value.apply depth f vs) (Value.apply depth' f vs) := by
  induction depth generalizing depth' f vs with
  | zero =>
    cases f with
    | function id c =>
      by_cases hlength : c.params.length = vs.length
      · rw [apply_function_zero hlength]
        exact .exhaust _
      · rw [apply_function_of_ne hlength, apply_function_of_ne hlength]
        exact .refl _
    | _ => unfold apply evaluate; exact .refl _
  | succ depth ih =>
    obtain ⟨depth', rfl⟩ : ∃ n, depth' = n + 1 := ⟨depth' - 1, by omega⟩
    cases f with
    | function id c =>
      unfold apply evaluate
      split
      · exact .refl _
      · refine Refines.related.enter id c vs fun _ _ scope => .catchReturn ?_
        exact Stmt.evaluateFrom_related Refines.related (fun f vs => ih (by omega) f vs) .null
          c.body () () scope
    | _ => unfold apply evaluate; exact .refl _

/-- With more depth, an evaluation that ends keeps its outcome and its state. -/
theorem Program.eval_of_le {depth depth' : Nat} (h : depth ≤ depth') (p : Program)
    (scope : ScopeId) (s : State) (hs : ((p.eval depth scope).run s).1 ≠ .exhausted) :
    (p.eval depth' scope).run s = (p.eval depth scope).run s :=
  Refines.catchReturn
    (Stmt.evaluateFrom_related Refines.related (Value.apply_refines h) .null p () () scope) s hs

end Monkey
