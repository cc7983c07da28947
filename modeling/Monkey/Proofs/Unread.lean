import Monkey.Proofs.Alike

/-!
# Names that are not read

A name is read where it stands to be looked up, not where a `let` or a parameter binds it.
What a name is bound to, in whatever scope, makes no difference to a program that does not
read it, unless the program can get hold of a function that does
(`Program.eval_bind_unread`). This goes for the names of built-in functions as for others.
-/

namespace Monkey

open Eval State

/-- The state has what the other has, maybe more, and has printed the same. -/
structure State.Adds (s t : State) : Prop where
  untouched : Untouched s t
  outnumbered : Outnumbered s t
  printed : t.printed = s.printed

theorem State.Adds.refl (s : State) : s.Adds s :=
  ⟨.refl s, .refl s, rfl⟩

/-- If neither the program reads a name nor any function that can be reached from its scope,
    then the name may be bound before, in any scope and to any value, be it a new one: the
    program ends if it would have ended, in a value of the same text or the same error,
    prints the same, and leaves all other names in all scopes with values of the same
    texts. The scopes that there were before are the same, and those of the calls
    correspond. -/
theorem Program.eval_bind_unread {s t : State} (hs : s.Grounded) (hst : s.Adds t)
    {scope : ScopeId} (hscope : scope < s.scopes.size) {x : String} {p : Program}
    (hp : x ∉ p.reads) (hreach : s.All (Value.ReadsOnly (· ≠ x)) (.scope scope)) (inner : ScopeId)
    (v : Value) (depth : Nat) :
    let plain := (p.eval depth scope).run s
    let bound := (p.eval depth scope).run (t.bind inner x v)
    plain.1.LooksLike bound.1 ∧ bound.2.printed = plain.2.printed ∧
    ∃ r : Renaming, r.Fixes s ∧ ∀ i y, y ≠ x →
      (bound.2.own? (r.scope i) y).map Value.inspect = (plain.2.own? i y).map Value.inspect := by
  intro plain bound
  have hfixes := Renaming.past_fixes s t
  have halike : s.Alike (.past s t) (· ≠ x) s.printed t.printed (t.bind inner x v) :=
    (hs.alike hst.untouched hst.outnumbered (· ≠ x)).bind_right inner (fun hne => hne rfl) v
  have hsteps := Mirror.steps_alike (.past s t) (· ≠ x) s.printed t.printed s
  have hreads : ∀ y ∈ p.reads, y ≠ x := fun y hy heq => hp (heq ▸ hy)
  have hmirrors := p.eval_mirrors hsteps depth hreads hreach
  obtain ⟨⟨hend, -⟩, houtcome, -⟩ := hmirrors ⟨halike, .of_all _ s⟩
  have hscope' : (Mirror.alike (.past s t) (· ≠ x) s.printed t.printed s).rename.scope scope =
      scope := hfixes.scope hscope
  rw [hscope'] at hend houtcome
  refine ⟨?_, ?_, _, hfixes, fun i y hy => ?_⟩
  · exact houtcome ▸ plain.1.looksLike_rename _
  · obtain ⟨text, hplain, hbound⟩ := hend.printed
    exact hbound.trans (hst.printed ▸ hplain.symm)
  · rw [hend.own?_eq i hy, Option.map_map]
    congr 1
    funext w
    exact w.inspect_rename _

/-- A name that is bound before is that of a built-in function, of a parameter and of a
    `let`, and is not read. -/
theorem Program.eval_bind_unread_puts :
    let f : Closure := ⟨["puts"], [.expr (.array [])], 0⟩
    let s := (State.empty.newScope none).2.newId.2.bind 0 "f" (.function 0 f)
    let p : Program := [.bind "puts" (.call (.ident "f") [.int 1]), .expr (.ident "f")]
    s.Grounded ∧ s.Adds s ∧ 0 < s.scopes.size ∧ "puts" ∉ p.reads ∧
    s.All (Value.ReadsOnly (· ≠ "puts")) (.scope 0) ∧
    ((p.eval 1 0).run s).1.LooksLike ((p.eval 1 0).run (s.bind 0 "puts" (.str "text"))).1 := by
  intro f s p
  have hroot : ∀ i ∈ (none : Option ScopeId), i < 0 := fun _ h => nomatch h
  have hs : s.Grounded :=
    (Session.bind 0 "f" (.newId (.newScope none .start hroot)) (.function Nat.zero_lt_one)).grounded
  have hf : Value.Confined (Value.ReadsOnly (· ≠ "puts")) (fun _ => True) (.function 0 f) := by
    refine .function_of ?_ trivial
    rintro _ _ ⟨⟩
    decide
  have hclosed : State.Closed (Value.ReadsOnly (· ≠ "puts")) (fun _ => True)
      (State.empty.newScope none).2.newId.2 :=
    (State.Closed.empty.newScope fun _ _ => trivial).of_scopes_eq rfl
  have hreach : s.All (Value.ReadsOnly (· ≠ "puts")) (.scope 0) :=
    (hclosed.bind 0 "f" hf).all_scope trivial
  have hp : "puts" ∉ p.reads := by decide
  exact ⟨hs, .refl s, Nat.zero_lt_one, hp, hreach,
    (Program.eval_bind_unread hs (.refl s) Nat.zero_lt_one hp hreach 0 (.str "text") 1).1⟩

end Monkey
