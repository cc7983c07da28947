import Monkey.Proofs.Keeps

/-!
# The frame of evaluation

Scopes are shared by functions, calls and the scopes within them, yet an evaluation
changes the scope that it takes place in and no other that was there before:

* `Value.apply_untouched`: applying a value, a function of whatever scope, changes no
  scope that was there before;
* `Program.eval_frame`: evaluating a program changes no scope but its own, and there
  only what the names stand for that the program binds outside its functions.

Both hold however the evaluation ends, and from every state, whether or not it can
come about.
-/

namespace Monkey

open Eval

/-! ## Scopes -/

/-- The scope has become `sc'`, bound other names and bound names with the property
    `B` anew. -/
structure Scope.Grown (B : String → Prop) (sc sc' : Scope) : Prop where
  outer : sc'.outer = sc.outer
  keys_subset : Assoc.keys sc.bindings ⊆ Assoc.keys sc'.bindings
  get?_eq {x : String} : ¬B x → Assoc.get? x sc'.bindings = Assoc.get? x sc.bindings

namespace Scope.Grown

variable {B : String → Prop} {sc sc' sc'' : Scope}

theorem refl (B : String → Prop) (sc : Scope) : Grown B sc sc :=
  ⟨rfl, fun _ h => h, fun _ => rfl⟩

theorem trans (h : Grown B sc sc') (h' : Grown B sc' sc'') : Grown B sc sc'' where
  outer := h'.outer.trans h.outer
  keys_subset := List.Subset.trans h.keys_subset h'.keys_subset
  get?_eq hx := (h'.get?_eq hx).trans (h.get?_eq hx)

/-- Binding a name is growing, if it is one that may be bound anew. -/
theorem put (sc : Scope) {x : String} (hx : B x) (v : Value) :
    Grown B sc { sc with bindings := Assoc.put x v sc.bindings } where
  outer := rfl
  keys_subset := by
    rw [Assoc.keys_put]
    split
    · exact fun _ h => h
    · exact List.subset_append_left _ _
  get?_eq {y} hy := Assoc.get?_put_of_ne (fun h : y = x => hy (h ▸ hx)) v sc.bindings

end Scope.Grown

/-! ## States -/

namespace State

/-- The scopes that there were are as they were. -/
structure Untouched (s t : State) : Prop where
  size_le : s.scopes.size ≤ t.scopes.size
  scopes_eq {i : ScopeId} : i < s.scopes.size → t.scopes[i]? = s.scopes[i]?

/-- Of the scopes that there were, only `scope` may have changed, in what names with the
    property `B` stand for. -/
structure Frame (scope : ScopeId) (B : String → Prop) (s t : State) : Prop where
  size_le : s.scopes.size ≤ t.scopes.size
  scopes_eq {i : ScopeId} : i < s.scopes.size → i ≠ scope → t.scopes[i]? = s.scopes[i]?
  grown {sc : Scope} : s.scopes[scope]? = some sc →
    ∃ sc', t.scopes[scope]? = some sc' ∧ sc.Grown B sc'

namespace Untouched

variable {s t u : State}

theorem refl (s : State) : Untouched s s :=
  ⟨Nat.le_refl _, fun _ => rfl⟩

theorem of_scopes_eq (h : t.scopes = s.scopes) : Untouched s t :=
  ⟨Nat.le_of_eq (congrArg Array.size h.symm), fun _ => by rw [h]⟩

theorem trans (h : Untouched s t) (h' : Untouched t u) : Untouched s u where
  size_le := Nat.le_trans h.size_le h'.size_le
  scopes_eq hi := by
    rw [h'.scopes_eq (Nat.lt_of_lt_of_le hi h.size_le), h.scopes_eq hi]

/-- A new scope touches none that there were. -/
theorem newScope (s : State) (outer : Option ScopeId) : Untouched s (s.newScope outer).2 where
  size_le := by simp
  scopes_eq hi := s.scopes_newScope_of_ne outer (Nat.ne_of_lt hi)

/-- What is bound in a new scope touches none that there were. -/
theorem bind (h : Untouched s t) {scope : ScopeId} (hscope : s.scopes.size ≤ scope) (x : String)
    (v : Value) : Untouched s (t.bind scope x v) where
  size_le := by
    rw [size_scopes_bind]
    exact h.size_le
  scopes_eq hi := by
    rw [scopes_bind_of_ne _ _ _ _ (Nat.ne_of_lt (Nat.lt_of_lt_of_le hi hscope)), h.scopes_eq hi]

theorem bindAll (h : Untouched s t) {scope : ScopeId} (hscope : s.scopes.size ≤ scope)
    (xs : List String) (vs : List Value) : Untouched s (t.bindAll scope xs vs) := by
  induction xs generalizing t vs with
  | nil => exact h
  | cons x xs ih =>
    cases vs with
    | nil => exact h
    | cons v vs => exact ih (h.bind hscope x v) vs

/-- Entering a call touches no scope that there was. -/
theorem enter (s : State) (c : Closure) (args : List Value) : Untouched s (s.enter c args) :=
  (newScope s (some c.scope)).bindAll (Nat.le_refl _) c.params args

end Untouched

namespace Frame

variable {scope : ScopeId} {B : String → Prop} {s t u : State}

theorem refl (scope : ScopeId) (B : String → Prop) (s : State) : Frame scope B s s :=
  ⟨Nat.le_refl _, fun _ _ => rfl, fun {sc} h => ⟨sc, h, .refl B sc⟩⟩

theorem trans (h : Frame scope B s t) (h' : Frame scope B t u) : Frame scope B s u where
  size_le := Nat.le_trans h.size_le h'.size_le
  scopes_eq hi hne := by
    rw [h'.scopes_eq (Nat.lt_of_lt_of_le hi h.size_le) hne, h.scopes_eq hi hne]
  grown hsc := by
    -- The scope may have changed on both ways.
    obtain ⟨sc', hsc', hgrown⟩ := h.grown hsc
    obtain ⟨sc'', hsc'', hgrown'⟩ := h'.grown hsc'
    exact ⟨sc'', hsc'', hgrown.trans hgrown'⟩

/-- Where nothing is touched, nothing has changed outside the scope or in it. -/
theorem of_untouched (h : Untouched s t) : Frame scope B s t where
  size_le := h.size_le
  scopes_eq hi _ := h.scopes_eq hi
  grown {sc} hsc := by
    have hi := (Array.getElem?_eq_some_iff.1 hsc).1
    exact ⟨sc, (h.scopes_eq hi).trans hsc, .refl B sc⟩

/-- Binding a name changes only the scope and what the name stands for. -/
theorem bind (s : State) (scope : ScopeId) {x : String} (hx : B x) (v : Value) :
    Frame scope B s (s.bind scope x v) where
  size_le := by simp
  scopes_eq _ hne := scopes_bind_of_ne _ _ _ _ hne
  grown {sc} hsc := by
    refine ⟨_, ?_, .put sc hx v⟩
    rw [scopes_bind_self, hsc, Option.map_some]

end Frame

end State

/-! ## Evaluation -/

open State

/-- Evaluation in a scope changes no other, given that applying values changes none. -/
theorem State.Frame.keeping {apply : Value → List Value → Eval Value}
    (happly : ∀ f args s, Untouched s ((apply f args).run s).2) (scope : ScopeId)
    (B : String → Prop) (s : State) :
    Keeping (Frame scope B s) (fun _ => True) B apply scope where
  inherited := Value.inherited_true
  function _ _ _ := trivial
  lookup _ _ := trivial
  bind {t _ v} h hx _ := h.trans (.bind t scope hx v)
  newId _ h := h.trans (.of_untouched (.of_scopes_eq rfl))
  apply {f args} _ _ t h :=
    ⟨h.trans (.of_untouched (happly f args t)),
      .of_forall (fun _ => trivial) fun _ => trivial⟩

/-- Applying a value changes no scope that there was. -/
theorem Value.run_apply_untouched (depth : Nat) (f : Value) (args : List Value) (s : State) :
    Untouched s ((f.apply depth args).run s).2 := by
  induction depth using Nat.strongRecOn generalizing f args s with
  | _ depth ih =>
    have hkeeps : Keeps (Untouched s) (fun _ => True) (fun _ => True) (f.apply depth args) := by
      refine Value.apply_keeps Value.inherited_true ?_ ?_ trivial (fun _ _ => trivial) ?_
      · exact fun _ h => h.trans (.of_scopes_eq rfl)
      · exact fun _ _ h => h.trans (.of_scopes_eq rfl)
      · rintro n id c rfl - - t h
        -- The body is evaluated in a scope that there was not, so that the others are
        -- all among those that stay as they are.
        have hkeeping := State.Frame.keeping (ih n (Nat.lt_succ_self n)) t.scopes.size
          (fun _ => True) (t.enter c args)
        obtain ⟨hframe, hholds⟩ := Block.eval_keeps hkeeping c.body (fun _ _ => trivial)
          (.refl t.scopes.size _ (t.enter c args))
        have henter := Untouched.enter t c args
        refine ⟨h.trans ⟨Nat.le_trans henter.size_le hframe.size_le, fun hi => ?_⟩, hholds⟩
        rw [hframe.scopes_eq (Nat.lt_of_lt_of_le hi henter.size_le) (Nat.ne_of_lt hi),
          henter.scopes_eq hi]
    exact (hkeeps (.refl s)).1

/-- A program changes no scope but the one that it is evaluated in, which stays within
    the same scope, loses no names, and keeps what all names stand for that the program
    does not bind outside its functions. The scopes that there were when a value is
    applied are not changed by this at all. -/
theorem Program.eval_frame (depth : Nat) (s : State) :
    (∀ (p : Program) (scope : ScopeId),
      State.Frame scope (· ∈ p.targets) s ((p.eval depth scope).run s).2) ∧
    ∀ (f : Value) (args : List Value), State.Untouched s ((f.apply depth args).run s).2 := by
  refine ⟨fun p scope => ?_, fun f args => f.run_apply_untouched depth args s⟩
  have hkeeping := State.Frame.keeping (Value.run_apply_untouched depth) scope (· ∈ p.targets) s
  exact (Program.eval_keeps hkeeping p (fun _ hx => hx) (.refl scope _ s)).1

end Monkey
