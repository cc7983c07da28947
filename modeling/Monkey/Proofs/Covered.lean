import Mathlib.Data.List.Permutation
import Monkey.Proofs.Frame
import Monkey.Proofs.Growth
import Monkey.Proofs.Reach

/-!
# Scope soundness

A function is *covered* (`State.Covers`) if every name in its body stands for something
where it was created, the parameters of the function and of the literals in it apart. If the
names in a program stand for something where it is evaluated and all functions that it can
get hold of are covered, then the evaluation comes across no name that nothing is bound to,
and what can be reached afterwards is covered again (`Program.eval_covered`).

It rests on two things. Scopes lose no names (`State.Retains`), so what a name stands for
may change, but not that it stands for something. And the scope of a call lies within the
one that the function was created in.
-/

namespace Monkey

open Eval

namespace State

/-! ## Names that stay bound -/

/-- All scopes are there still, with all their names. -/
def Retains (s t : State) : Prop :=
  ∀ ⦃i : ScopeId⦄ ⦃sc : Scope⦄, s.scopes[i]? = some sc →
    ∃ sc', t.scopes[i]? = some sc' ∧ sc.Grown (fun _ => True) sc'

namespace Retains

variable {s t u : State}

theorem refl (s : State) : Retains s s :=
  fun _ sc hsc => ⟨sc, hsc, .refl _ sc⟩

theorem trans (h : Retains s t) (h' : Retains t u) : Retains s u := by
  intro i sc hsc
  obtain ⟨sc', hsc', hgrown⟩ := h hsc
  obtain ⟨sc'', hsc'', hgrown'⟩ := h' hsc'
  exact ⟨sc'', hsc'', hgrown.trans hgrown'⟩

/-- Where bindings are only added or replaced, no name is lost. -/
theorem of_frame {scope : ScopeId} (h : Frame scope (fun _ => True) s t) : Retains s t := by
  intro i sc hsc
  by_cases hne : i = scope
  · subst hne
    exact h.grown hsc
  · have hi := (Array.getElem?_eq_some_iff.1 hsc).1
    exact ⟨sc, (h.scopes_eq hi hne).trans hsc, .refl _ sc⟩

/-- Where all scopes are as before, no name is lost. -/
theorem of_untouched (h : Untouched s t) : Retains s t := by
  have hframe : Frame 0 (fun _ => True) s t := .of_untouched h
  exact .of_frame hframe

theorem of_scopes_eq (h : t.scopes = s.scopes) : Retains s t :=
  .of_untouched (.of_scopes_eq h)

theorem newId (s : State) : Retains s s.newId.2 :=
  .of_scopes_eq rfl

/-- A name that is bound in a chain of scopes stays bound in it. -/
theorem get?_isSome (h : Retains s t) {scope : ScopeId} {x : String}
    (hx : (s.get? scope x).isSome) : (t.get? scope x).isSome := by
  induction scope using Nat.strongRecOn with
  | _ scope ih =>
    rw [State.get?] at hx ⊢
    cases hsc : s.scopes[scope]? with
    | none =>
      rw [hsc] at hx
      cases hx
    | some sc =>
      obtain ⟨sc', hsc', hgrown⟩ := h hsc
      simp only [hsc, hsc', hgrown.outer] at hx ⊢
      cases hv' : Assoc.get? x sc'.bindings with
      | some v => rfl
      | none =>
        -- The scope binds the name neither now nor before, so one around it does.
        have hv : Assoc.get? x sc.bindings = none := by
          rw [← Option.not_isSome_iff_eq_none, Assoc.get?_isSome_iff]
          intro hmem
          have hsome := (Assoc.get?_isSome_iff x sc'.bindings).2 (hgrown.keys_subset hmem)
          rw [hv'] at hsome
          cases hsome
        rw [hv] at hx
        cases ho : sc.outer with
        | none =>
          rw [ho] at hx
          cases hx
        | some outer =>
          simp only [ho] at hx ⊢
          split at hx
          · next hlt => exact if_pos hlt ▸ ih outer hlt hx
          · cases hx

end Retains

/-! ## Covered functions -/

/-- The name stands for something in the scope. -/
def Binds (s : State) (scope : ScopeId) (x : String) : Prop :=
  (s.get? scope x).isSome ∨ (Builtin.ofName? x).isSome

/-- The value is no function, or one in the body of which every name stands for something
    that is no parameter of the function or of a literal around the name. -/
def Covers (s : State) (v : Value) : Prop :=
  ∀ id c, v = .function id c → ∀ x ∈ Expr.free (.function c.params c.body), s.Binds c.scope x

variable {s t : State}

/-- What stands for something does so in every later state. -/
theorem Binds.mono (h : Retains s t) {scope : ScopeId} {x : String} (hx : s.Binds scope x) :
    t.Binds scope x :=
  hx.imp h.get?_isSome id

theorem Covers.mono (h : Retains s t) {v : Value} (hv : s.Covers v) : t.Covers v :=
  fun id c hc x hx => (hv id c hc x hx).mono h

/-- In the scope of a call a name stands for something if it does where the function was
    created, or is a parameter. -/
theorem Binds.enter {c : Closure} {args : List Value} (hlength : c.params.length = args.length)
    {x : String} (hx : x ∉ c.params → s.Binds c.scope x) :
    (s.enter c args).Binds s.scopes.size x := by
  obtain ⟨sc, hsc, houter, hnames⟩ := s.scopes_enter_self hlength
  rw [Binds, State.get?]
  simp only [hsc, houter]
  cases hv : Assoc.get? x sc.bindings with
  | some v => exact .inl rfl
  | none =>
    have hparam : x ∉ c.params := fun hmem => by
      have hsome := (Assoc.get?_isSome_iff x sc.bindings).2 ((hnames x).2 hmem)
      rw [hv] at hsome
      cases hsome
    have hretains := Retains.of_untouched (.enter s c args)
    refine (hx hparam).imp (fun hsome => ?_) id
    simp only [if_pos (lt_size_of_get? hsome)]
    exact hretains.get?_isSome hsome

/-- Functions are covered if the scopes are the same. -/
theorem Closed.covers_of_scopes_eq {C : ScopeId → Prop} (hs : s.Closed s.Covers C)
    (heq : t.scopes = s.scopes) : t.Closed t.Covers C :=
  (hs.of_scopes_eq heq).mono fun _ => Covers.mono (.of_scopes_eq heq)

/-- Elements and entries of what is covered are, as they are no functions or covered ones. -/
theorem inherited_covers (s : State) (C : ScopeId → Prop) :
    Value.Inherited (Value.Confined s.Covers C) :=
  Value.Confined.inherited_of_ne_function fun _ hv id c hc => absurd hc (hv id c)

end State

open State

/-- Evaluation in scopes from which only covered functions can be reached comes across no
    others, and no names that stand for nothing. -/
def Growth.covered (C : ScopeId → Prop) : Growth where
  le := Retains
  states s := s.Closed s.Covers C
  values s := Value.Confined s.Covers C
  scopes _ := C
  names := Binds
  errors e := e.unbound? = none
  refl := .refl
  trans := .trans
  values_mono hst hv := hv.mono fun _ => Covers.mono hst
  scopes_mono _ hscope := hscope
  names_mono hst hx := hx.mono hst
  hereditary s := (inherited_covers s C).toHereditary
  lookup hs hscope hv := hs.get? hscope hv
  unbound {s scope x} hx hnone hbuiltin := by
    rw [Binds, hnone, hbuiltin] at hx
    exact absurd hx (by simp)
  others he := he
  bind {s scope x v} hs _ hv := by
    have hretains : Retains s (s.bind scope x v) := .of_frame (.bind s scope trivial v)
    exact ⟨hretains, (hs.bind scope x hv).mono fun _ => Covers.mono hretains⟩
  newId hs := ⟨.of_scopes_eq rfl, hs.covers_of_scopes_eq rfl⟩
  array {s _} _ hvs := ((inherited_covers s C).array_of hvs).mono fun _ => Covers.mono (.newId s)
  hash {s _} _ hes := ((inherited_covers s C).hash_of hes).mono fun _ => Covers.mono (.newId s)
  function {s _ _ _} _ hscope hfree := by
    refine .function_of ?_ hscope
    rintro _ _ ⟨⟩ x hx
    exact (hfree x hx).mono (.newId s)
  print text hs := ⟨.of_scopes_eq rfl, hs.covers_of_scopes_eq rfl⟩
  enter {s _ c args} hs hf hargs _ := by
    have hretains : Retains s (s.enter c args) := .of_untouched (.enter s c args)
    exact ⟨hretains, (hs.enter (hf.refers .closure) hargs).mono fun _ => Covers.mono hretains⟩
  body {s _ c args} hs hf hlength := by
    refine ⟨hs.new (Nat.le_refl _), fun x hx => .enter hlength fun hparam => ?_⟩
    exact hf.prop _ _ rfl x (List.mem_filter.2 ⟨hx, by simpa using hparam⟩)

/-- A program whose names stand for something, the parameters of literals around them apart,
    fails for no name that nothing is bound to, if only covered functions can be reached from
    its scope. Afterwards again only covered functions can be reached, from the scope and
    every other that this was true of or that is new, and from the value or those that an
    error carries. -/
theorem Program.eval_covered {s : State} {scope : ScopeId} {p : Program}
    (hp : ∀ x ∈ p.free, s.Binds scope x) (hreach : s.All s.Covers (.scope scope)) (depth : Nat) :
    let r := (p.eval depth scope).run s
    (∀ x, r.1 ≠ .failed (.unbound x)) ∧
    (∀ i, s.All s.Covers (.scope i) → r.2.All r.2.Covers (.scope i)) ∧
    ∀ v, r.1.Gives v → r.2.All r.2.Covers (.value v) := by
  intro r
  have hgrows := p.eval_grows (.covered fun i => s.All s.Covers (.scope i)) depth hreach hp
  obtain ⟨-, hclosed, hholds, herrors⟩ := hgrows (.refl s) (.of_all s.Covers s)
  refine ⟨fun x hx => ?_, fun i hi => hclosed.all_scope hi, fun v hv => ?_⟩
  · have hnone : r.1.FailsOnly fun e => e.unbound? = none := herrors
    rw [hx] at hnone
    cases hnone
  · have hvalue : r.1.Holds (Value.Confined r.2.Covers fun i => s.All s.Covers (.scope i))
        (Value.Confined r.2.Covers fun i => s.All s.Covers (.scope i)) := hholds
    exact hclosed.all_value (hvalue.of_gives hv)

/-- A function calls itself and a built-in function, by names that are no parameters. -/
theorem Program.eval_covered_recursive :
    let f : Closure := ⟨["more"], [.expr (.call (.ident "puts") [.ident "more"]),
      .expr (.cond (.ident "more") [.expr (.call (.ident "f") [.bool false])] none)], 0⟩
    let s := (State.empty.newScope none).2.newId.2.bind 0 "f" (.function 0 f)
    let p : Program := [.expr (.call (.ident "f") [.bool true])]
    (∀ x ∈ p.free, s.Binds 0 x) ∧ s.All s.Covers (.scope 0) ∧
    ((p.eval 2 0).run s).2.printed = "true\nfalse\n" ∧
    ∀ x, ((p.eval 2 0).run s).1 ≠ .failed (.unbound x) := by
  intro f s p
  have hbinds : s.Binds 0 "f" := .inl (by cbv)
  have hp : ∀ x ∈ p.free, s.Binds 0 x := by
    have hfree : p.free = ["f"] := by decide
    rw [hfree]
    exact List.forall_mem_singleton.2 hbinds
  have hf : Value.Confined s.Covers (fun _ => True) (.function 0 f) := by
    refine .function_of ?_ trivial
    rintro _ _ ⟨⟩
    have hfree : Expr.free (.function f.params f.body) = ["puts", "f"] := by decide
    rw [hfree]
    exact List.forall_mem_cons.2 ⟨.inr (by decide), List.forall_mem_singleton.2 hbinds⟩
  have hclosed : State.Closed s.Covers (fun _ => True) (State.empty.newScope none).2.newId.2 :=
    (State.Closed.empty.newScope fun _ _ => trivial).of_scopes_eq rfl
  have hreach : s.All s.Covers (.scope 0) := (hclosed.bind 0 "f" hf).all_scope trivial
  exact ⟨hp, hreach, by cbv, (Program.eval_covered hp hreach 2).1⟩

end Monkey
