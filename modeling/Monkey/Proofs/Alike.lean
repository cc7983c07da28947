import Monkey.Proofs.Frame
import Monkey.Proofs.Grounded
import Monkey.Proofs.Mirror

/-!
# States that are alike

Two states are *alike* (`State.Alike`) if they are one state up to a renaming of numbers, as
far as anyone sees who looks up only certain names. What the other names are bound to may
differ, and one of the states may have more scopes, arrays, hashes and functions besides.

What is done to both of two states that are alike leaves states that are, so evaluations
from them mirror each other, as long as they come across no function that looks up another
name (`Mirror.steps_alike`).
-/

namespace Monkey

open Eval

/-! ## Scopes -/

/-- The scopes bind names with the property `D` to the same, renamed. -/
structure Scope.Alike (r : Renaming) (D : String → Prop) (sc sc' : Scope) : Prop where
  outer : sc'.outer = sc.outer.map r.scope
  get? {x : String} : D x →
    Assoc.get? x sc'.bindings = (Assoc.get? x sc.bindings).map (Value.rename r)

namespace Scope.Alike

variable {r : Renaming} {D : String → Prop} {sc sc' : Scope}

theorem put (h : sc.Alike r D sc') (x : String) (v : Value) :
    Alike r D { sc with bindings := Assoc.put x v sc.bindings }
      { sc' with bindings := Assoc.put x (v.rename r) sc'.bindings } where
  outer := h.outer
  get? {y} hy := by
    by_cases hne : y = x
    · subst hne
      simp only [Assoc.get?_put_self, Option.map_some]
    · simp only [Assoc.get?_put_of_ne hne, h.get? hy]

/-- Nobody sees what is bound to a name without the property. -/
theorem put_right (h : sc.Alike r D sc') {x : String} (hx : ¬D x) (v : Value) :
    Alike r D sc { sc' with bindings := Assoc.put x v sc'.bindings } where
  outer := h.outer
  get? {y} hy := by
    have hne : y ≠ x := fun heq => hx (heq ▸ hy)
    simp only [Assoc.get?_put_of_ne hne, h.get? hy]

end Scope.Alike

/-! ## States -/

/-- The states have corresponding scopes, what is created next has corresponding numbers,
    and they have printed the same since one had printed `out` and the other `out'`. -/
structure State.Alike (r : Renaming) (D : String → Prop) (out out' : String) (s t : State) :
    Prop where
  size (n : Nat) : r.scope (s.scopes.size + n) = t.scopes.size + n
  nextId (n : Nat) : r.object (s.nextId + n) = t.nextId + n
  printed : ∃ text, s.printed = out ++ text ∧ t.printed = out' ++ text
  scopes {i : ScopeId} {sc : Scope} : s.scopes[i]? = some sc →
    ∃ sc', t.scopes[r.scope i]? = some sc' ∧ sc.Alike r D sc'

namespace State

/-- What a name is bound to in a scope itself. -/
def own? (s : State) (scope : ScopeId) (x : String) : Option Value :=
  s.scopes[scope]?.bind fun sc => Assoc.get? x sc.bindings

namespace Alike

variable {r : Renaming} {D : String → Prop} {out out' : String} {s t : State}

/-- A scope that is not there corresponds to one that is not there either. -/
theorem scopes_eq_none (h : s.Alike r D out out' t) {i : ScopeId} (hi : s.scopes[i]? = none) :
    t.scopes[r.scope i]? = none := by
  obtain ⟨n, rfl⟩ := Nat.exists_eq_add_of_le (Array.getElem?_eq_none_iff.1 hi)
  rw [h.size]
  exact Array.getElem?_eq_none (Nat.le_add_right _ _)

/-- A name with the property is bound to the same value in both states, up to numbers. -/
theorem own?_eq (h : s.Alike r D out out' t) (i : ScopeId) {x : String} (hx : D x) :
    t.own? (r.scope i) x = (s.own? i x).map (Value.rename r) := by
  cases hsc : s.scopes[i]? with
  | none => rw [own?, own?, hsc, h.scopes_eq_none hsc]; rfl
  | some sc =>
    obtain ⟨sc', hsc', halike⟩ := h.scopes hsc
    rw [own?, own?, hsc, hsc']
    exact halike.get? hx

/-- A name with the property stands for the same value in both states, up to numbers. -/
theorem get?_eq (h : s.Alike r D out out' t) (scope : ScopeId) {x : String} (hx : D x) :
    t.get? (r.scope scope) x = (s.get? scope x).map (Value.rename r) := by
  induction scope using Nat.strongRecOn with
  | _ scope ih =>
    rw [State.get?.eq_def t, State.get?.eq_def s]
    cases hsc : s.scopes[scope]? with
    | none => rw [h.scopes_eq_none hsc]; rfl
    | some sc =>
      obtain ⟨sc', hsc', halike⟩ := h.scopes hsc
      simp only [hsc', halike.get? hx, halike.outer]
      cases Assoc.get? x sc.bindings with
      | some v => rfl
      | none =>
        cases sc.outer with
        | none => rfl
        | some outer =>
          -- The scopes around correspond and are earlier in both states, or in neither.
          simp only [Option.map_none, Option.map_some, r.scope_strictMono.lt_iff_lt]
          split
          · next hlt => exact ih outer hlt
          · rfl

theorem newId (h : s.Alike r D out out' t) : s.newId.2.Alike r D out out' t.newId.2 where
  size := h.size
  nextId n := by
    simp only [State.newId, Nat.add_assoc]
    exact h.nextId (1 + n)
  printed := h.printed
  scopes := h.scopes

theorem print (h : s.Alike r D out out' t) (text : String) :
    (s.print text).Alike r D out out' (t.print text) where
  size := h.size
  nextId := h.nextId
  printed := by
    obtain ⟨before, hs, ht⟩ := h.printed
    exact ⟨before ++ text, by simp only [State.print, hs, String.append_assoc],
      by simp only [State.print, ht, String.append_assoc]⟩
  scopes := h.scopes

/-- A name is bound to the same value in both states, whatever name it is. -/
theorem bind (h : s.Alike r D out out' t) (scope : ScopeId) (x : String) (v : Value) :
    (s.bind scope x v).Alike r D out out' (t.bind (r.scope scope) x (v.rename r)) where
  size := by simpa only [size_scopes_bind] using h.size
  nextId := h.nextId
  printed := h.printed
  scopes {i sc} hsc := by
    by_cases hne : i = scope
    · subst hne
      rw [scopes_bind_self, Option.map_eq_some_iff] at hsc
      obtain ⟨sc, hsc, rfl⟩ := hsc
      obtain ⟨sc', hsc', halike⟩ := h.scopes hsc
      refine ⟨_, ?_, halike.put x v⟩
      rw [scopes_bind_self, hsc', Option.map_some]
    · rw [scopes_bind_of_ne _ _ _ _ hne] at hsc
      rw [scopes_bind_of_ne _ _ _ _ (r.scope_strictMono.injective.ne hne)]
      exact h.scopes hsc

/-- A name is bound in one of the states that nobody looks up. -/
theorem bind_right (h : s.Alike r D out out' t) (scope : ScopeId) {x : String} (hx : ¬D x)
    (v : Value) : s.Alike r D out out' (t.bind scope x v) where
  size := by simpa only [size_scopes_bind] using h.size
  nextId := h.nextId
  printed := h.printed
  scopes {i sc} hsc := by
    obtain ⟨sc', hsc', halike⟩ := h.scopes hsc
    by_cases hne : r.scope i = scope
    · subst hne
      refine ⟨_, ?_, halike.put_right hx v⟩
      rw [scopes_bind_self, hsc', Option.map_some]
    · exact ⟨sc', (t.scopes_bind_of_ne _ _ _ hne).trans hsc', halike⟩

/-- New scopes are created in both states, within scopes that correspond to each other. -/
theorem newScope (h : s.Alike r D out out' t) (outer : Option ScopeId) :
    (s.newScope outer).2.Alike r D out out' (t.newScope (outer.map r.scope)).2 where
  size n := by
    simp only [size_scopes_newScope, Nat.add_assoc]
    exact h.size (1 + n)
  nextId := h.nextId
  printed := h.printed
  scopes {i sc} hsc := by
    have hsize : r.scope s.scopes.size = t.scopes.size := h.size 0
    by_cases hne : i = s.scopes.size
    · subst hne
      rw [scopes_newScope_self] at hsc
      obtain rfl := Option.some.inj hsc
      rw [hsize, scopes_newScope_self]
      exact ⟨_, rfl, rfl, fun _ => rfl⟩
    · rw [scopes_newScope_of_ne _ _ hne] at hsc
      rw [scopes_newScope_of_ne]
      · exact h.scopes hsc
      · rw [← hsize]
        exact r.scope_strictMono.injective.ne hne

theorem bindAll (h : s.Alike r D out out' t) (scope : ScopeId) (xs : List String)
    (vs : List Value) :
    (s.bindAll scope xs vs).Alike r D out out'
      (t.bindAll (r.scope scope) xs (vs.map (Value.rename r))) := by
  induction xs generalizing s t vs with
  | nil => exact h
  | cons x xs ih =>
    cases vs with
    | nil => exact h
    | cons v vs => exact ih (h.bind scope x v) vs

/-- The same call is entered in both states. -/
theorem enter (h : s.Alike r D out out' t) (c : Closure) (args : List Value) :
    (s.enter c args).Alike r D out out' (t.enter (c.rename r) (args.map (Value.rename r))) := by
  have hsize : r.scope s.scopes.size = t.scopes.size := h.size 0
  have hbind := (h.newScope (some c.scope)).bindAll s.scopes.size c.params args
  rwa [hsize] at hbind

end Alike

end State

/-! ## Later states -/

/-- What there is in the first state keeps its number, and what is created next is numbered
    as in the second. -/
def Renaming.past (s t : State) : Renaming :=
  .shift s.scopes.size (t.scopes.size - s.scopes.size) s.nextId (t.nextId - s.nextId)

/-- The numbers that have been given out are not changed. -/
theorem Renaming.past_fixes (s t : State) : (past s t).Fixes s :=
  ⟨fun hi => if_pos hi, fun hid => if_pos hid⟩

/-- A grounded state is like each that has only been added to. -/
theorem State.Grounded.alike {s t : State} (hs : s.Grounded) (hscopes : Untouched s t)
    (hnumbers : Outnumbered s t) (D : String → Prop) :
    s.Alike (.past s t) D s.printed t.printed t where
  size n := by
    rw [Renaming.past, Renaming.shift_scope_of_le (Nat.le_add_right _ n), Nat.add_right_comm,
      Nat.add_sub_of_le hnumbers.scopes]
  nextId n := by
    rw [Renaming.past, Renaming.shift_object_of_le (Nat.le_add_right _ n), Nat.add_right_comm,
      Nat.add_sub_of_le hnumbers.objects]
  printed := ⟨"", by simp, by simp⟩
  scopes {i sc} hsc := by
    have hfixes := Renaming.past_fixes s t
    have hi : i < s.scopes.size := (Array.getElem?_eq_some_iff.1 hsc).1
    refine ⟨sc, by rw [hfixes.scope hi, hscopes.scopes_eq hi, hsc], ?_, fun {x} _ => ?_⟩
    · cases ho : sc.outer with
      | none => rfl
      | some outer =>
        have hlt := Nat.lt_trans (hs.outer hsc ho) hi
        rw [Option.map_some, hfixes.scope hlt]
    · cases hv : Assoc.get? x sc.bindings with
      | none => rfl
      | some v =>
        have howns := hs.binding hsc (Assoc.mem_of_get? hv)
        rw [Option.map_some, howns.rename_eq hfixes]

/-! ## Evaluations -/

/-- The value is no function, or one whose body looks up only names with the property. -/
def Value.ReadsOnly (D : String → Prop) (v : Value) : Prop :=
  ∀ id c, v = .function id c → ∀ x ∈ Stmt.readsList c.body, D x

/-- Runs from states that are alike, in scopes from which only functions could be reached in
    `s₀` that look up names with the property. -/
def Mirror.alike (r : Renaming) (D : String → Prop) (out out' : String) (s₀ : State) : Mirror where
  rename := r
  states s t := s.Alike r D out out' t ∧
    s.Closed (Value.ReadsOnly D) fun i => s₀.All (Value.ReadsOnly D) (.scope i)
  values := Value.Confined (Value.ReadsOnly D) fun i => s₀.All (Value.ReadsOnly D) (.scope i)

/-- States that are alike stay so in every step, where only names with the property are looked
    up. -/
theorem Mirror.steps_alike (r : Renaming) (D : String → Prop) (out out' : String) (s₀ : State) :
    (Mirror.alike r D out out' s₀).Steps (fun i => s₀.All (Value.ReadsOnly D) (.scope i)) D where
  inherited := Value.Confined.inherited_of_ne_function fun _ hv id c hc => absurd hc (hv id c)
  function hscope hbody := by
    refine Value.Confined.function_of ?_ hscope
    rintro _ _ ⟨⟩
    exact hbody
  body hf := hf.prop _ _ rfl
  get?_eq hst _ hx := hst.1.get?_eq _ hx
  get? hst hscope _ hv := hst.2.get? hscope hv
  bind hst _ hv := ⟨hst.1.bind _ _ _, hst.2.bind _ _ hv⟩
  newId hst := ⟨(hst.1.nextId 0).symm, hst.1.newId, hst.2.of_scopes_eq rfl⟩
  print hst := ⟨hst.1.print _, hst.2.of_scopes_eq rfl⟩
  scope hst := ⟨hst.2.new (Nat.le_refl _), (hst.1.size 0).symm⟩
  enter hst hf hargs := ⟨hst.1.enter _ _, hst.2.enter (hf.refers .closure) hargs⟩

/-! ## What is seen of an outcome -/

/-- What is done to an error is done to each of its values. -/
theorem EvalError.values_map (f : Value → Value) (e : EvalError) :
    (e.map f).values = e.values.map f := by
  cases e <;> rfl

/-- The errors are the same but for the values that they carry, and these have the same texts. -/
structure EvalError.LooksLike (e e' : EvalError) : Prop where
  same : (e.map fun _ => .null) = e'.map fun _ => .null
  message : e.message = e'.message
  inspect : e.values.map Value.inspect = e'.values.map Value.inspect

namespace EvalError.LooksLike

theorem refl (e : EvalError) : e.LooksLike e :=
  ⟨rfl, rfl, rfl⟩

/-- A renamed error looks as before. -/
theorem rename (r : Renaming) (e : EvalError) : e.LooksLike (e.map (Value.rename r)) where
  same := (e.map_map (Value.rename r) fun _ => .null).symm
  message := (e.message_map (Value.kind_rename r)).symm
  inspect := by
    rw [values_map, List.map_map]
    exact List.map_congr_left fun v _ => (v.inspect_rename r).symm

end EvalError.LooksLike

/-- The outcomes are of one kind, with values of one text or errors that look alike. -/
def Outcome.LooksLike : Outcome Value → Outcome Value → Prop
  | value v, value w | returned v, returned w => v.inspect = w.inspect
  | failed e, failed e' => e.LooksLike e'
  | exhausted, exhausted => True
  | _, _ => False

@[refl]
theorem Outcome.LooksLike.refl (o : Outcome Value) : o.LooksLike o := by
  cases o with
  | value v | returned v => rfl
  | failed e => exact EvalError.LooksLike.refl e
  | exhausted => trivial

/-- An outcome looks like the one with other numbers. -/
theorem Outcome.looksLike_rename (r : Renaming) (o : Outcome Value) : o.LooksLike (o.rename r) := by
  cases o with
  | value v | returned v => exact (v.inspect_rename r).symm
  | failed e => exact .rename r e
  | exhausted => trivial

end Monkey
