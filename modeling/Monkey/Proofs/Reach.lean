import Mathlib.Logic.Relation
import Monkey.Proofs.Keeps

/-!
# What can be reached

A scope refers to the values that are bound in it and to the scope that it lies
within, a value to the values that it is made of and, if it is a function, to the
scope that it was created in. What can be reached from a scope or a value is all that
there is a chain of references to (`State.Reaches`).

As long as a property of values is one that every value has that evaluation makes,
evaluation in a scope from which only such values can be reached keeps to them. This is
shown for a fixed collection of scopes that no reference leads out of
(`State.Closed`): evaluation in one of the scopes leads to none outside, so every scope
from which only such values could be reached before is still one afterwards.

Only hosts make values on their way out of a function and errors as values, so the main
statement (`Eval.clean_of_clean`) is that where there are none, evaluation gives none.
-/

namespace Monkey

open Eval

/-! ## References -/

/-- What refers to others and is referred to. -/
inductive Node where
  | scope (id : ScopeId)
  | value (v : Value)

/-- What a value refers to. -/
inductive Value.Refers : Value → Node → Prop
  | element {id vs v} : v ∈ vs → Refers (.array id vs) (.value v)
  | key {id entries entry} : entry ∈ entries → Refers (.hash id entries) (.value entry.2.1)
  | entry {id entries entry} : entry ∈ entries → Refers (.hash id entries) (.value entry.2.2)
  | closure {id c} : Refers (.function id c) (.scope c.scope)
  | inner {v} : Refers (.ret v) (.value v)

namespace State

/-- What scopes and values refer to. -/
inductive Refers (s : State) : Node → Node → Prop
  | outer {i outer : ScopeId} {sc : Scope} : s.scopes[i]? = some sc → sc.outer = some outer →
      Refers s (.scope i) (.scope outer)
  | binding {i : ScopeId} {sc : Scope} {x : String} {v : Value} : s.scopes[i]? = some sc →
      (x, v) ∈ sc.bindings → Refers s (.scope i) (.value v)
  | part {v : Value} {n : Node} : v.Refers n → Refers s (.value v) n

/-- What can be reached by references. -/
abbrev Reaches (s : State) : Node → Node → Prop :=
  Relation.ReflTransGen s.Refers

/-- All values that can be reached have the property. -/
def All (P : Value → Prop) (s : State) (n : Node) : Prop :=
  ∀ v, s.Reaches n (.value v) → P v

/-- What can be reached from what is referred to can be reached. -/
theorem All.of_refers {P : Value → Prop} {s : State} {m n : Node} (h : s.All P m)
    (hmn : s.Refers m n) : s.All P n :=
  fun v hv => h v (.head hmn hv)

/-- A name stands for nothing in a scope that is not there. -/
theorem lt_size_of_get? {s : State} {scope : ScopeId} {x : String} (h : (s.get? scope x).isSome) :
    scope < s.scopes.size := by
  refine Nat.lt_of_not_le fun hle => ?_
  rw [State.get?, Array.getElem?_eq_none hle] at h
  cases h

/-- What a name stands for can be reached from the scope in which it is looked up. -/
theorem reaches_of_get? {s : State} {scope : ScopeId} {x : String} {v : Value}
    (hv : s.get? scope x = some v) : s.Reaches (.scope scope) (.value v) := by
  induction scope using Nat.strongRecOn with
  | _ scope ih =>
    rw [State.get?] at hv
    -- The scope is not there, binds the name, is a root or lies within another one.
    split at hv
    · cases hv
    · next sc hsc =>
      split at hv
      · next w hw =>
        obtain rfl := Option.some.inj hv
        exact .single (.binding hsc (Assoc.mem_of_get? hw))
      · cases hv
      · next outer _ houter =>
        split at hv
        · next hlt => exact .head (.outer hsc houter) (ih outer hlt hv)
        · cases hv

end State

/-- A value refers only to smaller ones. -/
theorem Value.Refers.sizeOf_lt {v w : Value} (h : v.Refers (.value w)) : sizeOf w < sizeOf v := by
  cases h with
  | element hw =>
    have := List.sizeOf_lt_of_mem hw
    simp only [array.sizeOf_spec]
    omega
  | @key _ _ entry he | @entry _ _ entry he =>
    have := List.sizeOf_lt_of_mem he
    obtain ⟨_, _, _⟩ := entry
    simp only [Prod.mk.sizeOf_spec, hash.sizeOf_spec] at this ⊢
    omega
  | inner =>
    simp only [ret.sizeOf_spec]
    omega

/-! ## Confined values -/

/-- The value and all values in it have the property `P`, and the functions in it were
    created in scopes of the collection `C`. -/
inductive Value.Confined (P : Value → Prop) (C : ScopeId → Prop) : Value → Prop
  | intro {v : Value} : P v → (∀ w, v.Refers (.value w) → Confined P C w) →
      (∀ i, v.Refers (.scope i) → C i) → Confined P C v

/-- The scope is one of the collection, or the value is confined to it. -/
def Node.Confined (P : Value → Prop) (C : ScopeId → Prop) : Node → Prop
  | scope i => C i
  | value v => v.Confined P C

namespace Value.Confined

variable {P : Value → Prop} {C : ScopeId → Prop} {v : Value}

/-- A confined value has the property itself. -/
theorem prop (h : Confined P C v) : P v := by
  cases h with
  | intro h _ _ => exact h

/-- What a confined value refers to is confined. -/
theorem refers (h : Confined P C v) {n : Node} (hn : v.Refers n) : n.Confined P C := by
  obtain ⟨-, hvalues, hscopes⟩ := h
  cases n with
  | scope i => exact hscopes i hn
  | value w => exact hvalues w hn

/-- A value is confined to the scopes from which only such values can be reached as from itself.
    -/
theorem of_all {s : State} (v : Value) (h : s.All P (.value v)) :
    Confined P (fun i => s.All P (.scope i)) v :=
  .intro (h v .refl) (fun w hw => of_all w (h.of_refers (.part hw))) fun _ hi =>
    h.of_refers (.part hi)
termination_by sizeOf v
decreasing_by exact hw.sizeOf_lt

end Value.Confined

/-- No chain of references leads out of what is confined, if no single one does that starts
    at a scope. -/
theorem Node.Confined.of_reaches {P : Value → Prop} {C : ScopeId → Prop} {s : State}
    (houter : ∀ {i outer : ScopeId} {sc : Scope}, C i → s.scopes[i]? = some sc →
      sc.outer = some outer → C outer)
    (hbinding : ∀ {i : ScopeId} {sc : Scope} {x : String} {v : Value}, C i →
      s.scopes[i]? = some sc → (x, v) ∈ sc.bindings → Value.Confined P C v)
    {m n : Node} (hmn : s.Reaches m n) (hm : m.Confined P C) : n.Confined P C := by
  induction hmn with
  | refl => exact hm
  | tail _ hstep ih =>
    cases hstep with
    | outer hsc ho => exact houter ih hsc ho
    | binding hsc hv => exact hbinding ih hsc hv
    | part hn => exact Value.Confined.refers ih hn

/-- The kinds of values that only hosts make. -/
def Kind.ofHosts : List Kind :=
  [.returnValue, .error]

/-- The kinds of values that carry an identity. -/
def Kind.created : List Kind :=
  [.array, .hash, .function]

/-- A property that all values have that evaluation makes. -/
abbrev Value.Made (P : Value → Prop) : Prop :=
  ∀ k ∉ Kind.ofHosts, ∀ v : Value, v.kind = k → P v

section

variable {P : Value → Prop} {C : ScopeId → Prop}

/-- What refers to nothing is confined. -/
theorem Value.Confined.of_not_refers {v : Value} (hP : P v) (h : ∀ n, ¬v.Refers n) :
    Value.Confined P C v :=
  .intro hP (fun _ hw => absurd hw (h _)) fun _ hi => absurd hi (h _)

/-- What a confined value is made of is confined. -/
theorem Value.Confined.hereditary_of
    (hP : ∀ k ∉ Kind.created ++ Kind.ofHosts, ∀ v : Value, v.kind = k → P v) :
    Value.Hereditary (Value.Confined P C) where
  null := .of_not_refers (hP .null (by decide) _ rfl) nofun
  int _ := .of_not_refers (hP .integer (by decide) _ rfl) nofun
  bool _ := .of_not_refers (hP .boolean (by decide) _ rfl) nofun
  str _ := .of_not_refers (hP .string (by decide) _ rfl) nofun
  builtin _ := .of_not_refers (hP .builtin (by decide) _ rfl) nofun
  elements h _ hv := h.refers (.element hv)
  entries h _ he := ⟨h.refers (.key he), h.refers (.entry he)⟩
  ret h := h.refers .inner

/-- Whether a value that is no function is confined is a matter of its parts. -/
theorem Value.Confined.inherited_of
    (hP : ∀ k ∉ Kind.function :: Kind.ofHosts, ∀ v : Value, v.kind = k → P v) :
    Value.Inherited (Value.Confined P C) where
  toHereditary := Value.Confined.hereditary_of fun k hk =>
    hP k fun h => hk (by revert h; cases k <;> decide)
  array_of h := by
    refine .intro (hP .array (by decide) _ rfl) ?_ nofun
    rintro v ⟨hv⟩
    exact h v hv
  hash_of h := by
    refine .intro (hP .hash (by decide) _ rfl) ?_ nofun
    rintro v (_ | he | he)
    · exact (h _ he).1
    · exact (h _ he).2

/-- The same where only functions may lack the property. -/
theorem Value.Confined.inherited_of_ne_function
    (hP : ∀ v : Value, (∀ id c, v ≠ .function id c) → P v) :
    Value.Inherited (Value.Confined P C) :=
  Value.Confined.inherited_of fun k hk v hv => hP v <| by
    rintro id c rfl
    exact hk (hv ▸ List.mem_cons_self)

/-- Where all that evaluation makes has the property, being confined is a matter of the parts. -/
theorem Value.Confined.inherited (hP : Value.Made P) :
    Value.Inherited (Value.Confined P C) :=
  Value.Confined.inherited_of fun k hk => hP k fun h => hk (List.mem_cons_of_mem _ h)

/-- A function is confined if it has the property and its scope is in the collection. -/
theorem Value.Confined.function_of {id : ObjectId} {c : Closure} (hP : P (.function id c))
    (hC : C c.scope) : Value.Confined P C (.function id c) := by
  refine .intro hP nofun ?_
  rintro _ ⟨⟩
  exact hC

theorem Value.Confined.function (hP : Value.Made P) {id : ObjectId} {c : Closure} (h : C c.scope) :
    Value.Confined P C (.function id c) :=
  .function_of (hP .function (by decide) _ rfl) h

/-- Values are confined to a larger collection and by a weaker property as well. -/
theorem Value.Confined.imp {Q : Value → Prop} {D : ScopeId → Prop} (hPQ : ∀ v, P v → Q v)
    (hCD : ∀ i, C i → D i) {v : Value} (h : Value.Confined P C v) : Value.Confined Q D v := by
  induction h with
  | intro hP _ hC ih => exact .intro (hPQ _ hP) ih fun i hi => hCD i (hC i hi)

theorem Value.Confined.mono {Q : Value → Prop} (hPQ : ∀ v, P v → Q v) {v : Value}
    (h : Value.Confined P C v) : Value.Confined Q C v :=
  h.imp hPQ fun _ => id

end

/-! ## Closed collections of scopes -/

/-- From the scopes of the collection `C`, among them all that are not there yet, no
    reference leads to other scopes or to values without the property `P`. -/
structure State.Closed (P : Value → Prop) (C : ScopeId → Prop) (s : State) : Prop where
  new {i : ScopeId} : s.scopes.size ≤ i → C i
  outer {i outer : ScopeId} {sc : Scope} : C i → s.scopes[i]? = some sc → sc.outer = some outer →
    C outer
  binding {i : ScopeId} {sc : Scope} {x : String} {v : Value} : C i → s.scopes[i]? = some sc →
    (x, v) ∈ sc.bindings → Value.Confined P C v

namespace State.Closed

variable {P : Value → Prop} {C : ScopeId → Prop} {s t : State}

/-- The scopes from which only values with the property can be reached are such a
    collection. -/
theorem of_all (P : Value → Prop) (s : State) : s.Closed P fun i => s.All P (.scope i) where
  new {i} hi v hv := by
    -- A scope that is not there refers to nothing.
    obtain h | ⟨n, hn, -⟩ := Relation.ReflTransGen.cases_head hv
    · cases h
    · have hnone := Array.getElem?_eq_none hi
      cases hn with
      | outer hsc _ | binding hsc _ =>
        rw [hnone] at hsc
        cases hsc
  outer h hsc houter := h.of_refers (.outer hsc houter)
  binding {_ _ _ v} h hsc hv := Value.Confined.of_all v (h.of_refers (.binding hsc hv))

/-- Where there are no scopes, no reference leads out. -/
theorem empty : State.empty.Closed P fun _ => True where
  new _ := trivial
  outer _ _ _ := trivial
  binding _ h := nomatch h

/-- No chain of references leads out of the collection. -/
theorem reaches (h : s.Closed P C) {m n : Node} (hmn : s.Reaches m n) (hm : m.Confined P C) :
    n.Confined P C :=
  Node.Confined.of_reaches h.outer h.binding hmn hm

/-- From a scope of the collection only values with the property can be reached. -/
theorem all_scope (h : s.Closed P C) {i : ScopeId} (hi : C i) : s.All P (.scope i) :=
  fun _ hv => Value.Confined.prop (h.reaches hv hi)

/-- From a confined value only values with the property can be reached. -/
theorem all_value (h : s.Closed P C) {v : Value} (hv : Value.Confined P C v) : s.All P (.value v) :=
  fun _ hw => Value.Confined.prop (h.reaches hw hv)

theorem mono {Q : Value → Prop} (h : s.Closed P C) (hPQ : ∀ v, P v → Q v) : s.Closed Q C where
  new := h.new
  outer := h.outer
  binding hi hsc hv := (h.binding hi hsc hv).mono hPQ

theorem of_scopes_eq (h : s.Closed P C) (heq : t.scopes = s.scopes) : t.Closed P C where
  new := heq ▸ h.new
  outer := heq ▸ h.outer
  binding := heq ▸ h.binding

/-- A confined value may be bound, whatever the scope. -/
theorem bind (h : s.Closed P C) (scope : ScopeId) (x : String) {v : Value}
    (hv : Value.Confined P C v) : (s.bind scope x v).Closed P C where
  new hi := h.new (by rwa [size_scopes_bind] at hi)
  outer hi hsc houter := by
    -- Binding a name leaves every scope within the same one.
    obtain ⟨_, hsc', rfl | ⟨-, rfl⟩⟩ := scopes_bind_cases hsc <;> exact h.outer hi hsc' houter
  binding hi hsc hw := by
    obtain ⟨_, hsc', rfl | ⟨-, rfl⟩⟩ := scopes_bind_cases hsc
    · exact h.binding hi hsc' hw
    · -- What is bound in the scope is the new value or what was bound before.
      rcases Assoc.mem_put hw with heq | hw
      · obtain ⟨-, rfl⟩ := Prod.mk.inj heq
        exact hv
      · exact h.binding hi hsc' hw

/-- A new scope may lie within one of the collection. -/
theorem newScope (h : s.Closed P C) {outer : Option ScopeId} (houter : ∀ i ∈ outer, C i) :
    (s.newScope outer).2.Closed P C where
  new hi := h.new (Nat.le_of_succ_le (by rwa [size_scopes_newScope] at hi))
  outer hi hsc ho := by
    rcases scopes_newScope_cases hsc with hsc | ⟨-, rfl⟩
    · exact h.outer hi hsc ho
    · exact houter _ ho
  binding hi hsc hv := by
    -- Nothing is bound in the new scope.
    rcases scopes_newScope_cases hsc with hsc | ⟨-, rfl⟩
    · exact h.binding hi hsc hv
    · cases hv

theorem bindAll (h : s.Closed P C) (scope : ScopeId) (xs : List String) {vs : List Value}
    (hvs : ∀ v ∈ vs, Value.Confined P C v) : (s.bindAll scope xs vs).Closed P C := by
  induction xs generalizing s vs with
  | nil => exact h
  | cons x xs ih =>
    cases vs with
    | nil => exact h
    | cons v vs =>
      obtain ⟨hv, hvs⟩ := List.forall_mem_cons.1 hvs
      exact ih (h.bind scope x hv) hvs

/-- A call of a confined function with confined arguments may be entered. -/
theorem enter (h : s.Closed P C) {c : Closure} (hc : C c.scope) {args : List Value}
    (hargs : ∀ v ∈ args, Value.Confined P C v) : (s.enter c args).Closed P C := by
  refine (h.newScope ?_).bindAll s.scopes.size c.params hargs
  rintro _ ⟨⟩
  exact hc

/-- What a name stands for is confined. -/
theorem get? (h : s.Closed P C) {scope : ScopeId} (hscope : C scope) {x : String} {v : Value}
    (hv : s.get? scope x = some v) : Value.Confined P C v :=
  h.reaches (reaches_of_get? hv) hscope

end State.Closed

/-! ## Evaluation -/

section

variable {P : Value → Prop} {C : ScopeId → Prop}

/-- Evaluation in a scope of the collection keeps to what is confined, if applications of values
    do. -/
theorem State.Closed.keeping (hP : Value.Made P) {apply : Value → List Value → Eval Value}
    (happly : ∀ f args, Value.Confined P C f → (∀ v ∈ args, Value.Confined P C v) →
      Keeps (State.Closed P C) (Value.Confined P C) (Value.Confined P C) (apply f args))
    {scope : ScopeId} (hscope : C scope) :
    Keeping (State.Closed P C) (Value.Confined P C) (fun _ => True) apply scope where
  inherited := Value.Confined.inherited hP
  function _ _ _ := Value.Confined.function hP hscope
  lookup h hv := h.get? hscope hv
  bind h _ hv := h.bind scope _ hv
  newId _ h := h.of_scopes_eq rfl
  apply := happly _ _

/-- Applying a value leads out of no closed collection. -/
theorem Value.apply_keeps_closed (hP : Value.Made P) (depth : Nat) (f : Value) (args : List Value)
    (hf : Value.Confined P C f) (hargs : ∀ v ∈ args, Value.Confined P C v) :
    Keeps (State.Closed P C) (Value.Confined P C) (Value.Confined P C) (f.apply depth args) := by
  induction depth using Nat.strongRecOn generalizing f args with
  | _ depth ih =>
    refine Value.apply_keeps (Value.Confined.inherited hP) ?_ ?_ hf hargs ?_
    · exact fun _ h => h.of_scopes_eq rfl
    · exact fun _ _ h => h.of_scopes_eq rfl
    · rintro n id c rfl rfl - t h
      -- The scope of the call was not there before, so the collection has it.
      have hkeeping := State.Closed.keeping hP (ih n (Nat.lt_succ_self n))
        (h.new (Nat.le_refl t.scopes.size))
      exact Block.eval_keeps hkeeping c.body (fun _ _ => trivial)
        (h.enter (hf.refers .closure) hargs)

/-- Evaluation in a scope of a closed collection leads out of it nowhere. -/
theorem State.Closed.keeping_apply (hP : Value.Made P) (depth : Nat) {scope : ScopeId}
    (hscope : C scope) :
    Keeping (State.Closed P C) (Value.Confined P C) (fun _ => True) (Value.apply depth) scope :=
  State.Closed.keeping hP (Value.apply_keeps_closed hP depth) hscope

end

theorem Value.made_not_ofHosts : Value.Made fun v => v.kind ∉ Kind.ofHosts := by
  rintro _ hk _ rfl
  exact hk

/-- No value can be reached that only hosts make. -/
abbrev State.Clean (s : State) (n : Node) : Prop :=
  s.All (fun v => v.kind ∉ Kind.ofHosts) n

/-- Where no value can be reached that only hosts make, expressions and programs give
    none: neither can one be reached afterwards from a scope from which none could before,
    or which was not there, nor from the value, be it on its way out of a function or not,
    nor from one that an error carries. Hence a program gives an error as a value exactly if
    its evaluation fails. -/
theorem Eval.clean_of_clean {s : State} {scope : ScopeId} (h : s.Clean (.scope scope))
    (depth : Nat) :
    (∀ (e : Expr) (o : Outcome Value) (t : State),
      (e.eval (Value.apply depth) scope).run s = (o, t) →
        (∀ i, s.Clean (.scope i) → t.Clean (.scope i)) ∧ ∀ v, o.Gives v → t.Clean (.value v)) ∧
    ∀ (p : Program) (o : Outcome Value) (t : State), (p.eval depth scope).run s = (o, t) →
      (∀ i, s.Clean (.scope i) → t.Clean (.scope i)) ∧
      (∀ v, o.Gives v → t.Clean (.value v)) ∧
      (∀ v, o ≠ .returned v) ∧
      ∀ message, o.toValue? = some (.error message) ↔ ∃ e, o = .failed e ∧ e.message = message := by
  have hP := Value.made_not_ofHosts
  have hclosed := State.Closed.of_all (fun v => v.kind ∉ Kind.ofHosts) s
  have hkeeping := State.Closed.keeping_apply (C := fun i => s.Clean (.scope i)) hP depth h
  constructor
  · intro e o t hrun
    obtain ⟨ht, ho⟩ := Expr.eval_keeps hkeeping e (fun _ _ => trivial) hclosed
    rw [hrun] at ht ho
    exact ⟨fun i hi => ht.all_scope hi, fun v hv => ht.all_value (ho.of_gives hv)⟩
  · intro p o t hrun
    have hne := run_catchReturn_ne_returned (Block.eval (Value.apply depth) p scope) s
    obtain ⟨ht, ho⟩ := Program.eval_keeps hkeeping p (fun _ _ => trivial) hclosed
    rw [hrun] at ht ho
    have hgives : ∀ v, o.Gives v → t.Clean (.value v) := fun v hv =>
      ht.all_value (ho.of_gives hv)
    have hreturned : ∀ v, o ≠ .returned v := by
      rintro v rfl
      exact hne v (congrArg Prod.fst hrun)
    refine ⟨fun i hi => ht.all_scope hi, hgives, hreturned, fun message => ?_⟩
    cases o with
    | value v =>
      refine ⟨fun hv => ?_, fun ⟨e, he, _⟩ => by cases he⟩
      -- A value is no error, for else the values to be reached from it were not clean.
      obtain rfl := Option.some.inj hv
      exact absurd (by decide : Kind.error ∈ Kind.ofHosts) (hgives _ rfl _ .refl)
    | returned v => exact absurd rfl (hreturned v)
    | failed e => simp [Outcome.toValue?]
    | exhausted => simp [Outcome.toValue?]

/-- A program that binds an array in a scope with an array. -/
theorem Eval.clean_of_clean_arrays :
    let s := (State.empty.newScope none).2.bind 0 "xs" (.array 0 [.int 1, .str "one"])
    s.Clean (.scope 0) ∧
    ∃ t, (Program.eval 0 [.bind "ys" (.array [.bool true]), .expr (.int 2)] 0).run s =
        (.value (.int 2), t) ∧ t.Clean (.scope 0) := by
  intro s
  have hP := Value.made_not_ofHosts
  have hS := Value.Confined.inherited (C := fun _ => True) hP
  have harray : Value.Confined (fun v => v.kind ∉ Kind.ofHosts) (fun _ => True)
      (.array 0 [.int 1, .str "one"]) := by
    refine hS.array.2 fun v hv => ?_
    simp only [List.mem_cons, List.not_mem_nil, or_false] at hv
    rcases hv with rfl | rfl
    · exact hS.int 1
    · exact hS.str "one"
  have h : s.Clean (.scope 0) :=
    ((State.Closed.empty.newScope fun _ _ => trivial).bind 0 "xs" harray).all_scope trivial
  refine ⟨h, ?_⟩
  have hrun : (Program.eval 0 [.bind "ys" (.array [.bool true]), .expr (.int 2)] 0).run s =
      (.value (.int 2), s.newId.2.bind 0 "ys" (.array 0 [.bool true])) := rfl
  exact ⟨_, hrun, ((Eval.clean_of_clean h 0).2 _ _ _ hrun).1 0 h⟩

end Monkey
