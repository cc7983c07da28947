import Monkey.Assoc
import Monkey.Value

/-!
# States

What an evaluation works on: the scopes that have been created, the number of the
next array, hash or function, and what has been printed.

A scope binds names to values and lies within another scope, created before it,
unless it is a root. A name is looked up in a scope and, if it is not bound there,
in the scopes that it lies within (`State.get?`); it is always bound in the scope
itself (`State.bind`).
-/

namespace Monkey

/-- The bindings of a scope and the scope that it lies within. -/
structure Scope where
  bindings : Assoc String Value
  outer : Option ScopeId

/-- The names that a scope binds. -/
def Scope.names (sc : Scope) : List String :=
  Assoc.keys sc.bindings

/-- The scope with a name bound, in place of what it was bound to. -/
def Scope.put (sc : Scope) (x : String) (v : Value) : Scope :=
  { sc with bindings := Assoc.put x v sc.bindings }

/-- Binding a name adds it to those of the scope. -/
theorem Scope.mem_names_put {sc : Scope} {x y : String} {v : Value} :
    y ∈ (sc.put x v).names ↔ y = x ∨ y ∈ sc.names := by
  rw [names, put, Assoc.keys_put]
  split
  · next hx => exact ⟨.inr, fun h => h.elim (fun heq => heq ▸ hx) id⟩
  · rw [List.mem_append, List.mem_singleton, or_comm]
    rfl

/-- What an evaluation works on. -/
structure State where
  /-- The scopes, in the order of creation. -/
  scopes : Array Scope
  /-- The number of the next array, hash or function. -/
  nextId : ObjectId
  /-- What has been printed. -/
  printed : String

namespace State

/-- Nothing has been created or printed. -/
def empty : State := ⟨#[], 0, ""⟩

/-- Creates a scope without bindings. -/
def newScope (s : State) (outer : Option ScopeId) : ScopeId × State :=
  (s.scopes.size, { s with scopes := s.scopes.push ⟨[], outer⟩ })

/-- The number for a new array, hash or function. -/
def newId (s : State) : ObjectId × State :=
  (s.nextId, { s with nextId := s.nextId + 1 })

/-- Binds a name in a scope, in place of what it was bound to there. -/
def bind (s : State) (scope : ScopeId) (name : String) (v : Value) : State :=
  { s with
    scopes := s.scopes.modify scope fun sc => { sc with bindings := Assoc.put name v sc.bindings } }

/-- Prints a text. -/
def print (s : State) (text : String) : State :=
  { s with printed := s.printed ++ text }

/-- The value of a name in a scope: the one it is bound to there or, if there is
    none, its value in the scope around it. -/
def get? (s : State) (scope : ScopeId) (name : String) : Option Value :=
  match s.scopes[scope]? with
  | none => none
  | some sc =>
    match Assoc.get? name sc.bindings, sc.outer with
    | some v, _ => some v
    | none, none => none
    -- Scopes lie within earlier ones; the test only makes this plain.
    | none, some outer => if outer < scope then s.get? outer name else none
termination_by scope

/-- The value of a name in a scope depends on this scope and earlier ones only. -/
theorem get?_congr {s t : State} {scope : ScopeId}
    (h : ∀ i ≤ scope, t.scopes[i]? = s.scopes[i]?) (name : String) :
    t.get? scope name = s.get? scope name := by
  induction scope using Nat.strongRecOn with
  | _ scope ih =>
    rw [get?.eq_def t, get?.eq_def s, h scope (Nat.le_refl scope)]
    split
    · rfl
    · split
      · rfl
      · rfl
      · split
        · next hlt => exact ih _ hlt fun i hi => h i (Nat.le_trans hi (Nat.le_of_lt hlt))
        · rfl

/-- Values of names depend on the scopes only. -/
theorem get?_of_scopes_eq {s t : State} (h : t.scopes = s.scopes) (scope : ScopeId)
    (name : String) : t.get? scope name = s.get? scope name :=
  get?_congr (fun _ _ => by rw [h]) name

/-! ## Scopes -/

section

variable (s : State) (outer : Option ScopeId) (scope : ScopeId) (name : String) (v : Value)

@[simp]
theorem size_scopes_newScope : (s.newScope outer).2.scopes.size = s.scopes.size + 1 :=
  Array.size_push _

/-- A new scope comes after all others, and no name is bound in it. -/
theorem scopes_newScope_self : (s.newScope outer).2.scopes[s.scopes.size]? = some ⟨[], outer⟩ :=
  Array.getElem?_push_size

/-- A new scope leaves the others as they are. -/
theorem scopes_newScope_of_ne {i : ScopeId} (h : i ≠ s.scopes.size) :
    (s.newScope outer).2.scopes[i]? = s.scopes[i]? := by
  rw [newScope, Array.getElem?_push, if_neg h]

@[simp]
theorem size_scopes_bind : (s.bind scope name v).scopes.size = s.scopes.size :=
  Array.size_modify

/-- Where a name is bound, the scope keeps what else is bound in it and which one is around it. -/
theorem scopes_bind_self : (s.bind scope name v).scopes[scope]? =
    s.scopes[scope]?.map fun sc => { sc with bindings := Assoc.put name v sc.bindings } := by
  rw [bind, Array.getElem?_modify, if_pos rfl]

/-- A name is bound in no scope but the one. -/
theorem scopes_bind_of_ne {i : ScopeId} (h : i ≠ scope) :
    (s.bind scope name v).scopes[i]? = s.scopes[i]? := by
  rw [bind, Array.getElem?_modify, if_neg h.symm]

variable {s outer scope name v}

/-- A scope was there before another one was created, or is the new one. -/
theorem scopes_newScope_cases {i : ScopeId} {sc : Scope}
    (h : (s.newScope outer).2.scopes[i]? = some sc) :
    s.scopes[i]? = some sc ∨ i = s.scopes.size ∧ sc = ⟨[], outer⟩ := by
  by_cases hi : i = s.scopes.size
  · subst hi
    rw [scopes_newScope_self] at h
    exact .inr ⟨rfl, (Option.some.inj h).symm⟩
  · exact .inl ((scopes_newScope_of_ne s outer hi).symm.trans h)

/-- A scope is as it was before a name was bound, or is the one in which it was. -/
theorem scopes_bind_cases {i : ScopeId} {sc : Scope}
    (h : (s.bind scope name v).scopes[i]? = some sc) :
    ∃ sc', s.scopes[i]? = some sc' ∧ (sc' = sc ∨ i = scope ∧ sc'.put name v = sc) := by
  by_cases hi : i = scope
  · subst hi
    rw [scopes_bind_self, Option.map_eq_some_iff] at h
    obtain ⟨sc', hsc', heq⟩ := h
    exact ⟨sc', hsc', .inr ⟨rfl, heq⟩⟩
  · exact ⟨sc, (scopes_bind_of_ne s scope name v hi).symm.trans h, .inl rfl⟩

end

/-! ## Output -/

/-- What has been printed, and the state in which nothing has been. -/
def takePrinted (s : State) : String × State :=
  (s.printed, { s with printed := "" })

end State

end Monkey
