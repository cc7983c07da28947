import Monkey.Proofs.Growth
import Monkey.Proofs.Reach
import Monkey.Proofs.Renaming

/-!
# Grounded states

A state gives out numbers, to scopes by their places and to arrays, hashes and functions one
after the other. It is *grounded* if it refers to nothing that has no number yet: scopes lie
within earlier ones, and what is bound is made of what has been created (`State.Owns`).

Every state is grounded that comes about when a host creates scopes, binds the values that
there are and evaluates programs, in whatever order (`Session.grounded`). A renaming that
leaves the numbers which have been given out leaves everything as it is in a grounded state
(`State.Owns.rename_eq`).
-/

namespace Monkey

open Eval

/-- The number of an array, hash or function. -/
def Value.id? : Value → Option ObjectId
  | array id _ | hash id _ | function id _ => some id
  | _ => none

/-- What a confined value is made of is confined, if only what has a number may lack the
    property. -/
theorem Value.Confined.hereditary_of_id? {P : Value → Prop} {C : ScopeId → Prop}
    (hP : ∀ v : Value, v.id? = none → P v) : Value.Hereditary (Value.Confined P C) :=
  Value.Confined.hereditary_of fun k hk v hv => hP v <| by
    cases v with
    | array | hash | function =>
      subst hv
      exact absurd (List.mem_append_left _ (by simp [Kind.created, Value.kind])) hk
    | _ => rfl

/-- The value, all that is in it and the scopes that it refers to have been created. -/
def State.Owns (s : State) : Value → Prop :=
  Value.Confined (fun v => ∀ id ∈ v.id?, id < s.nextId) (· < s.scopes.size)

/-- Nothing is referred to that has not been created. -/
structure State.Grounded (s : State) : Prop where
  outer {i outer : ScopeId} {sc : Scope} : s.scopes[i]? = some sc → sc.outer = some outer →
    outer < i
  binding {i : ScopeId} {sc : Scope} {x : String} {v : Value} : s.scopes[i]? = some sc →
    (x, v) ∈ sc.bindings → s.Owns v

/-- As much has been created, or more. -/
structure State.Outnumbered (s t : State) : Prop where
  scopes : s.scopes.size ≤ t.scopes.size
  objects : s.nextId ≤ t.nextId

namespace State

variable {s t u : State}

namespace Outnumbered

theorem refl (s : State) : Outnumbered s s :=
  ⟨Nat.le_refl _, Nat.le_refl _⟩

theorem trans (h : Outnumbered s t) (h' : Outnumbered t u) : Outnumbered s u :=
  ⟨Nat.le_trans h.scopes h'.scopes, Nat.le_trans h.objects h'.objects⟩

theorem newId (s : State) : Outnumbered s s.newId.2 :=
  ⟨Nat.le_refl _, Nat.le_succ _⟩

theorem print (s : State) (text : String) : Outnumbered s (s.print text) :=
  ⟨Nat.le_refl _, Nat.le_refl _⟩

theorem bind (s : State) (scope : ScopeId) (x : String) (v : Value) :
    Outnumbered s (s.bind scope x v) :=
  ⟨Nat.le_of_eq (s.size_scopes_bind scope x v).symm, Nat.le_refl _⟩

theorem newScope (s : State) (outer : Option ScopeId) : Outnumbered s (s.newScope outer).2 where
  scopes := by simp
  objects := Nat.le_refl _

end Outnumbered

/-! ## Values -/

namespace Owns

variable {v : Value}

/-- What a state owns is owned in every later one. -/
theorem mono (hst : Outnumbered s t) (h : s.Owns v) : t.Owns v :=
  h.imp (fun _ hv id hid => Nat.lt_of_lt_of_le (hv id hid) hst.objects)
    fun _ hi => Nat.lt_of_lt_of_le hi hst.scopes

/-- A value is owned exactly if what it is made of is. -/
theorem hereditary (s : State) : Value.Hereditary s.Owns :=
  Value.Confined.hereditary_of_id? fun v hv id hid => by
    rw [hv] at hid
    cases hid

/-- The next array is owned once it has its number. -/
theorem array {vs : List Value} (h : ∀ v ∈ vs, s.Owns v) :
    s.newId.2.Owns (.array s.newId.1 vs) := by
  refine .intro ?_ ?_ nofun
  · rintro _ ⟨⟩
    exact Nat.lt_succ_self s.nextId
  · rintro w ⟨hw⟩
    exact (h w hw).mono (.newId s)

theorem hash {entries : List (HashKey × Value × Value)} (h : Value.OfEntries s.Owns entries) :
    s.newId.2.Owns (.hash s.newId.1 entries) := by
  refine .intro ?_ ?_ nofun
  · rintro _ ⟨⟩
    exact Nat.lt_succ_self s.nextId
  · rintro w (_ | he | he)
    · exact (h _ he).1.mono (.newId s)
    · exact (h _ he).2.mono (.newId s)

/-- A new function is owned if its scope is there. -/
theorem function {params : List String} {body : Block} {scope : ScopeId}
    (h : scope < s.scopes.size) :
    s.newId.2.Owns (.function s.newId.1 ⟨params, body, scope⟩) := by
  refine Value.Confined.function_of ?_ h
  rintro _ ⟨⟩
  exact Nat.lt_succ_self s.nextId

/-- The scope of a function that is owned is there. -/
theorem scope_lt {id : ObjectId} {c : Closure} (h : s.Owns (.function id c)) :
    c.scope < s.scopes.size :=
  h.refers .closure

end Owns

/-! ## Steps -/

namespace Grounded

/-- Where nothing has been created, nothing dangles. -/
theorem empty : State.empty.Grounded :=
  ⟨nofun, nofun⟩

/-- A name is looked up among what has been created. -/
theorem get? (h : s.Grounded) {scope : ScopeId} {x : String} {v : Value}
    (hv : s.get? scope x = some v) : s.Owns v :=
  Node.Confined.of_reaches (fun hi hsc ho => Nat.lt_trans (h.outer hsc ho) hi)
    (fun _ hsc hw => h.binding hsc hw) (reaches_of_get? hv)
    (lt_size_of_get? (Option.isSome_of_mem hv))

theorem newId (h : s.Grounded) : s.newId.2.Grounded where
  outer := h.outer
  binding hsc hv := (h.binding hsc hv).mono (.newId s)

theorem print (h : s.Grounded) (text : String) : (s.print text).Grounded where
  outer := h.outer
  binding hsc hv := h.binding hsc hv

/-- A new scope lies within one that is there. -/
theorem newScope (h : s.Grounded) {outer : Option ScopeId}
    (houter : ∀ i ∈ outer, i < s.scopes.size) : (s.newScope outer).2.Grounded where
  outer hsc ho := by
    rcases scopes_newScope_cases hsc with hsc | ⟨rfl, rfl⟩
    · exact h.outer hsc ho
    · exact houter _ ho
  binding hsc hv := by
    -- Nothing is bound in the new scope.
    rcases scopes_newScope_cases hsc with hsc | ⟨-, rfl⟩
    · exact (h.binding hsc hv).mono (.newScope s outer)
    · cases hv

/-- Values that are owned may be bound. -/
theorem bind (h : s.Grounded) (scope : ScopeId) (x : String) {v : Value} (hv : s.Owns v) :
    (s.bind scope x v).Grounded where
  outer hsc houter := by
    obtain ⟨_, hsc', rfl | ⟨-, rfl⟩⟩ := scopes_bind_cases hsc <;> exact h.outer hsc' houter
  binding hsc hw := by
    refine Owns.mono (.bind s scope x v) ?_
    obtain ⟨_, hsc', rfl | ⟨-, rfl⟩⟩ := scopes_bind_cases hsc
    · exact h.binding hsc' hw
    · rcases Assoc.mem_put hw with heq | hw
      · obtain ⟨-, rfl⟩ := Prod.mk.inj heq
        exact hv
      · exact h.binding hsc' hw

theorem bindAll (h : s.Grounded) (scope : ScopeId) (xs : List String) {vs : List Value}
    (hvs : ∀ v ∈ vs, s.Owns v) :
    Outnumbered s (s.bindAll scope xs vs) ∧ (s.bindAll scope xs vs).Grounded := by
  induction xs generalizing s vs with
  | nil => exact ⟨.refl s, h⟩
  | cons x xs ih =>
    cases vs with
    | nil => exact ⟨.refl s, h⟩
    | cons v vs =>
      obtain ⟨hv, hvs⟩ := List.forall_mem_cons.1 hvs
      have hle := Outnumbered.bind s scope x v
      obtain ⟨hle', hgrounded⟩ := ih (h.bind scope x hv) fun w hw => (hvs w hw).mono hle
      exact ⟨hle.trans hle', hgrounded⟩

/-- A call of a function with arguments, all of them owned, may be entered. -/
theorem enter (h : s.Grounded) {c : Closure} (hc : c.scope < s.scopes.size) {args : List Value}
    (hargs : ∀ v ∈ args, s.Owns v) :
    Outnumbered s (s.enter c args) ∧ (s.enter c args).Grounded := by
  have hle := Outnumbered.newScope s (some c.scope)
  have hnew : (s.newScope (some c.scope)).2.Grounded := by
    refine h.newScope ?_
    rintro _ ⟨⟩
    exact hc
  obtain ⟨hle', hgrounded⟩ :=
    hnew.bindAll s.scopes.size c.params fun v hv => (hargs v hv).mono hle
  exact ⟨hle.trans hle', hgrounded⟩

end Grounded

end State

open State

/-! ## Sessions -/

/-- Evaluation keeps to what has been created. -/
def Growth.grounded : Growth where
  le := Outnumbered
  states := Grounded
  values := Owns
  scopes s i := i < s.scopes.size
  names _ _ _ := True
  errors _ := True
  refl := .refl
  trans := .trans
  values_mono hst hv := hv.mono hst
  scopes_mono hst hi := Nat.lt_of_lt_of_le hi hst.scopes
  names_mono _ _ := trivial
  hereditary := Owns.hereditary
  lookup h _ hv := h.get? hv
  unbound _ _ _ := trivial
  others _ := trivial
  bind hs _ hv := ⟨.bind _ _ _ _, hs.bind _ _ hv⟩
  newId hs := ⟨.newId _, hs.newId⟩
  array _ hvs := .array hvs
  hash _ hentries := .hash hentries
  function _ hscope _ := .function hscope
  print text hs := ⟨.print _ text, hs.print text⟩
  enter hs hf hargs _ := hs.enter hf.scope_lt hargs
  body _ _ _ := ⟨by simp, fun _ _ => trivial⟩

/-- The states that a host can bring about, which starts with nothing, creates scopes, gives
    values names and has programs evaluated. -/
inductive Session : State → Prop
  | start : Session .empty
  | newScope {s : State} (outer : Option ScopeId) : Session s → (∀ i ∈ outer, i < s.scopes.size) →
      Session (s.newScope outer).2
  | newId {s : State} : Session s → Session s.newId.2
  | bind {s : State} (scope : ScopeId) (x : String) {v : Value} : Session s → s.Owns v →
      Session (s.bind scope x v)
  | eval {s : State} (depth : Nat) (p : Program) {scope : ScopeId} : Session s →
      scope < s.scopes.size → Session ((p.eval depth scope).run s).2
  | takePrinted {s : State} : Session s → Session s.takePrinted.2

/-- Whatever a host does, nothing is referred to that has not been created. -/
theorem Session.grounded {s : State} (h : Session s) : s.Grounded := by
  induction h with
  | start => exact .empty
  | newScope _ _ houter ih => exact ih.newScope houter
  | newId _ ih => exact ih.newId
  | bind scope x _ hv ih => exact ih.bind scope x hv
  | eval depth p _ hscope ih =>
    have hgrows := p.eval_grows .grounded depth hscope fun _ _ => trivial
    exact (hgrows (.refl _) ih).2.1
  | takePrinted _ ih => exact ⟨ih.outer, ih.binding⟩

/-! ## Renamings -/

/-- What has been created keeps its number. -/
structure Renaming.Fixes (r : Renaming) (s : State) : Prop where
  scope {i : ScopeId} : i < s.scopes.size → r.scope i = i
  object {id : ObjectId} : id < s.nextId → r.object id = id

/-- What has been created stays as it is when only other things are renamed. -/
theorem State.Owns.rename_eq {s : State} {r : Renaming} (hr : r.Fixes s) {v : Value}
    (h : s.Owns v) : v.rename r = v := by
  induction h with
  | @intro v hid _ hscope ih =>
    cases v with
    | array id vs =>
      rw [Value.rename, Value.renameList_eq_map, hr.object (hid id rfl)]
      have hvs : ∀ v ∈ vs, v.rename r = v := fun v hv => ih v (.element hv)
      exact congrArg _ ((List.map_congr_left hvs).trans (List.map_id' vs))
    | hash id es =>
      rw [Value.rename, Value.renameEntries_eq_map, hr.object (hid id rfl)]
      refine congrArg _ ((List.map_congr_left fun e he => ?_).trans (List.map_id' es))
      rw [Value.renameEntry, ih _ (.key he), ih _ (.entry he)]
    | function id c =>
      rw [Value.rename, Closure.rename, hr.object (hid id rfl), hr.scope (hscope _ .closure)]
    | ret v => exact congrArg Value.ret (ih v .inner)
    | _ => rfl

end Monkey
