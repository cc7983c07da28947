import Mathlib.Data.List.Permutation
import Monkey.Proofs.Alike
import Monkey.Proofs.Ledger

/-!
# The history of scopes

Scopes are shared: by the functions that were created in them, by calls and by the scopes
within them. Values that are bound in a scope may well refer to it again. Still, names can be
looked up, as a scope lies within one that was created before it.

A *history* is the list of what has been done to the scopes (`Change`, `History`): they have
been created, and names have been bound in them. A state has the history if it has come about
that way (`State.After`). From the history alone it can be told what a name stands for: what
it was bound to last, in the nearest scope where it ever was (`State.Resolves`). Evaluation
adds to it whatever names it binds, those of the parameters in the scope of a call among them
(`State.GoesOn`).

There is a history of everything that a host can do, and of every moment of the evaluations
in it, as a history is a ledger (`Ledger.history`). Together this is the main statement
(`Hosted.resolves_names`).
-/

namespace Monkey

open Eval State

/-! ## Histories -/

/-- What is done to the scopes. -/
inductive Change where
  | create (outer : Option ScopeId)
  | bind (scope : ScopeId) (x : String) (v : Value)

/-- What the change binds the name to in the scope. -/
def Change.value? (scope : ScopeId) (x : String) : Change → Option Value
  | create _ => none
  | bind i y v => if i = scope ∧ y = x then some v else none

/-- A change that binds a name in a scope is about no other. -/
theorem Change.value?_eq_some_iff {scope : ScopeId} {x : String} {v : Value} {c : Change} :
    c.value? scope x = some v ↔ c = .bind scope x v := by
  cases c with
  | create => simp [value?]
  | bind => simp [value?, and_assoc]

/-- The changes so far, the latest first. -/
abbrev History := List Change

namespace History

/-- The number of scopes that have been created. -/
def created (h : History) : Nat :=
  h.countP fun c => c matches .create _

/-- What the name was last bound to in the scope. -/
def last? (h : History) (scope : ScopeId) (x : String) : Option Value :=
  h.findSome? (Change.value? scope x)

/-- The name was bound to the value in the scope, and not since. -/
def Latest (h : History) (scope : ScopeId) (x : String) (v : Value) : Prop :=
  ∃ newer older, h = newer ++ .bind scope x v :: older ∧ ∀ w, .bind scope x w ∉ newer

variable {h : History} {scope : ScopeId} {x : String} {v : Value}

/-- There is no last value exactly if the name has never been bound in the scope. -/
theorem last?_eq_none_iff : h.last? scope x = none ↔ ∀ v, .bind scope x v ∉ h := by
  rw [last?, List.findSome?_eq_none_iff]
  refine ⟨fun hnone v hmem => ?_, fun hnone c hmem => ?_⟩
  · have hvalue : (Change.bind scope x v).value? scope x = some v :=
      Change.value?_eq_some_iff.2 rfl
    exact absurd ((hnone _ hmem).symm.trans hvalue) nofun
  · refine Option.eq_none_iff_forall_ne_some.2 fun v hvalue => ?_
    exact hnone v (Change.value?_eq_some_iff.1 hvalue ▸ hmem)

/-- The last value is the one that the name has been bound to latest. -/
theorem last?_eq_some_iff : h.last? scope x = some v ↔ h.Latest scope x v := by
  rw [last?, List.findSome?_eq_some_iff]
  constructor
  · rintro ⟨newer, c, older, rfl, hvalue, hnewer⟩
    obtain rfl := Change.value?_eq_some_iff.1 hvalue
    exact ⟨newer, older, rfl, last?_eq_none_iff.1 (List.findSome?_eq_none_iff.2 hnewer)⟩
  · rintro ⟨newer, older, rfl, hnewer⟩
    exact ⟨newer, _, older, rfl, Change.value?_eq_some_iff.2 rfl,
      List.findSome?_eq_none_iff.1 (last?_eq_none_iff.2 hnewer)⟩

end History

/-! ## States with a history -/

/-- The changes, in their order, have led to the state. Nothing has been used that there was
    not yet, and what else has happened has left the scopes as they were. -/
inductive State.After : State → History → Prop
  | start : After .empty []
  | create {s h} {outer : Option ScopeId} : After s h → (∀ i ∈ outer, i < s.scopes.size) →
      After (s.newScope outer).2 (.create outer :: h)
  | bind {s h} {scope : ScopeId} (x : String) {v : Value} : After s h → scope < s.scopes.size →
      s.Owns v → After (s.bind scope x v) (.bind scope x v :: h)
  | other {s t h} : After s h → t.scopes = s.scopes → s.nextId ≤ t.nextId → After t h

theorem State.own?_newScope (s : State) (outer : Option ScopeId) (i : ScopeId) (x : String) :
    (s.newScope outer).2.own? i x = s.own? i x := by
  rw [own?, own?]
  by_cases hi : i = s.scopes.size
  · rw [hi, scopes_newScope_self, Array.getElem?_eq_none (Nat.le_refl _)]
    rfl
  · rw [scopes_newScope_of_ne _ _ hi]

/-- What is bound is found in the scope. -/
theorem State.own?_bind_self {s : State} {scope : ScopeId} (hscope : scope < s.scopes.size)
    (x : String) (v : Value) : (s.bind scope x v).own? scope x = some v := by
  rw [own?, scopes_bind_self, Array.getElem?_eq_getElem hscope]
  exact Assoc.get?_put_self x v _

/-- Binding a name changes what is found in no other place. -/
theorem State.own?_bind_of_ne (s : State) {scope i : ScopeId} {x y : String} (v : Value)
    (hne : ¬(scope = i ∧ x = y)) : (s.bind scope x v).own? i y = s.own? i y := by
  rw [own?, own?]
  by_cases hi : i = scope
  · subst hi
    rw [scopes_bind_self, Option.bind_map]
    refine congrArg _ (funext fun sc => ?_)
    exact Assoc.get?_put_of_ne (fun hxy => hne ⟨rfl, hxy.symm⟩) v sc.bindings
  · rw [scopes_bind_of_ne _ _ _ _ hi]

namespace State.After

variable {s : State} {h : History}

/-- Every state with a history is grounded. -/
theorem grounded (hs : s.After h) : s.Grounded := by
  induction hs with
  | start => exact .empty
  | create _ houter ih => exact ih.newScope houter
  | bind x _ _ hv ih => exact ih.bind _ x hv
  | other _ hscopes hid ih =>
    have hle := Outnumbered.mk (Nat.le_of_eq (congrArg Array.size hscopes.symm)) hid
    exact ⟨hscopes ▸ ih.outer, fun hsc hv => (ih.binding (hscopes ▸ hsc) hv).mono hle⟩

/-- As many scopes are there as have been created. -/
theorem size_eq (hs : s.After h) : s.scopes.size = h.created := by
  induction hs with
  | start => rfl
  | create _ _ ih => rw [size_scopes_newScope, ih]; simp [History.created]
  | bind _ _ _ _ ih => rw [size_scopes_bind, ih]; simp [History.created]
  | other _ hscopes _ ih => rw [hscopes, ih]

/-- What a name is bound to in a scope is what it was last bound to there. -/
theorem own?_eq (hs : s.After h) (i : ScopeId) (x : String) : s.own? i x = h.last? i x := by
  induction hs with
  | start => rfl
  | create _ _ ih => rw [own?_newScope, ih]; rfl
  | @bind s h scope y v _ hscope _ ih =>
    by_cases heq : scope = i ∧ y = x
    · obtain ⟨rfl, rfl⟩ := heq
      rw [own?_bind_self hscope]
      exact (History.last?_eq_some_iff.2 ⟨[], h, rfl, fun _ => List.not_mem_nil⟩).symm
    · rw [own?_bind_of_ne _ _ heq, ih, History.last?, History.last?, List.findSome?_cons,
        Change.value?, if_neg heq]
  | other _ hscopes _ ih => rw [own?, hscopes]; exact ih

/-- Scopes have been created in the order of their numbers. -/
theorem exists_create (hs : s.After h) {i : ScopeId} {sc : Scope} (hsc : s.scopes[i]? = some sc) :
    ∃ newer older, h = newer ++ .create sc.outer :: older ∧ History.created older = i := by
  induction hs generalizing sc with
  | start => cases hsc
  | @create s h outer hs _ ih =>
    rcases scopes_newScope_cases hsc with hsc | ⟨rfl, rfl⟩
    · obtain ⟨newer, older, rfl, hcreated⟩ := ih hsc
      exact ⟨_ :: newer, older, rfl, hcreated⟩
    · exact ⟨[], h, rfl, hs.size_eq.symm⟩
  | bind _ _ _ _ ih =>
    obtain ⟨sc', hsc', hcases⟩ := scopes_bind_cases hsc
    obtain ⟨newer, older, rfl, hcreated⟩ := ih hsc'
    -- Binding a name leaves every scope within the same one.
    have houter : sc'.outer = sc.outer := by
      obtain rfl | ⟨-, rfl⟩ := hcases <;> rfl
    exact ⟨_ :: newer, older, by rw [houter]; rfl, hcreated⟩
  | other _ hscopes _ ih => exact ih (hscopes ▸ hsc)

end State.After

/-! ## Lookup -/

/-- The scopes from one outwards. -/
inductive State.Outwards (s : State) : ScopeId → List ScopeId → Prop
  | root {i : ScopeId} {sc : Scope} : s.scopes[i]? = some sc → sc.outer = none → Outwards s i [i]
  | within {i outer : ScopeId} {sc : Scope} {is : List ScopeId} : s.scopes[i]? = some sc →
      sc.outer = some outer → Outwards s outer is → Outwards s i (i :: is)

namespace State.Grounded

variable {s : State} {i : ScopeId} {is : List ScopeId}

/-- A name is looked up in a scope and then in the one around it, which is an earlier one. -/
theorem get?_eq (hs : s.Grounded) {sc : Scope} (hsc : s.scopes[i]? = some sc) (x : String) :
    s.get? i x = (Assoc.get? x sc.bindings).or (sc.outer.bind fun outer => s.get? outer x) := by
  rw [State.get?.eq_def, hsc]
  dsimp only
  cases Assoc.get? x sc.bindings with
  | some v => rfl
  | none =>
    cases houter : sc.outer with
    | none => rfl
    | some outer => exact if_pos (hs.outer hsc houter)

/-- From every scope there is a way outwards. -/
theorem exists_outwards (hs : s.Grounded) (hi : i < s.scopes.size) : ∃ is, s.Outwards i is := by
  induction i using Nat.strongRecOn with
  | _ i ih =>
    have hsc := Array.getElem?_eq_getElem hi
    cases houter : s.scopes[i].outer with
    | none => exact ⟨[i], .root hsc houter⟩
    | some outer =>
      have hlt := hs.outer hsc houter
      obtain ⟨is, his⟩ := ih outer hlt (Nat.lt_trans hlt hi)
      exact ⟨i :: is, .within hsc houter his⟩

theorem le_of_outwards (hs : s.Grounded) (h : s.Outwards i is) {k : ScopeId} (hk : k ∈ is) :
    k ≤ i := by
  induction h with
  | root _ _ => exact Nat.le_of_eq (List.mem_singleton.1 hk)
  | within hsc houter _ ih =>
    rcases List.mem_cons.1 hk with rfl | hk
    · exact Nat.le_refl _
    · exact Nat.le_of_lt (Nat.lt_of_le_of_lt (ih hk) (hs.outer hsc houter))

/-- On the way outwards every scope is older than the one before. -/
theorem pairwise_of_outwards (hs : s.Grounded) (h : s.Outwards i is) : is.Pairwise (· > ·) := by
  induction h with
  | root => exact List.pairwise_singleton _ _
  | within hsc houter his ih =>
    refine List.pairwise_cons.2 ⟨fun k hk => ?_, ih⟩
    exact Nat.lt_of_le_of_lt (hs.le_of_outwards his hk) (hs.outer hsc houter)

/-- A name stands for what the first of the scopes that binds it binds it to. -/
theorem get?_of_outwards (hs : s.Grounded) (h : s.Outwards i is) (x : String) :
    s.get? i x = is.findSome? (s.own? · x) := by
  induction h with
  | root hsc houter =>
    rw [hs.get?_eq hsc, houter, List.findSome?_singleton, own?, hsc]
    exact Option.or_none
  | within hsc houter _ ih =>
    rw [hs.get?_eq hsc, houter, List.findSome?_cons, own?, hsc, Option.bind_some, Option.bind_some,
      ih]
    cases Assoc.get? x _ <;> rfl

end State.Grounded

/-! ## Calls -/

namespace State

variable {s t : State}

/-- Names stand for the same where the scopes that there were are as they were. -/
theorem Untouched.get?_eq (h : Untouched s t) {i : ScopeId} (hi : i < s.scopes.size) (x : String) :
    t.get? i x = s.get? i x :=
  get?_congr (fun _ hle => h.scopes_eq (Nat.lt_of_le_of_lt hle hi)) x

/-- Names that are not bound stand for what they did. -/
theorem own?_bindAll_of_notMem (s : State) (scope : ScopeId) {xs : List String} {x : String}
    (hx : x ∉ xs) (vs : List Value) : (s.bindAll scope xs vs).own? scope x = s.own? scope x := by
  induction xs generalizing s vs with
  | nil => rfl
  | cons y xs ih =>
    cases vs with
    | nil => rfl
    | cons v vs =>
      rw [bindAll, ih _ fun hxs => hx (List.mem_cons_of_mem y hxs)]
      exact s.own?_bind_of_ne v fun heq => hx (heq.2 ▸ List.mem_cons_self)

/-- Of names that are bound more than once, the last counts. -/
theorem own?_bindAll {scope : ScopeId} (hscope : scope < s.scopes.size) {xs : List String}
    {vs : List Value} (hlength : xs.length = vs.length) {k : Nat} {x : String}
    (hx : xs[k]? = some x) (hlast : x ∉ xs.drop (k + 1)) :
    (s.bindAll scope xs vs).own? scope x = vs[k]? := by
  induction xs generalizing s vs k with
  | nil => cases hx
  | cons y xs ih =>
    obtain ⟨v, vs, rfl⟩ := List.exists_cons_of_length_eq_add_one hlength.symm
    cases k with
    | zero =>
      obtain rfl := Option.some.inj hx
      exact (own?_bindAll_of_notMem _ _ hlast vs).trans (own?_bind_self hscope y v)
    | succ k => exact ih (by rwa [size_scopes_bind]) (Nat.succ.inj hlength) hx hlast

end State

namespace State

variable {s : State} {h : History} {c : Closure} {args : List Value}

/-- Names that are bound in order are in the history the other way round. -/
theorem After.bindAll (hs : s.After h) {scope : ScopeId} (hscope : scope < s.scopes.size)
    (xs : List String) {vs : List Value} (hvs : ∀ v ∈ vs, s.Owns v) :
    (s.bindAll scope xs vs).After
      (((xs.zip vs).map fun e => Change.bind scope e.1 e.2).reverse ++ h) := by
  induction xs generalizing s h vs with
  | nil => exact hs
  | cons x xs ih =>
    cases vs with
    | nil => exact hs
    | cons v vs =>
      obtain ⟨hv, hvs⟩ := List.forall_mem_cons.1 hvs
      have hafter := ih (hs.bind x hscope hv) (by rwa [size_scopes_bind]) fun w hw =>
        (hvs w hw).mono (.bind s scope x v)
      rwa [List.zip_cons_cons, List.map_cons, List.reverse_cons, List.append_assoc]

/-- To enter a call is to create a scope and to bind the parameters in it. -/
theorem After.enter (hs : s.After h) (hc : c.scope < s.scopes.size)
    (hargs : ∀ v ∈ args, s.Owns v) :
    (s.enter c args).After
      (((c.params.zip args).map fun e => Change.bind s.scopes.size e.1 e.2).reverse ++
        .create (some c.scope) :: h) := by
  have hnew : (s.newScope (some c.scope)).2.After (.create (some c.scope) :: h) := by
    refine hs.create ?_
    rintro _ ⟨⟩
    exact hc
  exact hnew.bindAll (by simp) c.params fun v hv => (hargs v hv).mono (.newScope s _)

/-- A parameter stands for the argument at the last of its places. -/
theorem get?_enter_of_param (s : State) (hlength : c.params.length = args.length) {k : Nat}
    {x : String} (hx : c.params[k]? = some x) (hlast : x ∉ c.params.drop (k + 1)) :
    (s.enter c args).get? s.scopes.size x = args[k]? := by
  have hlt : k < args.length := hlength ▸ (List.getElem?_eq_some_iff.1 hx).1
  have hown : (s.enter c args).own? s.scopes.size x = some args[k] :=
    (own?_bindAll (by simp) hlength hx hlast).trans (List.getElem?_eq_getElem hlt)
  obtain ⟨sc, hsc, -, -⟩ := s.scopes_enter_self hlength
  rw [own?, hsc, Option.bind_some] at hown
  rw [State.get?, hsc, List.getElem?_eq_getElem hlt]
  dsimp only
  rw [hown]

/-- Other names stand for what they stand for where the function was created. -/
theorem get?_enter_of_notMem (hlength : c.params.length = args.length)
    (hc : c.scope < s.scopes.size) {x : String} (hx : x ∉ c.params) :
    (s.enter c args).get? s.scopes.size x = s.get? c.scope x := by
  obtain ⟨sc, hsc, houter, hnames⟩ := s.scopes_enter_self hlength
  have hnone : Assoc.get? x sc.bindings = none := by
    rw [← Option.not_isSome_iff_eq_none, Assoc.get?_isSome_iff]
    exact fun hmem => hx ((hnames x).1 hmem)
  rw [State.get?, hsc]
  dsimp only
  rw [hnone, houter]
  exact (if_pos hc).trans ((Untouched.enter s c args).get?_eq hc x)

end State

/-! ## Runs -/

/-- A history, with the number of the next array, hash or function. -/
structure Chronicle where
  history : History
  nextId : ObjectId

/-- Changes are only added, and numbers are not given out again. -/
instance : Preorder Chronicle where
  le w u := w.history <:+ u.history ∧ w.nextId ≤ u.nextId
  le_refl w := ⟨List.suffix_rfl, Nat.le_refl w.nextId⟩
  le_trans _ _ _ h h' := ⟨h.1.trans h'.1, Nat.le_trans h.2 h'.2⟩

/-- What the chronicle has is what there is in the state. -/
theorem Chronicle.owns_eq {w : Chronicle} {s : State}
    (hs : s.After w.history ∧ s.nextId = w.nextId) :
    s.Owns = Value.Confined (fun v => ∀ id ∈ v.id?, id < w.nextId) (· < w.history.created) := by
  rw [← hs.1.size_eq, ← hs.2]
  rfl

/-- What is done to the scopes can be written down on the way. -/
def Ledger.history : Ledger Chronicle where
  states w s := s.After w.history ∧ s.nextId = w.nextId
  values w v := ∀ id ∈ v.id?, id < w.nextId
  scopes w i := i < w.history.created
  values_mono h hv id hid := Nat.lt_of_lt_of_le (hv id hid) h.2
  scopes_mono h hi := Nat.lt_of_lt_of_le hi h.1.sublist.countP_le
  start := ⟨⟨[], 0⟩, .start, rfl⟩
  plain hid id hmem := by
    rw [hid] at hmem
    cases hmem
  scope_of_lt hs hi := hs.1.size_eq ▸ hi
  outer hs hi hsc houter := Nat.lt_trans (hs.1.grounded.outer hsc houter) hi
  binding hs _ hsc hv := Chronicle.owns_eq hs ▸ hs.1.grounded.binding hsc hv
  congr hs hscopes hid := ⟨hs.1.other hscopes (Nat.le_of_eq hid.symm), hid.trans hs.2⟩
  newScope {w _ outer} hs houter := by
    refine ⟨⟨.create outer :: w.history, w.nextId⟩, ⟨List.suffix_cons _ _, Nat.le_refl _⟩, ?_, hs.2⟩
    exact hs.1.create fun i hi => hs.1.size_eq ▸ houter i hi
  bind {w _ i v} x hs hi hv := by
    refine ⟨⟨.bind i x v :: w.history, w.nextId⟩, ⟨List.suffix_cons _ _, Nat.le_refl _⟩, ?_, hs.2⟩
    exact hs.1.bind x (hs.1.size_eq ▸ hi) (Chronicle.owns_eq hs ▸ hv)
  create {w s v} hs hid _ := by
    refine ⟨⟨w.history, w.nextId + 1⟩, ⟨List.suffix_rfl, Nat.le_succ _⟩, ⟨?_, ?_⟩, ?_⟩
    · exact hs.1.other rfl (Nat.le_succ _)
    · exact congrArg (· + 1) hs.2
    · rintro id hmem
      obtain rfl : s.nextId = id := Option.some.inj (hid.symm.trans hmem)
      exact hs.2 ▸ Nat.lt_succ_self _

/-- What is known of a state by its chronicle has been created. -/
theorem Ledger.history_knows {w : Chronicle} {s : State} (hs : Ledger.history.states w s)
    {v : Value} (hv : Ledger.history.Knows w v) : s.Owns v :=
  Chronicle.owns_eq hs ▸ hv

/-! ## Names -/

/-- What names stand for in a state with the history. -/
structure State.Resolves (s : State) (h : History) : Prop where
  /-- A scope lies within one that was created before it. -/
  created {i : ScopeId} {sc : Scope} : s.scopes[i]? = some sc →
    ∃ newer older, h = newer ++ .create sc.outer :: older ∧ History.created older = i ∧
      ∀ outer ∈ sc.outer, outer < i
  /-- Names are looked up from a scope outwards, without any further test. -/
  lookup {i : ScopeId} {sc : Scope} (x : String) : s.scopes[i]? = some sc →
    s.get? i x = (Assoc.get? x sc.bindings).or (sc.outer.bind fun outer => s.get? outer x)
  /-- The lookup comes to an end at a root. A name stands for what it was bound to last in the
      nearest scope where it ever was, and for nothing if there is none. -/
  nearest {i : ScopeId} : i < s.scopes.size →
    ∃ is, s.Outwards i is ∧ is.Pairwise (· > ·) ∧ ∀ x,
      (∀ v, s.get? i x = some v ↔ ∃ nearer k farther, is = nearer ++ k :: farther ∧
        h.Latest k x v ∧ ∀ l ∈ nearer, ∀ w, .bind l x w ∉ h) ∧
      (s.get? i x = none ↔ ∀ k ∈ is, ∀ v, .bind k x v ∉ h)

/-- What names stand for can be told from the history. -/
theorem State.After.resolves {s : State} {h : History} (hs : s.After h) : s.Resolves h where
  created hsc := by
    obtain ⟨newer, older, heq, hcreated⟩ := hs.exists_create hsc
    exact ⟨newer, older, heq, hcreated, fun _ => hs.grounded.outer hsc⟩
  lookup x hsc := hs.grounded.get?_eq hsc x
  nearest hi := by
    obtain ⟨is, his⟩ := hs.grounded.exists_outwards hi
    refine ⟨is, his, hs.grounded.pairwise_of_outwards his, fun x => ?_⟩
    have hget := (hs.grounded.get?_of_outwards his x).trans
      (congrArg (is.findSome? ·) (funext fun k => hs.own?_eq k x))
    rw [hget]
    constructor
    · simp only [List.findSome?_eq_some_iff, History.last?_eq_some_iff, History.last?_eq_none_iff,
        implies_true]
    · simp only [List.findSome?_eq_none_iff, History.last?_eq_none_iff]

/-- How the history of a state goes on. -/
structure State.GoesOn (s : State) (h : History) : Prop where
  /-- A statement that gives a value a name binds it in the scope of its evaluation. -/
  bind {apply : Value → List Value → Eval Value} {r : State} {scope : ScopeId} {e : Expr}
    {v : Value} (x : String) : (e.eval apply scope).run r = (.value v, s) →
    scope < s.scopes.size → s.Owns v →
    ((Stmt.bind x e).eval apply scope).run r = (.value .null, s.bind scope x v) ∧
      (s.bind scope x v).After (.bind scope x v :: h)
  /-- The body of a function is evaluated in a new scope. There a parameter stands for the
      argument at the last of its places, and any other name for what it stands for, by then, in
      the scope in which the function was created. -/
  call {c : Closure} {args : List Value} : c.params.length = args.length →
    c.scope < s.scopes.size → (∀ v ∈ args, s.Owns v) →
    (∀ depth id, ((Value.function id c).apply (depth + 1) args).run s =
      (catchReturn (c.body.eval (Value.apply depth) s.scopes.size)).run (s.enter c args)) ∧
    (s.enter c args).After
      (((c.params.zip args).map fun e => Change.bind s.scopes.size e.1 e.2).reverse ++
        .create (some c.scope) :: h) ∧
    (∀ k x, c.params[k]? = some x → x ∉ c.params.drop (k + 1) →
      (s.enter c args).get? s.scopes.size x = args[k]?) ∧
    ∀ x, x ∉ c.params → (s.enter c args).get? s.scopes.size x = s.get? c.scope x
  /-- An evaluation adds to the history, however it ends. -/
  eval (depth : Nat) (p : Program) {scope : ScopeId} : scope < s.scopes.size →
    ∃ newer, ((p.eval depth scope).run s).2.After (newer ++ h) ∧
      ∀ m ∈ ((p.trace depth scope).run s []).2, ∃ before, before <:+ newer ++ h ∧
        m.state.After before

/-- Every scope and every state has a history that can go on. -/
theorem State.After.goesOn {s : State} {h : History} (hs : s.After h) : s.GoesOn h where
  bind x hrun hscope hv := by
    refine ⟨?_, hs.bind x hscope hv⟩
    rw [Stmt.eval_bind, run_bind, hrun]
    rfl
  call hlength hc hargs :=
    ⟨fun _ _ => Value.run_apply_function hlength _, hs.enter hc hargs,
      fun _ _ => get?_enter_of_param _ hlength, fun _ => get?_enter_of_notMem hlength hc⟩
  eval depth p _ hscope := by
    have hstates : Ledger.history.states ⟨h, s.nextId⟩ s := ⟨hs, rfl⟩
    have hfollows := p.trace_follows depth (Ledger.history.scope_of_lt hstates hscope)
    obtain ⟨⟨h', _⟩, ⟨⟨newer, rfl⟩, -⟩, haccounts, -⟩ :=
      hfollows _ (le_refl _) s [] ⟨hstates, List.forall_mem_nil _⟩
    refine ⟨newer, ?_, fun m hm => ?_⟩
    · rw [← p.erases_trace depth _ s []]
      exact haccounts.states.1
    · obtain ⟨u, hu, hstate, -⟩ := haccounts.moments m hm
      exact ⟨u.history, hu.1, hstate.1⟩

/-- Whatever a host does, the scopes have a history, and so they had at each moment of the
    evaluations, when a part of it had come about. In every state with a history, scopes lie
    within earlier ones. A name stands for what it was bound to last in the nearest scope where
    it ever was, if there is one. In the scope of a call, this is the argument at the last place
    of a parameter; other names stand for what they do where the function was created. -/
theorem Hosted.resolves_names :
    (∀ (s : State) (held : List Value) (j : Journal), Hosted s held j →
      ∃ h, s.After h ∧ (∀ v ∈ held, s.Owns v) ∧ ∀ m ∈ j, ∃ before, before <:+ h ∧
        m.state.After before ∧ ∀ v, m.Gives v → m.state.Owns v) ∧
    ∀ (s : State) (h : History), s.After h → s.Resolves h ∧ s.GoesOn h := by
  refine ⟨fun s held j hhosted => ?_, fun s h hs => ⟨hs.resolves, hs.goesOn⟩⟩
  obtain ⟨w, haccounts, hheld⟩ := hhosted.exists_accounts Ledger.history
  have hstates := haccounts.states
  refine ⟨w.history, hstates.1, fun v hv => Ledger.history_knows hstates (hheld v hv), ?_⟩
  intro m hm
  obtain ⟨u, hu, hstate, hknows⟩ := haccounts.moments m hm
  exact ⟨u.history, hu.1, hstate.1, fun v hv => Ledger.history_knows hstate (hknows v hv)⟩

/-- A name that is bound twice, and a call with a parameter that stands in two places. -/
theorem Hosted.resolves_names_twice :
    let s := ((State.empty.newScope none).2.bind 0 "x" (.int 1)).bind 0 "x" (.int 5)
    let c : Closure := ⟨["a", "b", "a"], [.expr (.ident "x")], 0⟩
    let t := s.enter c [.int 2, .int 3, .int 4]
    Hosted s [.int 5, .int 1] [] ∧ (∃ h, s.After h ∧ s.Resolves h) ∧
      t.get? 1 "a" = some (.int 4) ∧ t.get? 1 "b" = some (.int 3) ∧
      t.get? 1 "x" = some (.int 5) := by
  intro s c t
  have hone : Hosted (State.empty.newScope none).2 [.int 1] [] :=
    .make (.newScope none .start nofun) rfl nofun
  have hhosted : Hosted s [.int 5, .int 1] [] :=
    .bind "x" (.make (.bind "x" hone Nat.zero_lt_one List.mem_cons_self) rfl nofun)
      Nat.zero_lt_one List.mem_cons_self
  obtain ⟨h, hs, -, -⟩ := Hosted.resolves_names.1 s _ _ hhosted
  obtain ⟨hresolves, hgoesOn⟩ := Hosted.resolves_names.2 s h hs
  have hargs : ∀ v ∈ [Value.int 2, .int 3, .int 4], s.Owns v := by
    have hS := Owns.hereditary s
    exact List.forall_mem_cons.2 ⟨hS.int 2, List.forall_mem_cons.2 ⟨hS.int 3,
      List.forall_mem_singleton.2 (hS.int 4)⟩⟩
  obtain ⟨-, -, hparams, hothers⟩ := hgoesOn.call (c := c) rfl Nat.zero_lt_one hargs
  have hx : s.get? 0 "x" = some (.int 5) := by cbv
  exact ⟨hhosted, ⟨h, hs, hresolves⟩, hparams 2 "a" rfl (by decide),
    hparams 1 "b" rfl (by decide), (hothers "x" (by decide)).trans hx⟩

end Monkey
