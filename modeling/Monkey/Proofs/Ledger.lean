import Monkey.Proofs.Grounded
import Monkey.Proofs.Lexical

/-!
# Ledgers

What is true of all of a run often cannot be told from the state alone: what an array was
created with is nowhere to be found once nothing refers to it. A *ledger* is what is written
down besides (`Ledger`). It is only ever added to, so what is known of a value by its entries
stays known.

An evaluation *follows* a ledger (`Traced.Follows`) if it leads from states that the ledger is
right for to such states, with entries added, and to values that are known by then. All
evaluations do, as the few steps do that they are made of (`Expr.trace_follows`,
`Value.trace_follows`).

Evaluations are not all there is to a run. A host creates scopes and values, has programs
evaluated and works on with what they give (`Hosted`). The main statement of this module is
that a ledger is right for all of this: it has entries for everything that ever comes up
(`Hosted.knows_of_comesUp`).
-/

namespace Monkey

open Eval Traced State

/-! ## Entries -/

/-- What is written down about a run, as entries `W` that are only added to. They are right for
    a state, and tell something of the values and scopes that there are. -/
structure Ledger (W : Type) [Preorder W] where
  /-- The entries are right for the state. -/
  states : W → State → Prop
  /-- What the entries have on the value itself, apart from what it refers to. -/
  values : W → Value → Prop
  /-- The entries have the scope. -/
  scopes : W → ScopeId → Prop
  values_mono {w u : W} {v : Value} : w ≤ u → values w v → values u v
  scopes_mono {w u : W} {i : ScopeId} : w ≤ u → scopes w i → scopes u i
  start : ∃ w, states w .empty
  /-- Nothing is to be written down about what has no identity. -/
  plain {w : W} {v : Value} : v.id? = none → values w v
  scope_of_lt {w : W} {s : State} {i : ScopeId} : states w s → i < s.scopes.size → scopes w i
  outer {w : W} {s : State} {i outer : ScopeId} {sc : Scope} : states w s → scopes w i →
    s.scopes[i]? = some sc → sc.outer = some outer → scopes w outer
  binding {w : W} {s : State} {i : ScopeId} {sc : Scope} {x : String} {v : Value} : states w s →
    scopes w i → s.scopes[i]? = some sc → (x, v) ∈ sc.bindings →
    v.Confined (values w) (scopes w)
  congr {w : W} {s t : State} : states w s → t.scopes = s.scopes → t.nextId = s.nextId → states w t
  newScope {w : W} {s : State} {outer : Option ScopeId} : states w s →
    (∀ i ∈ outer, scopes w i) → ∃ u, w ≤ u ∧ states u (s.newScope outer).2
  bind {w : W} {s : State} {i : ScopeId} {v : Value} (x : String) : states w s → scopes w i →
    v.Confined (values w) (scopes w) → ∃ u, w ≤ u ∧ states u (s.bind i x v)
  create {w : W} {s : State} {v : Value} : states w s → v.id? = some s.nextId →
    (∀ n, v.Refers n → n.Confined (values w) (scopes w)) →
    ∃ u, w ≤ u ∧ states u s.newId.2 ∧ values u v

namespace Ledger

variable {W : Type} [Preorder W] (L : Ledger W) {w u : W} {s t : State} {v : Value}

/-- The entries have the value and all that it refers to. -/
def Knows (w : W) (v : Value) : Prop :=
  v.Confined (L.values w) (L.scopes w)

variable {L}

/-- What is known stays known. -/
theorem Knows.mono (h : w ≤ u) (hv : L.Knows w v) : L.Knows u v :=
  hv.imp (fun _ => L.values_mono h) fun _ => L.scopes_mono h

/-- What the entries have is had by every later ledger. -/
theorem confined_mono (h : w ≤ u) {n : Node} (hn : n.Confined (L.values w) (L.scopes w)) :
    n.Confined (L.values u) (L.scopes u) := by
  cases n with
  | scope i => exact L.scopes_mono h hn
  | value v => exact Knows.mono h hn

/-- A value is known with its parts. -/
theorem hereditary_knows (w : W) : Value.Hereditary (L.Knows w) :=
  Value.Confined.hereditary_of_id? fun _ => L.plain

/-- What has just been created is known. -/
theorem exists_knows_create (hs : L.states w s) (hid : v.id? = some s.nextId)
    (hrefers : ∀ n, v.Refers n → n.Confined (L.values w) (L.scopes w)) :
    ∃ u, w ≤ u ∧ L.states u s.newId.2 ∧ L.Knows u v := by
  obtain ⟨u, hwu, hu, hv⟩ := L.create hs hid hrefers
  exact ⟨u, hwu, hu, .intro hv (fun x hx => confined_mono hwu (hrefers (.value x) hx)) fun i hi =>
    confined_mono hwu (hrefers (.scope i) hi)⟩

/-- No chain of references leads to what the entries do not have. -/
theorem reaches (hs : L.states w s) {m n : Node} (hmn : s.Reaches m n)
    (hm : m.Confined (L.values w) (L.scopes w)) : n.Confined (L.values w) (L.scopes w) :=
  Node.Confined.of_reaches (L.outer hs) (L.binding hs) hmn hm

/-- What a name stands for is known, if the entries have the scope. -/
theorem knows_of_get? (hs : L.states w s) {scope : ScopeId} (hscope : L.scopes w scope) {x : String}
    (hv : s.get? scope x = some v) : L.Knows w v :=
  L.reaches hs (reaches_of_get? hv) hscope

/-- Names are bound to known values, one entry after the other. -/
theorem exists_bindAll (hs : L.states w s) {scope : ScopeId} (hscope : L.scopes w scope)
    (xs : List String) {vs : List Value} (hvs : ∀ v ∈ vs, L.Knows w v) :
    ∃ u, w ≤ u ∧ L.states u (s.bindAll scope xs vs) := by
  induction xs generalizing w s vs with
  | nil => exact ⟨w, le_refl w, hs⟩
  | cons x xs ih =>
    cases vs with
    | nil => exact ⟨w, le_refl w, hs⟩
    | cons v vs =>
      obtain ⟨hv, hvs⟩ := List.forall_mem_cons.1 hvs
      obtain ⟨u, hwu, hu⟩ := L.bind x hs hscope hv
      obtain ⟨t, hut, ht⟩ := ih hu (L.scopes_mono hwu hscope) fun v hv => (hvs v hv).mono hwu
      exact ⟨t, le_trans hwu hut, ht⟩

/-- A call is entered in a scope that the entries have. -/
theorem exists_enter (hs : L.states w s) {id : ObjectId} {c : Closure}
    (hf : L.Knows w (.function id c)) {args : List Value} (hargs : ∀ v ∈ args, L.Knows w v) :
    ∃ u, w ≤ u ∧ L.states u (s.enter c args) ∧ L.scopes u s.scopes.size := by
  have hc : ∀ i ∈ some c.scope, L.scopes w i := by
    rintro _ ⟨⟩
    exact hf.refers .closure
  obtain ⟨u, hwu, hu⟩ := L.newScope hs hc
  have hscope : L.scopes u s.scopes.size := L.scope_of_lt hu (by simp)
  obtain ⟨t, hut, ht⟩ := L.exists_bindAll hu hscope c.params fun v hv => (hargs v hv).mono hwu
  exact ⟨t, le_trans hwu hut, ht, L.scopes_mono hut hscope⟩

/-- The entries are right for the state, and those that there were at each of the moments were
    right for its state and knew what it gave. -/
structure Accounts (L : Ledger W) (w : W) (s : State) (j : Journal) : Prop where
  states : L.states w s
  moments : ∀ m ∈ j, ∃ u, u ≤ w ∧ L.states u m.state ∧ ∀ v, m.Gives v → L.Knows u v

theorem Accounts.mono {j : Journal} (h : L.Accounts w s j) (hwu : w ≤ u) (ht : L.states u t) :
    L.Accounts u t j where
  states := ht
  moments m hm := by
    obtain ⟨v, hvw, hv⟩ := h.moments m hm
    exact ⟨v, le_trans hvw hwu, hv⟩

/-- One more moment may come at the state that the entries are right for. -/
theorem Accounts.push {j : Journal} (h : L.Accounts w s j) {m : Moment} (hstate : m.state = s)
    (hvalue : ∀ v, m.Gives v → L.Knows w v) : L.Accounts w s (m :: j) where
  states := h.states
  moments := List.forall_mem_cons.2
    ⟨⟨w, le_refl w, hstate ▸ h.states, hvalue⟩, h.moments⟩

end Ledger

/-! ## Evaluations -/

namespace Traced

variable {W : Type} [Preorder W] {L : Ledger W} {w : W} {α β : Type} {Q : W → α → Prop}
  {R : W → β → Prop}

/-- From every state that the entries or later ones are right for, the evaluation leads to a
    state that entries are right for which are later still. These know its value if it is on its
    way out of a function or carried by an error, and otherwise the value has the property `Q`. -/
def Follows (L : Ledger W) (w : W) (Q : W → α → Prop) (m : Traced α) : Prop :=
  ∀ v, w ≤ v → ∀ s j, L.Accounts v s j → ∃ u, v ≤ u ∧
    L.Accounts u (m.run s j).1.2 (m.run s j).2 ∧ (m.run s j).1.1.Holds (L.Knows u) (Q u)

/-- An evaluation without moments may be cut in two. -/
theorem lift_bind (m : Eval α) (k : α → Eval β) :
    lift (m >>= k) = lift m >>= fun a => lift (k a) := by
  refine congrArg Traced.mk (funext fun s => funext fun j => ?_)
  simp only [Eval.run_bind, lift]
  rcases m.run s with ⟨_ | _ | _ | _, _⟩ <;> rfl

namespace Follows

theorem pure {a : α} (h : ∀ v, w ≤ v → Q v a) : Follows L w Q (pure a) :=
  fun v hv _ _ hs => ⟨v, le_refl v, hs, h v hv⟩

/-- An evaluation without moments. -/
theorem lift {m : Eval α} (h : ∀ v, w ≤ v → ∀ s, L.states v s → ∃ u, v ≤ u ∧
    L.states u (m.run s).2 ∧ (m.run s).1.Holds (L.Knows u) (Q u)) : Follows L w Q (lift m) := by
  intro v hv s j hs
  obtain ⟨u, hvu, hu, hholds⟩ := h v hv s hs.states
  exact ⟨u, hvu, hs.mono hvu hu, hholds⟩

/-- The second part goes on from later entries, with a value that they know something of. -/
theorem bind {m : Traced α} {k : α → Traced β} (hm : Follows L w Q m)
    (hk : ∀ v, w ≤ v → ∀ a, Q v a → Follows L v R (k a)) : Follows L w R (m >>= k) := by
  intro v hv s j hs
  obtain ⟨u, hvu, hu, hholds⟩ := hm v hv s j hs
  rw [Traced.run_bind]
  -- What has not ended in a value is left as it is.
  rcases hrun : m.run s j with ⟨⟨a | x | e | _, t⟩, j'⟩ <;> rw [hrun] at hu hholds
  · obtain ⟨u', huu', h⟩ := hk u (le_trans hv hvu) a hholds u (le_refl u) t j' hu
    exact ⟨u', le_trans hvu huu', h⟩
  · exact ⟨u, hvu, hu, hholds⟩
  · exact ⟨u, hvu, hu, hholds⟩
  · exact ⟨u, hvu, hu, hholds⟩

/-- Two parts without moments follow as they would with some. -/
theorem bind_lift {m : Eval α} {k : α → Eval β} (hm : Follows L w Q (Traced.lift m))
    (hk : ∀ v, w ≤ v → ∀ a, Q v a → Follows L v R (Traced.lift (k a))) :
    Follows L w R (Traced.lift (m >>= k)) := by
  rw [lift_bind]
  exact hm.bind hk

/-- A value on its way out of a function is known as well. -/
theorem catchReturn {m : Traced Value} (hm : Follows L w L.Knows m) :
    Follows L w L.Knows (catchReturn m) := by
  intro v hv s j hs
  obtain ⟨u, hvu, hu, hholds⟩ := hm v hv s j hs
  refine ⟨u, hvu, ?_⟩
  rw [Traced.run_catchReturn]
  rcases hrun : m.run s j with ⟨⟨a | x | e | _, t⟩, j'⟩ <;> rw [hrun] at hu hholds <;>
    exact ⟨hu, hholds⟩

/-- The start of an evaluation gives nothing, and its end gives what it has ended in. -/
theorem note {path : Path} {tree : Tree} {scope : ScopeId} {m : Traced Value}
    (hm : Follows L w L.Knows m) : Follows L w L.Knows (note path tree scope m) := by
  intro v hv s j hs
  have hstart := hs.push (m := ⟨path, tree, scope, s, none⟩) rfl (by rintro x ⟨_, h, -⟩; cases h)
  obtain ⟨u, hvu, hu, hholds⟩ := hm v hv s _ hstart
  exact ⟨u, hvu, hu.push rfl fun _ hx => hx.holds rfl hholds, hholds⟩

/-! ### Steps -/

/-- The values that the error is about must be known. -/
theorem fail {e : EvalError} {xs : List Value} (he : e.About xs) (hxs : ∀ x ∈ xs, L.Knows w x) :
    Follows L w Q (Traced.lift (fail e)) :=
  .lift fun v hv _ hs => ⟨v, le_refl v, hs, he.forall_values fun x hx => (hxs x hx).mono hv⟩

/-- The value that is returned must be known. -/
theorem leave {x : Value} (hx : L.Knows w x) : Follows L w Q (Traced.lift (leave x)) :=
  .lift fun v hv _ hs => ⟨v, le_refl v, hs, hx.mono hv⟩

/-- Operations on known values are in error about these. -/
theorem ofExcept {r : Except EvalError α} {xs : List Value} (hxs : ∀ x ∈ xs, L.Knows w x)
    (he : ∀ e, r = .error e → e.About xs) (h : ∀ v, w ≤ v → ∀ a, r = .ok a → Q v a) :
    Follows L w Q (Traced.lift (ofExcept r)) := by
  cases r with
  | ok a => exact .pure fun v hv => h v hv a rfl
  | error e => exact .fail (he e rfl) hxs

/-- A known value may be handed on. -/
theorem give {x : Value} (hx : L.Knows w x) : Follows L w L.Knows (Traced.lift (give x)) := by
  cases x with
  | ret x => exact .leave ((L.hereditary_knows w).ret hx)
  | _ => exact .pure fun v hv => hx.mono hv

/-- A name that is looked up gives a value that is known. -/
theorem lookup {scope : ScopeId} (hscope : L.scopes w scope) (x : String) :
    Follows L w L.Knows (Traced.lift (lookup scope x)) := by
  refine .lift fun v hv s hs => ⟨v, le_refl v, ?_⟩
  rw [run_lookup]
  split
  · next y hy => exact ⟨hs, L.knows_of_get? hs (L.scopes_mono hv hscope) hy⟩
  · next b _ _ => exact ⟨hs, (L.hereditary_knows v).builtin b⟩
  · exact ⟨hs, List.forall_mem_nil _⟩

/-- A known value may be bound, which is an entry. -/
theorem bindName {scope : ScopeId} (hscope : L.scopes w scope) (x : String) {y : Value}
    (hy : L.Knows w y) : Follows L w (fun _ _ => True) (Traced.lift (bindName scope x y)) := by
  refine .lift fun v hv s hs => ?_
  obtain ⟨u, hvu, hu⟩ := L.bind x hs (L.scopes_mono hv hscope) (hy.mono hv)
  exact ⟨u, hvu, hu, trivial⟩

/-- Something is created, of parts that are known. -/
theorem create {make : ObjectId → Value} (hid : ∀ id, (make id).id? = some id)
    (hrefers : ∀ id n, (make id).Refers n → n.Confined (L.values w) (L.scopes w)) :
    Follows L w L.Knows (Traced.lift (do return make (← onState State.newId))) := by
  refine .lift fun v hv s hs => ?_
  obtain ⟨u, hvu, hu, hknows⟩ := L.exists_knows_create hs (hid s.nextId) fun n hn =>
    Ledger.confined_mono hv (hrefers s.nextId n hn)
  exact ⟨u, hvu, hu, hknows⟩

/-- An array of known values is known once it has been created. -/
theorem newArray {vs : List Value} (hvs : ∀ v ∈ vs, L.Knows w v) :
    Follows L w L.Knows (Traced.lift (newArray vs)) := by
  refine .create (fun _ => rfl) ?_
  rintro _ _ ⟨hv⟩
  exact hvs _ hv

theorem newHash {entries : List (HashKey × Value × Value)}
    (hentries : Value.OfEntries (L.Knows w) entries) :
    Follows L w L.Knows (Traced.lift (newHash entries)) := by
  refine .create (fun _ => rfl) ?_
  rintro _ _ (_ | he | he)
  · exact (hentries _ he).1
  · exact (hentries _ he).2

theorem newFunction {scope : ScopeId} (hscope : L.scopes w scope) (params : List String)
    (body : Block) : Follows L w L.Knows (Traced.lift (newFunction ⟨params, body, scope⟩)) := by
  refine .create (fun _ => rfl) ?_
  rintro _ _ ⟨⟩
  exact hscope

/-- Built-in functions give known values for known arguments. -/
theorem call (b : Builtin) {args : List Value} (hargs : ∀ v ∈ args, L.Knows w v) :
    Follows L w L.Knows (Traced.lift (b.call args)) := by
  refine .lift fun v hv s hs => ?_
  have hargs : ∀ a ∈ args, L.Knows v a := fun a ha => (hargs a ha).mono hv
  have hS := L.hereditary_knows v
  have hdoes := b.does_call args s
  generalize (b.call args).run s = r at hdoes
  cases hdoes with
  | fails he => exact ⟨v, le_refl v, hs, he.forall_values hargs⟩
  | prints text => exact ⟨v, le_refl v, L.congr hs rfl rfl, hS.null⟩
  | gives h => exact ⟨v, le_refl v, hs, h _ hS hargs⟩
  | creates h =>
    refine L.exists_knows_create hs rfl ?_
    rintro _ ⟨hx⟩
    exact h _ hS hargs _ hx

/-- A function that is known is called in a scope that the entries have. -/
theorem enter {id : ObjectId} {c : Closure} {args : List Value} (hf : L.Knows w (.function id c))
    (hargs : ∀ v ∈ args, L.Knows w v) {body : Path → ScopeId → Traced Value}
    (hbody : ∀ v path scope, L.scopes v scope → Follows L v L.Knows (body path scope)) :
    Follows L w L.Knows (enter id c args body) := by
  intro v hv s j hs
  obtain ⟨u, hvu, hu, hscope⟩ :=
    L.exists_enter hs.states (hf.mono hv) fun a ha => (hargs a ha).mono hv
  obtain ⟨t, hut, h⟩ :=
    hbody u (j.origin id c) s.scopes.size hscope u (le_refl u) _ j (hs.mono hvu hu)
  exact ⟨t, le_trans hvu hut, h⟩

end Follows

end Traced

open Traced (Follows)

/-! ## Trees -/

section

variable {W : Type} [Preorder W] {L : Ledger W}

/-- Known values applied to known ones come to values that are known. -/
abbrev ApplyFollows (L : Ledger W) (apply : Value → List Value → Traced Value) : Prop :=
  ∀ w f args, L.Knows w f → (∀ v ∈ args, L.Knows w v) → Follows L w L.Knows (apply f args)

variable {apply : Value → List Value → Traced Value}

mutual

/-- Evaluating an expression in a scope that the entries have gives a value that is known. -/
theorem Expr.trace_follows (happly : ApplyFollows L apply) (e : Expr) {w : W} (path : Path)
    {scope : ScopeId} (hscope : L.scopes w scope) :
    Follows L w L.Knows (e.trace apply path scope) := by
  rw [Expr.trace, Expr.evaluate.eq_def]
  have hS := fun v => L.hereditary_knows v
  refine .note ?_
  match e with
  | .ident x => exact (Follows.lookup hscope x).bind_lift fun _ _ _ hx => .give hx
  | .int _ => exact .pure fun v _ => (hS v).int _
  | .str _ => exact .pure fun v _ => (hS v).str _
  | .bool _ => exact .pure fun v _ => (hS v).bool _
  | .array es =>
    exact (Expr.traceList_follows happly es _ hscope).bind fun _ _ _ hvs => .newArray hvs
  | .hash ps =>
    refine (Expr.tracePairs_follows happly [] ?_ ps _ hscope).bind fun _ _ _ hes => .newHash hes
    exact fun _ h => absurd h List.not_mem_nil
  | .unary _ e =>
    refine (e.trace_follows happly _ hscope).bind fun w _ x hx => ?_
    exact .ofExcept (List.forall_mem_singleton.2 hx) (fun _ => Value.about_of_unary)
      fun v _ _ => (hS v).unary
  | .binary _ l r =>
    refine (l.trace_follows happly _ hscope).bind fun w hw x hx => ?_
    refine (r.trace_follows happly _ (L.scopes_mono hw hscope)).bind fun w' hw' y hy => ?_
    have hxy := List.forall_mem_cons.2 ⟨hx.mono hw', List.forall_mem_singleton.2 hy⟩
    exact .ofExcept hxy (fun _ => Value.about_of_binary) fun v _ _ => (hS v).binary
  | .cond c yes none =>
    refine (c.trace_follows happly _ hscope).bind fun w hw v _ => ?_
    cases v.truthy with
    | true => exact Stmt.traceFrom_follows happly (hS w).null yes _ (L.scopes_mono hw hscope)
    | false => exact .pure fun v _ => (hS v).null
  | .cond c yes (some no) =>
    refine (c.trace_follows happly _ hscope).bind fun w hw v _ => ?_
    cases v.truthy with
    | true => exact Stmt.traceFrom_follows happly (hS w).null yes _ (L.scopes_mono hw hscope)
    | false => exact Stmt.traceFrom_follows happly (hS w).null no _ (L.scopes_mono hw hscope)
  | .function params body => exact .newFunction hscope params body
  | .call callee args =>
    refine (callee.trace_follows happly _ hscope).bind fun w hw f hf => ?_
    refine (Expr.traceList_follows happly args _ (L.scopes_mono hw hscope)).bind ?_
    intro w' hw' vs hvs
    exact (happly w' f vs (hf.mono hw') hvs).bind fun _ _ _ hx => .give hx
  | .index container key =>
    refine (container.trace_follows happly _ hscope).bind fun w hw c hc => ?_
    refine (key.trace_follows happly _ (L.scopes_mono hw hscope)).bind fun w' hw' k hk => ?_
    have hc := hc.mono hw'
    have hck := List.forall_mem_cons.2 ⟨hc, List.forall_mem_singleton.2 hk⟩
    have hindex : Follows L w' L.Knows (Traced.lift (ofExcept (Value.index c k))) :=
      .ofExcept hck (fun _ => Value.about_of_index) fun v hv _ => (hS v).index (hc.mono hv)
    exact hindex.bind_lift fun _ _ _ hx => .give hx
termination_by structural e

theorem Expr.traceList_follows (happly : ApplyFollows L apply) (es : List Expr) {w : W}
    (path : Path) {scope : ScopeId} (hscope : L.scopes w scope) :
    Follows L w (fun w vs => ∀ v ∈ vs, L.Knows w v) (Expr.traceList apply es path scope) := by
  match es with
  | [] => exact .pure fun _ _ _ h => absurd h List.not_mem_nil
  | e :: es =>
    refine (e.trace_follows happly _ hscope).bind fun w hw v hv => ?_
    refine (Expr.traceList_follows happly es _ (L.scopes_mono hw hscope)).bind ?_
    intro w' hw' vs hvs
    refine .pure fun u hu => List.forall_mem_cons.2 ⟨hv.mono (le_trans hw' hu), fun x hx => ?_⟩
    exact (hvs x hx).mono hu
termination_by structural es

/-- Pairs give entries that are known, key by key and value by value. -/
theorem Expr.tracePairs_follows (happly : ApplyFollows L apply)
    (entries : List (HashKey × Value × Value)) {w : W}
    (hentries : Value.OfEntries (L.Knows w) entries) (ps : List (Expr × Expr)) (path : Path)
    {scope : ScopeId} (hscope : L.scopes w scope) :
    Follows L w (fun w es => Value.OfEntries (L.Knows w) es)
      (Expr.tracePairs apply entries ps path scope) := by
  match ps with
  | [] => exact .pure fun v hv e he => (hentries e he).imp (.mono hv) (.mono hv)
  | (k, v) :: ps =>
    refine (k.trace_follows happly _ hscope).bind fun w hw key hkey => ?_
    cases key.hashKey? with
    | none => exact .fail (.self rfl) (List.forall_mem_singleton.2 hkey)
    | some _ =>
      refine (v.trace_follows happly _ (L.scopes_mono hw hscope)).bind fun w' hw' x hx => ?_
      have hle := le_trans hw hw'
      refine Expr.tracePairs_follows happly _ ?_ ps _ (L.scopes_mono hle hscope)
      refine Value.OfEntries.put (fun e he => ?_) (hkey.mono hw') hx
      exact (hentries e he).imp (.mono hle) (.mono hle)
termination_by structural ps

theorem Stmt.trace_follows (happly : ApplyFollows L apply) (s : Stmt) {w : W} (path : Path)
    {scope : ScopeId} (hscope : L.scopes w scope) :
    Follows L w L.Knows (s.trace apply path scope) := by
  rw [Stmt.trace, Stmt.evaluate.eq_def]
  refine .note ?_
  match s with
  | .bind x e =>
    refine (e.trace_follows happly _ hscope).bind fun w hw v hv => ?_
    refine (Follows.bindName (L.scopes_mono hw hscope) x hv).bind fun _ _ _ _ => ?_
    exact .pure fun v _ => (L.hereditary_knows v).null
  | .ret e => exact (e.trace_follows happly _ hscope).bind fun _ _ _ hv => .leave hv
  | .expr e => exact e.trace_follows happly _ hscope
termination_by structural s

theorem Stmt.traceFrom_follows (happly : ApplyFollows L apply) {v : Value} {w : W}
    (hv : L.Knows w v) (ss : List Stmt) (path : Path) {scope : ScopeId}
    (hscope : L.scopes w scope) :
    Follows L w L.Knows (Stmt.traceFrom apply v ss path scope) := by
  match ss with
  | [] => exact .pure fun _ hu => hv.mono hu
  | s :: ss =>
    refine (s.trace_follows happly _ hscope).bind fun w hw v hv => ?_
    exact Stmt.traceFrom_follows happly hv ss _ (L.scopes_mono hw hscope)
termination_by structural ss

end

/-! ## Calls -/

/-- Where no body is evaluated, applying a value is a call of a built-in function or fails. -/
theorem Value.apply_follows {depth : Nat} {f : Value} {args : List Value} {w : W}
    (hf : L.Knows w f) (hargs : ∀ v ∈ args, L.Knows w v)
    (hne : ∀ n id c, depth = n + 1 → f = .function id c → c.params.length ≠ args.length) :
    Follows L w L.Knows (Traced.lift (f.apply depth args)) := by
  cases f with
  | function id c =>
    by_cases hlength : c.params.length = args.length
    · cases depth with
      | zero =>
        rw [apply_function_zero hlength]
        exact .lift fun v _ _ hs => ⟨v, le_refl v, hs, trivial⟩
      | succ n => exact absurd hlength (hne n id c rfl rfl)
    · rw [apply_function_of_ne hlength]
      exact .fail (.self rfl) (List.forall_mem_nil _)
  | builtin b =>
    rw [apply_builtin]
    exact .call b hargs
  | _ =>
    rw [apply_of_not_callable]
    · exact .fail (.self rfl) (List.forall_mem_singleton.2 hf)
    · nofun
    · nofun

/-- Known values are applied to known ones, by induction on how deep calls may be nested. -/
theorem Value.trace_follows (depth : Nat) : ApplyFollows L (Value.trace depth) := by
  refine fun w f args => Value.trace_induction (P := fun _ f args m => ∀ w, L.Knows w f →
    (∀ v ∈ args, L.Knows w v) → Follows L w L.Knows m) ?_ ?_ depth f args w
  · intro depth id c args _ ih w hf hargs
    refine .enter hf hargs fun v path scope hscope => .catchReturn ?_
    exact Stmt.traceFrom_follows (fun w f args => ih f args w) (L.hereditary_knows v).null c.body _
      hscope
  · exact fun _ _ _ hne _ hf hargs => Value.apply_follows hf hargs hne

/-- Evaluating a program gives a value that is known. -/
theorem Program.trace_follows (depth : Nat) (p : Program) {w : W} {scope : ScopeId}
    (hscope : L.scopes w scope) : Follows L w L.Knows (p.trace depth scope) :=
  .note <| .catchReturn <|
    Stmt.traceFrom_follows (Value.trace_follows depth) (L.hereditary_knows w).null p _ hscope

end

/-! ## Hosts -/

/-- What a host can bring about, which starts with nothing: the state, the values that it has in
    hand, and the journal of all evaluations. It creates scopes, makes values and creates arrays,
    hashes and functions from those that it has, takes them apart, gives them names, looks names
    up, has programs evaluated and is given what they come to. -/
inductive Hosted : State → List Value → Journal → Prop
  | start : Hosted .empty [] []
  | newScope {s held j} (outer : Option ScopeId) : Hosted s held j →
      (∀ i ∈ outer, i < s.scopes.size) → Hosted (s.newScope outer).2 held j
  | make {s held j} {v : Value} : Hosted s held j → v.id? = none →
      (∀ w, v.Refers (.value w) → w ∈ held) → Hosted s (v :: held) j
  | create {s held j} {v : Value} : Hosted s held j → v.id? = some s.nextId →
      (∀ w, v.Refers (.value w) → w ∈ held) → (∀ i, v.Refers (.scope i) → i < s.scopes.size) →
      Hosted s.newId.2 (v :: held) j
  | part {s held j} {v w : Value} : Hosted s held j → v ∈ held → v.Refers (.value w) →
      Hosted s (w :: held) j
  | bind {s held j} {scope : ScopeId} (x : String) {v : Value} : Hosted s held j →
      scope < s.scopes.size → v ∈ held → Hosted (s.bind scope x v) held j
  | get {s held j} {scope : ScopeId} {x : String} {v : Value} : Hosted s held j →
      scope < s.scopes.size → s.get? scope x = some v → Hosted s (v :: held) j
  | eval {s held j} (depth : Nat) (p : Program) {scope : ScopeId} : Hosted s held j →
      scope < s.scopes.size →
      Hosted ((p.trace depth scope).run s j).1.2 held ((p.trace depth scope).run s j).2
  | result {s held j} {m : Moment} {p : Program} {v : Value} : Hosted s held j → m ∈ j →
      m.tree = .program p → m.Gives v → Hosted s (v :: held) j
  | takePrinted {s held j} : Hosted s held j → Hosted s.takePrinted.2 held j

/-- The value comes up: the host has it in hand, or at one of the moments it can be reached from a
    scope that there is, or from what an evaluation has ended in. -/
inductive Value.ComesUp (held : List Value) (j : Journal) : Value → Prop
  | held {v : Value} : v ∈ held → ComesUp held j v
  | bound {m : Moment} {i : ScopeId} {v : Value} : m ∈ j → i < m.state.scopes.size →
      m.state.Reaches (.scope i) (.value v) → ComesUp held j v
  | given {m : Moment} {v w : Value} : m ∈ j → m.Gives v → m.state.Reaches (.value v) (.value w) →
      ComesUp held j w

namespace Hosted

variable {W : Type} [Preorder W] {s : State} {held : List Value} {j : Journal}

/-- Whatever a host does, there are entries that are right for it. -/
theorem exists_accounts (L : Ledger W) (h : Hosted s held j) :
    ∃ w, L.Accounts w s j ∧ ∀ v ∈ held, L.Knows w v := by
  induction h with
  | start =>
    obtain ⟨w, hw⟩ := L.start
    exact ⟨w, ⟨hw, List.forall_mem_nil _⟩, List.forall_mem_nil _⟩
  | newScope outer _ houter ih =>
    obtain ⟨w, hw, hheld⟩ := ih
    obtain ⟨u, hwu, hu⟩ := L.newScope hw.states fun i hi => L.scope_of_lt hw.states (houter i hi)
    exact ⟨u, hw.mono hwu hu, fun v hv => (hheld v hv).mono hwu⟩
  | @make _ _ _ v _ hid hrefers ih =>
    obtain ⟨w, hw, hheld⟩ := ih
    refine ⟨w, hw, List.forall_mem_cons.2 ⟨.intro (L.plain hid) ?_ ?_, hheld⟩⟩
    · exact fun x hx => hheld x (hrefers x hx)
    · -- Only functions refer to scopes, and they have an identity.
      rintro _ ⟨⟩
      cases hid
  | create _ hid hrefers hscopes ih =>
    obtain ⟨w, hw, hheld⟩ := ih
    obtain ⟨u, hwu, hu, hv⟩ := L.exists_knows_create hw.states hid fun n hn => by
      cases n with
      | scope i => exact L.scope_of_lt hw.states (hscopes i hn)
      | value x => exact hheld x (hrefers x hn)
    exact ⟨u, hw.mono hwu hu, List.forall_mem_cons.2 ⟨hv, fun v hv => (hheld v hv).mono hwu⟩⟩
  | part _ hv hw ih =>
    obtain ⟨w, haccounts, hheld⟩ := ih
    exact ⟨w, haccounts, List.forall_mem_cons.2 ⟨(hheld _ hv).refers hw, hheld⟩⟩
  | bind x _ hscope hv ih =>
    obtain ⟨w, hw, hheld⟩ := ih
    obtain ⟨u, hwu, hu⟩ := L.bind x hw.states (L.scope_of_lt hw.states hscope) (hheld _ hv)
    exact ⟨u, hw.mono hwu hu, fun v hv => (hheld v hv).mono hwu⟩
  | get _ hscope hv ih =>
    obtain ⟨w, hw, hheld⟩ := ih
    have hknows := L.knows_of_get? hw.states (L.scope_of_lt hw.states hscope) hv
    exact ⟨w, hw, List.forall_mem_cons.2 ⟨hknows, hheld⟩⟩
  | eval depth p _ hscope ih =>
    obtain ⟨w, hw, hheld⟩ := ih
    have hfollows := p.trace_follows depth (L.scope_of_lt hw.states hscope)
    obtain ⟨u, hwu, hu, -⟩ := hfollows w (le_refl w) _ _ hw
    exact ⟨u, hu, fun v hv => (hheld v hv).mono hwu⟩
  | result _ hm _ hv ih =>
    obtain ⟨w, hw, hheld⟩ := ih
    obtain ⟨u, huw, -, hknows⟩ := hw.moments _ hm
    exact ⟨w, hw, List.forall_mem_cons.2 ⟨(hknows _ hv).mono huw, hheld⟩⟩
  | takePrinted _ ih =>
    obtain ⟨w, hw, hheld⟩ := ih
    exact ⟨w, hw.mono (le_refl w) (L.congr hw.states rfl rfl), hheld⟩

/-- There are entries that know all that ever comes up. -/
theorem knows_of_comesUp (L : Ledger W) (h : Hosted s held j) :
    ∃ w, L.Accounts w s j ∧ ∀ v : Value, v.ComesUp held j → L.Knows w v := by
  obtain ⟨w, hw, hheld⟩ := h.exists_accounts L
  refine ⟨w, hw, fun v hv => ?_⟩
  cases hv with
  | held hv => exact hheld v hv
  | bound hm hi hreaches =>
    obtain ⟨u, huw, hu, -⟩ := hw.moments _ hm
    exact Ledger.Knows.mono huw (L.reaches hu hreaches (L.scope_of_lt hu hi))
  | given hm hgives hreaches =>
    obtain ⟨u, huw, hu, hknows⟩ := hw.moments _ hm
    exact Ledger.Knows.mono huw (L.reaches hu hreaches (hknows _ hgives))

end Hosted

end Monkey
