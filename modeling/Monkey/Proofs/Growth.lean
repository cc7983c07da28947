import Monkey.Expr.Names
import Monkey.Proofs.Keeps

/-!
# What evaluation adds to

What is true of a value may depend on the state: that the names in the body of a function
are bound, or that a number has been given out. Such a property is of use if it goes on to
hold while the run adds to the state, so it comes with an order on states (`Growth`).

An evaluation *grows* the states (`Eval.Grows`) if it leads from each of them to a later
one, with the invariant, and its value has the property there. A growth says so of the
steps that evaluation is made of. The names in a tree are looked up in the scope of its
evaluation, or in scopes within that one, where parameters are bound in addition; so what
is asked for is something of the free names of a tree (`Expr.free`).

* `Expr.eval_grows`, with its companions for lists, statements and blocks;
* `Value.apply_grows`: applying values, by induction on the bound on how deep calls may be
  nested;
* `Program.eval_grows`: programs.
-/

namespace Monkey

open Eval

/-- An invariant of states and properties of what there is in a state, which hold in later
    states as well and are kept by the steps that evaluation is made of. -/
structure Growth where
  /-- The second state is the first or a later one. -/
  le : State → State → Prop
  states : State → Prop
  values : State → Value → Prop
  /-- Trees may be evaluated in the scope. -/
  scopes : State → ScopeId → Prop
  /-- The name may be looked up in the scope. -/
  names : State → ScopeId → String → Prop
  errors : EvalError → Prop
  refl (s : State) : le s s
  trans {s t u : State} : le s t → le t u → le s u
  values_mono {s t : State} {v : Value} : le s t → values s v → values t v
  scopes_mono {s t : State} {scope : ScopeId} : le s t → scopes s scope → scopes t scope
  names_mono {s t : State} {scope : ScopeId} {x : String} : le s t → names s scope x →
    names t scope x
  hereditary (s : State) : Value.Hereditary (values s)
  lookup {s : State} {scope : ScopeId} {x : String} {v : Value} : states s → scopes s scope →
    s.get? scope x = some v → values s v
  unbound {s : State} {scope : ScopeId} {x : String} : names s scope x → s.get? scope x = none →
    Builtin.ofName? x = none → errors (.unbound x)
  others {e : EvalError} : e.unbound? = none → errors e
  bind {s : State} {scope : ScopeId} {x : String} {v : Value} : states s → scopes s scope →
    values s v → le s (s.bind scope x v) ∧ states (s.bind scope x v)
  newId {s : State} : states s → le s s.newId.2 ∧ states s.newId.2
  array {s : State} {vs : List Value} : states s → (∀ v ∈ vs, values s v) →
    values s.newId.2 (.array s.newId.1 vs)
  hash {s : State} {entries : List (HashKey × Value × Value)} : states s →
    Value.OfEntries (values s) entries → values s.newId.2 (.hash s.newId.1 entries)
  function {s : State} {scope : ScopeId} {params : List String} {body : Block} : states s →
    scopes s scope → (∀ x ∈ Expr.free (.function params body), names s scope x) →
    values s.newId.2 (.function s.newId.1 ⟨params, body, scope⟩)
  print {s : State} (text : String) : states s → le s (s.print text) ∧ states (s.print text)
  enter {s : State} {id : ObjectId} {c : Closure} {args : List Value} : states s →
    values s (.function id c) → (∀ v ∈ args, values s v) → c.params.length = args.length →
    le s (s.enter c args) ∧ states (s.enter c args)
  /-- The body of a function may be evaluated in the scope of a call. -/
  body {s : State} {id : ObjectId} {c : Closure} {args : List Value} : states s →
    values s (.function id c) → c.params.length = args.length →
    scopes (s.enter c args) s.scopes.size ∧
      ∀ x ∈ Stmt.freeList c.body, names (s.enter c args) s.scopes.size x

/-! ## Evaluations -/

/-- The error has the property, if the outcome is one. -/
def Outcome.FailsOnly {α : Type} (F : EvalError → Prop) : Outcome α → Prop
  | failed e => F e
  | value _ | returned _ | exhausted => True

/-- From the state and from all later ones the evaluation leads to a state that is later
    still. There its value has the property `Q`, if evaluation goes on with it. -/
def Eval.Grows {α : Type} (G : Growth) (s : State) (Q : State → α → Prop) (m : Eval α) : Prop :=
  ∀ ⦃t⦄, G.le s t → G.states t →
    G.le t (m.run t).2 ∧ G.states (m.run t).2 ∧
    (m.run t).1.Holds (G.values (m.run t).2) (Q (m.run t).2) ∧
    (m.run t).1.FailsOnly G.errors

namespace Eval.Grows

variable {α β : Type} {G : Growth} {s : State} {Q : State → α → Prop} {R : State → β → Prop}

theorem pure {a : α} (h : ∀ t, G.le s t → Q t a) : Grows G s Q (pure a) :=
  fun t hst ht => ⟨G.refl t, ht, h t hst, trivial⟩

/-- What is known in a state is so in every later one, when the second part goes on. -/
theorem bind {m : Eval α} {k : α → Eval β} (hm : Grows G s Q m)
    (hk : ∀ t, G.le s t → ∀ a, Q t a → Grows G t R (k a)) : Grows G s R (m >>= k) := by
  intro t hst ht
  obtain ⟨hle, hstates, hholds, herrors⟩ := hm hst ht
  rw [run_bind]
  -- What has not ended in a value is left as it is.
  rcases hr : m.run t with ⟨a | v | e | _, u⟩ <;> rw [hr] at hle hstates hholds herrors
  · obtain ⟨hle', h⟩ := hk u (G.trans hst hle) a hholds (G.refl u) hstates
    exact ⟨G.trans hle hle', h⟩
  · exact ⟨hle, hstates, hholds, trivial⟩
  · exact ⟨hle, hstates, hholds, herrors⟩
  · exact ⟨hle, hstates, trivial, trivial⟩

/-- The values that the error is about must be ones that may be had. -/
theorem fail {e : EvalError} {vs : List Value} (he : e.About vs) (hvs : ∀ v ∈ vs, G.values s v) :
    Grows G s Q (fail e) :=
  fun t hst ht => ⟨G.refl t, ht, he.forall_values fun v hv => G.values_mono hst (hvs v hv),
    G.others he.unbound?⟩

theorem exhaust : Grows G s Q exhaust :=
  fun t _ ht => ⟨G.refl t, ht, trivial, trivial⟩

/-- The value that is returned must be one that may be had. -/
theorem leave {v : Value} (h : G.values s v) : Grows G s Q (leave v) :=
  fun t hst ht => ⟨G.refl t, ht, G.values_mono hst h, trivial⟩

/-- An operation on the state grows if it leads from every later state to one later still. -/
theorem onState {f : State → α × State}
    (h : ∀ t, G.le s t → G.states t → (G.le t (f t).2 ∧ G.states (f t).2) ∧ Q (f t).2 (f t).1) :
    Grows G s Q (onState f) :=
  fun t hst ht => ⟨(h t hst ht).1.1, (h t hst ht).1.2, (h t hst ht).2, trivial⟩

/-- Operations on values that may be had are in error about these. -/
theorem ofExcept {r : Except EvalError α} {vs : List Value} (hvs : ∀ v ∈ vs, G.values s v)
    (he : ∀ e, r = .error e → e.About vs) (h : ∀ t, G.le s t → ∀ a, r = .ok a → Q t a) :
    Grows G s Q (ofExcept r) := by
  cases r with
  | ok a => exact .pure fun t hst => h t hst a rfl
  | error e => exact .fail (he e rfl) hvs

theorem give {v : Value} (h : G.values s v) : Grows G s G.values (give v) := by
  cases v with
  | ret v => exact .leave ((G.hereditary s).ret h)
  | _ => exact .pure fun _ hst => G.values_mono hst h

/-- Catching a `return` leaves the state and gives the value. -/
theorem catchReturn {m : Eval Value} (hm : Grows G s G.values m) :
    Grows G s G.values (catchReturn m) := by
  intro t hst ht
  obtain ⟨hle, hstates, hholds, herrors⟩ := hm hst ht
  rw [run_catchReturn]
  rcases hr : m.run t with ⟨a | v | e | _, u⟩ <;> rw [hr] at hle hstates hholds herrors
  · exact ⟨hle, hstates, hholds, trivial⟩
  · exact ⟨hle, hstates, hholds, trivial⟩
  · exact ⟨hle, hstates, hholds, herrors⟩
  · exact ⟨hle, hstates, hholds, trivial⟩

end Eval.Grows

/-! ## Steps -/

namespace Growth

variable (G : Growth) {s : State}

/-- A name that may be looked up stands for a value that may be had. -/
theorem lookup_grows {scope : ScopeId} (hscope : G.scopes s scope) {x : String}
    (hx : G.names s scope x) : Grows G s G.values (Eval.lookup scope x) := by
  intro t hst ht
  rw [run_lookup]
  split
  · next v hv => exact ⟨G.refl t, ht, G.lookup ht (G.scopes_mono hst hscope) hv, trivial⟩
  · next b _ _ => exact ⟨G.refl t, ht, (G.hereditary t).builtin b, trivial⟩
  · next hnone hbuiltin =>
    have herror := G.unbound (G.names_mono hst hx) hnone hbuiltin
    exact ⟨G.refl t, ht, List.forall_mem_nil _, herror⟩

/-- New arrays are made of values that may be had. -/
theorem newArray_grows {vs : List Value} (hvs : ∀ v ∈ vs, G.values s v) :
    Grows G s G.values (newArray vs) := by
  intro t hst ht
  obtain ⟨hle, hstates⟩ := G.newId ht
  exact ⟨hle, hstates, G.array ht fun v hv => G.values_mono hst (hvs v hv), trivial⟩

theorem newHash_grows {entries : List (HashKey × Value × Value)}
    (hentries : Value.OfEntries (G.values s) entries) : Grows G s G.values (newHash entries) := by
  intro t hst ht
  obtain ⟨hle, hstates⟩ := G.newId ht
  refine ⟨hle, hstates, G.hash ht fun e he => ?_, trivial⟩
  exact ⟨G.values_mono hst (hentries e he).1, G.values_mono hst (hentries e he).2⟩

/-- A new function may be had where its free names may be looked up. -/
theorem newFunction_grows {scope : ScopeId} (hscope : G.scopes s scope) {params : List String}
    {body : Block} (hfree : ∀ x ∈ Expr.free (.function params body), G.names s scope x) :
    Grows G s G.values (newFunction ⟨params, body, scope⟩) := by
  intro t hst ht
  obtain ⟨hle, hstates⟩ := G.newId ht
  have hfree : ∀ x ∈ Expr.free (.function params body), G.names t scope x := fun x hx =>
    G.names_mono hst (hfree x hx)
  exact ⟨hle, hstates, G.function ht (G.scopes_mono hst hscope) hfree, trivial⟩

/-! ## Built-in functions -/

/-- Built-in functions take and give values that may be had, and create arrays of them. -/
theorem call_grows (b : Builtin) {args : List Value} (h : ∀ v ∈ args, G.values s v) :
    Grows G s G.values (b.call args) := by
  intro t hst ht
  have hargs : ∀ v ∈ args, G.values t v := fun v hv => G.values_mono hst (h v hv)
  have hS := G.hereditary t
  have hdoes := b.does_call args t
  generalize (b.call args).run t = r at hdoes
  cases hdoes with
  | fails he => exact ⟨G.refl t, ht, he.forall_values hargs, G.others he.unbound?⟩
  | prints text =>
    obtain ⟨hle, hstates⟩ := G.print text ht
    exact ⟨hle, hstates, G.values_mono hle hS.null, trivial⟩
  | gives hv => exact ⟨G.refl t, ht, hv _ hS hargs, trivial⟩
  | creates hvs =>
    obtain ⟨hle, hstates⟩ := G.newId ht
    exact ⟨hle, hstates, G.array ht (hvs _ hS hargs), trivial⟩

/-- Applying values in later states leads to later states still. -/
abbrev Applies (apply : Value → List Value → Eval Value) : Prop :=
  ∀ s f args, G.values s f → (∀ v ∈ args, G.values s v) → Grows G s G.values (apply f args)

end Growth

/-! ## Trees -/

variable {G : Growth} {apply : Value → List Value → Eval Value}

mutual

/-- The evaluation of an expression grows in every scope where its free names may be looked up. -/
theorem Expr.eval_grows (happly : G.Applies apply) (e : Expr) {s : State} {scope : ScopeId}
    (hscope : G.scopes s scope) (he : ∀ x ∈ e.free, G.names s scope x) :
    Grows G s G.values (e.eval apply scope) := by
  have hS := G.hereditary
  match e with
  | .ident x =>
    exact (G.lookup_grows hscope (he x List.mem_cons_self)).bind fun _ _ _ hv => .give hv
  | .int _ => exact .pure fun t _ => (hS t).int _
  | .str _ => exact .pure fun t _ => (hS t).str _
  | .bool _ => exact .pure fun t _ => (hS t).bool _
  | .array es =>
    exact (Expr.evalList_grows happly es hscope he).bind fun _ _ _ hvs => G.newArray_grows hvs
  | .hash ps =>
    have hnil : Value.OfEntries (G.values s) [] := fun _ h => absurd h List.not_mem_nil
    exact (Expr.evalPairs_grows happly hnil ps hscope he).bind fun _ _ _ hes => G.newHash_grows hes
  | .unary op e =>
    refine (e.eval_grows happly hscope he).bind fun _ _ v hv => ?_
    exact .ofExcept (List.forall_mem_singleton.2 hv) (fun _ => Value.about_of_unary)
      fun u _ _ => (hS u).unary
  | .binary op l r =>
    obtain ⟨hl, hr⟩ := List.forall_mem_append.1 he
    refine (l.eval_grows happly hscope hl).bind fun t hst v hv => ?_
    have hr : ∀ x ∈ r.free, G.names t scope x := fun x hx => G.names_mono hst (hr x hx)
    refine (r.eval_grows happly (G.scopes_mono hst hscope) hr).bind fun u htu w hw => ?_
    have hvw := List.forall_mem_cons.2 ⟨G.values_mono htu hv, List.forall_mem_singleton.2 hw⟩
    exact .ofExcept hvw (fun _ => Value.about_of_binary) fun u _ _ => (hS u).binary
  | .cond c yes none =>
    obtain ⟨hc, hyes⟩ := List.forall_mem_append.1 he
    refine (c.eval_grows happly hscope hc).bind fun t hst v _ => ?_
    cases v.truthy with
    | true =>
      exact Stmt.evalFrom_grows happly (hS t).null yes (G.scopes_mono hst hscope)
        fun x hx => G.names_mono hst (hyes x hx)
    | false => exact .pure fun u _ => (hS u).null
  | .cond c yes (some no) =>
    obtain ⟨hc, hyesno⟩ := List.forall_mem_append.1 he
    obtain ⟨hyes, hno⟩ := List.forall_mem_append.1 hyesno
    refine (c.eval_grows happly hscope hc).bind fun t hst v _ => ?_
    cases v.truthy with
    | true =>
      exact Stmt.evalFrom_grows happly (hS t).null yes (G.scopes_mono hst hscope)
        fun x hx => G.names_mono hst (hyes x hx)
    | false =>
      exact Stmt.evalFrom_grows happly (hS t).null no (G.scopes_mono hst hscope)
        fun x hx => G.names_mono hst (hno x hx)
  | .function params body => exact G.newFunction_grows hscope he
  | .call callee args =>
    obtain ⟨hcallee, hargs⟩ := List.forall_mem_append.1 he
    refine (callee.eval_grows happly hscope hcallee).bind fun t hst f hf => ?_
    refine (Expr.evalList_grows happly args (G.scopes_mono hst hscope)
      fun x hx => G.names_mono hst (hargs x hx)).bind fun u htu vs hvs => ?_
    exact (happly u f vs (G.values_mono htu hf) hvs).bind fun _ _ _ hv => .give hv
  | .index container key =>
    obtain ⟨hcontainer, hkey⟩ := List.forall_mem_append.1 he
    refine (container.eval_grows happly hscope hcontainer).bind fun t hst c hc => ?_
    refine (key.eval_grows happly (G.scopes_mono hst hscope)
      fun x hx => G.names_mono hst (hkey x hx)).bind fun u htu k hk => ?_
    have hc : G.values u c := G.values_mono htu hc
    have hck := List.forall_mem_cons.2 ⟨hc, List.forall_mem_singleton.2 hk⟩
    have hindex : Grows G u G.values (ofExcept (Value.index c k)) :=
      .ofExcept hck (fun _ => Value.about_of_index) fun w huw _ =>
        (hS w).index (G.values_mono huw hc)
    exact hindex.bind fun _ _ _ => .give
termination_by structural e

theorem Expr.evalList_grows (happly : G.Applies apply) (es : List Expr) {s : State}
    {scope : ScopeId} (hscope : G.scopes s scope)
    (hes : ∀ x ∈ Expr.namesList (fun params names => names.filter (· ∉ params)) es,
      G.names s scope x) :
    Grows G s (fun t vs => ∀ v ∈ vs, G.values t v) (Expr.evalList apply es scope) := by
  match es with
  | [] => exact .pure fun _ _ _ h => absurd h List.not_mem_nil
  | e :: es =>
    obtain ⟨he, hes⟩ := List.forall_mem_append.1 hes
    refine (e.eval_grows happly hscope he).bind fun t hst v hv => ?_
    refine (Expr.evalList_grows happly es (G.scopes_mono hst hscope)
      fun x hx => G.names_mono hst (hes x hx)).bind fun u htu vs hvs => .pure fun w huw => ?_
    refine List.forall_mem_cons.2 ⟨G.values_mono (G.trans htu huw) hv, fun x hx => ?_⟩
    exact G.values_mono huw (hvs x hx)
termination_by structural es

/-- Pairs grow as their keys and values do, and so do the entries before them. -/
theorem Expr.evalPairs_grows (happly : G.Applies apply)
    {entries : List (HashKey × Value × Value)} {s : State}
    (hentries : Value.OfEntries (G.values s) entries) (ps : List (Expr × Expr)) {scope : ScopeId}
    (hscope : G.scopes s scope)
    (hps : ∀ x ∈ Expr.namesPairs (fun params names => names.filter (· ∉ params)) ps,
      G.names s scope x) :
    Grows G s (fun t => Value.OfEntries (G.values t)) (Expr.evalPairs apply entries ps scope) := by
  have hmono : ∀ t, G.le s t → Value.OfEntries (G.values t) entries := fun t hst e he =>
    ⟨G.values_mono hst (hentries e he).1, G.values_mono hst (hentries e he).2⟩
  match ps with
  | [] => exact .pure hmono
  | (k, v) :: ps =>
    obtain ⟨hk, hvps⟩ := List.forall_mem_append.1 hps
    obtain ⟨hv, hps⟩ := List.forall_mem_append.1 hvps
    refine (k.eval_grows happly hscope hk).bind fun t hst key hkey => ?_
    cases key.hashKey? with
    | none => exact .fail (.self rfl) (List.forall_mem_singleton.2 hkey)
    | some _ =>
      refine (v.eval_grows happly (G.scopes_mono hst hscope)
        fun x hx => G.names_mono hst (hv x hx)).bind fun u htu value hvalue => ?_
      have hsu := G.trans hst htu
      exact Expr.evalPairs_grows happly ((hmono u hsu).put (G.values_mono htu hkey) hvalue) ps
        (G.scopes_mono hsu hscope) fun x hx => G.names_mono hsu (hps x hx)
termination_by structural ps

/-- The evaluation of a statement grows as that of its expression does, and the name may be bound
    to the value. -/
theorem Stmt.eval_grows (happly : G.Applies apply) (st : Stmt) {s : State} {scope : ScopeId}
    (hscope : G.scopes s scope)
    (hst : ∀ x ∈ st.names (fun params names => names.filter (· ∉ params)), G.names s scope x) :
    Grows G s G.values (st.eval apply scope) := by
  match st with
  | .bind x e =>
    refine (e.eval_grows happly hscope hst).bind fun t hst v hv => ?_
    have hbind : Grows G t (fun _ _ => True) (bindName scope x v) := .onState fun u htu hu =>
      ⟨G.bind hu (G.scopes_mono (G.trans hst htu) hscope) (G.values_mono htu hv), trivial⟩
    exact hbind.bind fun _ _ _ _ => .pure fun w _ => (G.hereditary w).null
  | .ret e => exact (e.eval_grows happly hscope hst).bind fun _ _ _ hv => .leave hv
  | .expr e => exact e.eval_grows happly hscope hst
termination_by structural st

theorem Stmt.evalFrom_grows (happly : G.Applies apply) {v : Value} {s : State}
    (hv : G.values s v) (ss : List Stmt) {scope : ScopeId} (hscope : G.scopes s scope)
    (hss : ∀ x ∈ Stmt.freeList ss, G.names s scope x) :
    Grows G s G.values (Stmt.evalFrom apply v ss scope) := by
  match ss with
  | [] => exact .pure fun _ hst => G.values_mono hst hv
  | st :: ss =>
    obtain ⟨hst, hss⟩ := List.forall_mem_append.1 hss
    refine (st.eval_grows happly hscope hst).bind fun t hle v hv => ?_
    exact Stmt.evalFrom_grows happly hv ss (G.scopes_mono hle hscope)
      fun x hx => G.names_mono hle (hss x hx)
termination_by structural ss

end

/-! ## Calls -/

/-- Applications of values grow, by induction on how deep calls may be nested: a body is evaluated
    in a new scope, where its free names may be looked up. -/
theorem Value.apply_grows (G : Growth) (depth : Nat) : G.Applies (Value.apply depth) := by
  induction depth using Nat.strongRecOn with
  | _ depth ih =>
    intro s f args hf hargs
    cases f with
    | function id c =>
      by_cases hlength : c.params.length = args.length
      · cases depth with
        | zero =>
          rw [apply_function_zero hlength]
          exact .exhaust
        | succ depth =>
          intro t hst ht
          have hf := G.values_mono hst hf
          have hargs : ∀ v ∈ args, G.values _ v := fun v hv => G.values_mono hst (hargs v hv)
          obtain ⟨hle, hstates⟩ := G.enter ht hf hargs hlength
          obtain ⟨hscope, hfree⟩ := G.body ht hf hlength
          -- The body is evaluated from the state in which the call has been entered.
          have hbody : Grows G (t.enter c args) G.values
              (catchReturn (c.body.eval (Value.apply depth) t.scopes.size)) :=
            .catchReturn (Stmt.evalFrom_grows (ih depth (Nat.lt_succ_self depth))
              (G.hereditary _).null c.body hscope hfree)
          obtain ⟨hle', h⟩ := hbody (G.refl _) hstates
          rw [run_apply_function hlength]
          exact ⟨G.trans hle hle', h⟩
      · rw [apply_function_of_ne hlength]
        exact .fail (.self rfl) (List.forall_mem_nil _)
    | builtin b =>
      rw [apply_builtin]
      exact G.call_grows b hargs
    | _ =>
      rw [apply_of_not_callable]
      · exact .fail (.self rfl) (List.forall_mem_singleton.2 hf)
      all_goals nofun

/-- Programs lead to later states, if their free names may be looked up. -/
theorem Program.eval_grows (G : Growth) (depth : Nat) (p : Program) {s : State} {scope : ScopeId}
    (hscope : G.scopes s scope) (hp : ∀ x ∈ p.free, G.names s scope x) :
    Grows G s G.values (p.eval depth scope) :=
  .catchReturn (Stmt.evalFrom_grows (Value.apply_grows G depth) (G.hereditary s).null p hscope hp)

end Monkey
