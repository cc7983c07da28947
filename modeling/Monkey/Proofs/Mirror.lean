import Mathlib.Data.List.Forall2
import Monkey.Expr.Names
import Monkey.Proofs.Keeps
import Monkey.Proofs.Renaming
import Monkey.Proofs.Trace

/-!
# Two runs side by side

One tree is evaluated twice, from two states that correspond in some way. The second
evaluation *mirrors* the first (`Eval.Mirrors`, `Traced.Mirrors`) if it ends as the first
does, in the value of the first renamed and in a state that corresponds again.

What it takes is said of the single steps that evaluation is made of (`Mirror.Steps`): to
look up one of the names in the tree, to bind a name, to take a number, to print and to
enter a call. That the steps correspond makes whole runs correspond:

* `Expr.trace_mirrors`, with its companions for lists, statements and blocks;
* `Value.trace_mirrors`: applying corresponding values to corresponding arguments, by
  induction on the bound on how deep calls may be nested;
* `Program.eval_mirrors`: programs.

It is the traces that are compared, so not only the ends of the two runs correspond but all
their moments, and with these the answers of every operator on the way.
-/

namespace Monkey

open Eval Traced

/-- The outcome with what it carries changed. -/
def Outcome.map {α β : Type} (f : α → β) (g : Value → Value) : Outcome α → Outcome β
  | value a => value (f a)
  | returned v => returned (g v)
  | failed e => failed (e.map g)
  | exhausted => exhausted

/-- The outcome with the values in it renamed. -/
abbrev Outcome.rename (r : Renaming) : Outcome Value → Outcome Value :=
  Outcome.map (Value.rename r) (Value.rename r)

/-! ## Journals -/

/-- The moment is the same as another in a run where things have other numbers. -/
structure Moment.Mirrors (r : Renaming) (m m' : Moment) : Prop where
  path : m'.path = m.path
  tree : m'.tree = m.tree
  scope : m'.scope = r.scope m.scope
  outcome? : m'.outcome? = m.outcome?.map (Outcome.rename r)

/-- The journals have the same moments, renamed. -/
abbrev Journal.Mirrors (r : Renaming) (j j' : Journal) : Prop :=
  List.Forall₂ (Moment.Mirrors r) j j'

section

variable {r : Renaming}

/-- Corresponding functions are created at corresponding moments. -/
theorem Moment.Mirrors.created?_iff {m m' : Moment} (h : m.Mirrors r m') (id : ObjectId)
    (c : Closure) :
    m'.created? = some (r.object id, c.rename r) ↔ m.created? = some (id, c) := by
  obtain ⟨path, tree, scope, s, outcome?⟩ := m
  obtain ⟨path', tree', scope', s', outcome?'⟩ := m'
  obtain ⟨-, htree, hscope, houtcome⟩ := h
  dsimp only at htree hscope houtcome
  subst htree hscope houtcome
  rcases tree' with p | st | e
  · exact ⟨nofun, nofun⟩
  · exact ⟨nofun, nofun⟩
  cases e with
  | function params body =>
    rcases outcome? with _ | ⟨⟨v⟩ | _ | _ | _⟩
    case some.value =>
      cases v with
      | function i d =>
        simp only [created?, Outcome.map, Option.map_some, Value.rename, Option.some.injEq,
          Prod.mk.injEq, r.object_strictMono.injective.eq_iff]
        have hinjective := Closure.rename_injective r
        exact and_congr_right fun _ => hinjective.eq_iff (a := ⟨params, body, scope⟩)
      | _ => exact ⟨nofun, nofun⟩
    all_goals exact ⟨nofun, nofun⟩
  | _ => exact ⟨nofun, nofun⟩

/-- Corresponding functions come from the same literal. -/
theorem Journal.Mirrors.origin {j j' : Journal} (h : j.Mirrors r j') (id : ObjectId) (c : Closure) :
    j'.origin (r.object id) (c.rename r) = j.origin id c := by
  unfold Journal.origin
  congr 1
  induction h with
  | nil => rfl
  | @cons m m' j j' hm _ ih =>
    simp only [List.find?_cons, hm.created?_iff]
    split
    · exact congrArg some hm.path
    · exact ih

end

/-! ## Evaluations -/

/-- How two runs correspond. -/
structure Mirror where
  /-- The numbers that what there is in the first run has in the second. -/
  rename : Renaming
  /-- The states that correspond. -/
  states : State → State → Prop
  /-- What is known of the values of the first run. -/
  values : Value → Prop

/-- The second evaluation ends as the first does, if they start from corresponding states:
    in a corresponding state and with the same outcome, renamed. A value that evaluation goes
    on with has the property `Q` in the first, and becomes what `f` makes of it. -/
def Eval.Mirrors {α β : Type} (M : Mirror) (f : α → β) (Q : α → Prop) (m : Eval α) (n : Eval β) :
    Prop :=
  ∀ ⦃s t⦄, M.states s t →
    M.states (m.run s).2 (n.run t).2 ∧
    (n.run t).1 = (m.run s).1.map f (Value.rename M.rename) ∧
    (m.run s).1.Holds M.values Q

/-- The same of evaluations that keep journals, which correspond as well. -/
def Traced.Mirrors {α β : Type} (M : Mirror) (f : α → β) (Q : α → Prop) (m : Traced α)
    (n : Traced β) : Prop :=
  ∀ ⦃s t j k⦄, M.states s t → j.Mirrors M.rename k →
    M.states (m.run s j).1.2 (n.run t k).1.2 ∧
    (m.run s j).2.Mirrors M.rename (n.run t k).2 ∧
    (n.run t k).1.1 = (m.run s j).1.1.map f (Value.rename M.rename) ∧
    (m.run s j).1.1.Holds M.values Q

namespace Eval.Mirrors

variable {M : Mirror} {α α' β β' : Type} {f : α → α'} {g : β → β'} {Q : α → Prop} {P : β → Prop}

theorem pure {a : α} (h : Q a) : Mirrors M f Q (pure a) (pure (f a)) :=
  fun _ _ hst => ⟨hst, rfl, h⟩

/-- The second parts mirror each other for corresponding values of the first. -/
theorem bind {m : Eval α} {n : Eval α'} {k : α → Eval β} {l : α' → Eval β'}
    (hm : Mirrors M f Q m n) (hk : ∀ a, Q a → Mirrors M g P (k a) (l (f a))) :
    Mirrors M g P (m >>= k) (n >>= l) := by
  intro s t hst
  obtain ⟨hstates, houtcome, hholds⟩ := hm hst
  rw [Eval.run_bind, Eval.run_bind]
  -- What has not ended in a value is left as it is, on both sides.
  rcases hr : m.run s with ⟨a | v | e | _, s'⟩ <;> rcases hr' : n.run t with ⟨o, t'⟩ <;>
    simp only [hr, hr', Outcome.map] at hstates houtcome hholds <;> subst houtcome
  · exact hk a hholds hstates
  · exact ⟨hstates, rfl, hholds⟩
  · exact ⟨hstates, rfl, hholds⟩
  · exact ⟨hstates, rfl, trivial⟩

/-- An error is mirrored by the one about the renamed values. -/
theorem fail {e : EvalError} {vs : List Value} (he : e.About vs) (hvs : ∀ v ∈ vs, M.values v) :
    Mirrors M f Q (fail e) (fail (e.map (Value.rename M.rename))) :=
  fun _ _ hst => ⟨hst, rfl, he.forall_values hvs⟩

theorem exhaust : Mirrors M f Q exhaust exhaust :=
  fun _ _ hst => ⟨hst, rfl, trivial⟩

theorem leave {v : Value} (h : M.values v) :
    Mirrors M f Q (leave v) (leave (v.rename M.rename)) :=
  fun _ _ hst => ⟨hst, rfl, h⟩

theorem ofExcept {x : Except EvalError Value} {vs : List Value} (hvs : ∀ v ∈ vs, M.values v)
    (he : ∀ e, x = .error e → e.About vs) (h : ∀ v, x = .ok v → M.values v) :
    Mirrors M (Value.rename M.rename) M.values (ofExcept x)
      (ofExcept (Value.renameExcept M.rename x)) := by
  cases x with
  | ok a => exact .pure (h a rfl)
  | error e => exact .fail (he e rfl) hvs

/-- Corresponding values are handed on alike. -/
theorem give (hS : Value.Inherited M.values) {v : Value} (h : M.values v) :
    Mirrors M (Value.rename M.rename) M.values (give v) (give (v.rename M.rename)) := by
  cases v with
  | ret v => exact .leave (hS.ret h)
  | _ => exact .pure h

end Eval.Mirrors

namespace Traced.Mirrors

variable {M : Mirror} {α α' β β' : Type} {f : α → α'} {g : β → β'} {Q : α → Prop} {P : β → Prop}

/-- Evaluations without moments mirror each other as they do without a journal. -/
theorem lift {m : Eval α} {n : Eval α'} (h : Eval.Mirrors M f Q m n) :
    Mirrors M f Q (lift m) (lift n) :=
  fun _ _ _ _ hst hjk => ⟨(h hst).1, hjk, (h hst).2⟩

theorem pure {a : α} (h : Q a) : Mirrors M f Q (pure a) (pure (f a)) :=
  fun _ _ _ _ hst hjk => ⟨hst, hjk, rfl, h⟩

theorem bind {m : Traced α} {n : Traced α'} {k : α → Traced β} {l : α' → Traced β'}
    (hm : Mirrors M f Q m n) (hk : ∀ a, Q a → Mirrors M g P (k a) (l (f a))) :
    Mirrors M g P (m >>= k) (n >>= l) := by
  intro s t i j hst hij
  obtain ⟨hstates, hjournals, houtcome, hholds⟩ := hm hst hij
  rw [Traced.run_bind, Traced.run_bind]
  rcases hr : m.run s i with ⟨⟨a | v | e | _, s'⟩, i'⟩ <;>
    rcases hr' : n.run t j with ⟨⟨o, t'⟩, j'⟩ <;>
    simp only [hr, hr', Outcome.map] at hstates hjournals houtcome hholds <;> subst houtcome
  · exact hk a hholds hstates hjournals
  · exact ⟨hstates, hjournals, rfl, hholds⟩
  · exact ⟨hstates, hjournals, rfl, hholds⟩
  · exact ⟨hstates, hjournals, rfl, trivial⟩

variable {m n : Traced Value}

/-- A `return` is caught in both evaluations or in neither. -/
theorem catchReturn (hm : Mirrors M (Value.rename M.rename) M.values m n) :
    Mirrors M (Value.rename M.rename) M.values (catchReturn m) (catchReturn n) := by
  intro s t i j hst hij
  obtain ⟨hstates, hjournals, houtcome, hholds⟩ := hm hst hij
  rw [Traced.run_catchReturn, Traced.run_catchReturn]
  rcases hr : m.run s i with ⟨⟨a | v | e | _, s'⟩, i'⟩ <;>
    rcases hr' : n.run t j with ⟨⟨o, t'⟩, j'⟩ <;>
    simp only [hr, hr', Outcome.map] at hstates hjournals houtcome hholds <;> subst houtcome <;>
    exact ⟨hstates, hjournals, rfl, hholds⟩

/-- The start and the end of corresponding evaluations are corresponding moments. -/
theorem note (hm : Mirrors M (Value.rename M.rename) M.values m n) (path : Path) (tree : Tree)
    (scope : ScopeId) :
    Mirrors M (Value.rename M.rename) M.values (note path tree scope m)
      (note path tree (M.rename.scope scope) n) := by
  intro s t i j hst hij
  have hstart : Moment.Mirrors M.rename ⟨path, tree, scope, s, none⟩
      ⟨path, tree, M.rename.scope scope, t, none⟩ := ⟨rfl, rfl, rfl, rfl⟩
  obtain ⟨hstates, hjournals, houtcome, hholds⟩ := hm hst (.cons hstart hij)
  exact ⟨hstates, .cons ⟨rfl, rfl, rfl, congrArg some houtcome⟩ hjournals, houtcome, hholds⟩

end Traced.Mirrors

/-! ## Steps -/

/-- The steps that evaluation is made of correspond in scopes with the property `C`, as long
    as only names with the property `D` are looked up. -/
structure Mirror.Steps (M : Mirror) (C : ScopeId → Prop) (D : String → Prop) : Prop where
  inherited : Value.Inherited M.values
  function {id : ObjectId} {params : List String} {body : Block} {scope : ScopeId} : C scope →
    (∀ x ∈ Stmt.readsList body, D x) → M.values (.function id ⟨params, body, scope⟩)
  /-- The bodies of functions look up names with the property. -/
  body {id : ObjectId} {c : Closure} : M.values (.function id c) →
    ∀ x ∈ Stmt.readsList c.body, D x
  get?_eq {s t : State} {scope : ScopeId} {x : String} : M.states s t → C scope → D x →
    t.get? (M.rename.scope scope) x = (s.get? scope x).map (Value.rename M.rename)
  get? {s t : State} {scope : ScopeId} {x : String} {v : Value} : M.states s t → C scope → D x →
    s.get? scope x = some v → M.values v
  bind {s t : State} {scope : ScopeId} {x : String} {v : Value} : M.states s t → C scope →
    M.values v →
    M.states (s.bind scope x v) (t.bind (M.rename.scope scope) x (v.rename M.rename))
  newId {s t : State} : M.states s t →
    t.newId.1 = M.rename.object s.newId.1 ∧ M.states s.newId.2 t.newId.2
  print {s t : State} {text : String} : M.states s t → M.states (s.print text) (t.print text)
  /-- The scope of a call is a scope for evaluations. -/
  scope {s t : State} : M.states s t →
    C s.scopes.size ∧ t.scopes.size = M.rename.scope s.scopes.size
  enter {s t : State} {id : ObjectId} {c : Closure} {args : List Value} : M.states s t →
    M.values (.function id c) → (∀ v ∈ args, M.values v) →
    M.states (s.enter c args)
      (t.enter (c.rename M.rename) (args.map (Value.rename M.rename)))

section

variable {M : Mirror} {C : ScopeId → Prop} {D : String → Prop}

/-- Evaluations whose values correspond. -/
abbrev Eval.MirrorsValue (M : Mirror) (m n : Eval Value) : Prop :=
  Eval.Mirrors M (Value.rename M.rename) M.values m n

/-- Evaluations with journals whose values correspond. -/
abbrev Traced.MirrorsValue (M : Mirror) (m n : Traced Value) : Prop :=
  Traced.Mirrors M (Value.rename M.rename) M.values m n

namespace Mirror.Steps

variable (h : M.Steps C D)

include h

/-- A name with the property is looked up in corresponding scopes. -/
theorem lookup_mirrors {scope : ScopeId} (hscope : C scope) {x : String} (hx : D x) :
    Eval.MirrorsValue M (lookup scope x) (lookup (M.rename.scope scope) x) := by
  intro s t hst
  have hget := h.get?_eq hst hscope hx
  rw [run_lookup, run_lookup, hget]
  cases hv : s.get? scope x with
  | some v => exact ⟨hst, rfl, h.get? hst hscope hx hv⟩
  | none =>
    cases Builtin.ofName? x with
    | some b => exact ⟨hst, rfl, h.inherited.builtin b⟩
    | none => exact ⟨hst, rfl, List.forall_mem_nil _⟩

/-- Arrays of corresponding elements get corresponding numbers. -/
theorem newArray_mirrors {vs : List Value} (hvs : ∀ v ∈ vs, M.values v) :
    Eval.MirrorsValue M (newArray vs) (newArray (vs.map (Value.rename M.rename))) := by
  intro s t hst
  obtain ⟨hid, hnext⟩ := h.newId hst
  refine ⟨hnext, ?_, h.inherited.array.2 hvs⟩
  change Outcome.value (Value.array t.newId.1 _) = _
  rw [hid, ← Value.renameList_eq_map]
  rfl

theorem newHash_mirrors {es : List (HashKey × Value × Value)} (hes : Value.OfEntries M.values es) :
    Eval.MirrorsValue M (newHash es)
      (newHash (es.map fun e => (e.1, Value.renameEntry M.rename e.2))) := by
  intro s t hst
  obtain ⟨hid, hnext⟩ := h.newId hst
  refine ⟨hnext, ?_, h.inherited.hash.2 hes⟩
  change Outcome.value (Value.hash t.newId.1 _) = _
  rw [hid, ← Value.renameEntries_eq_map]
  rfl

/-- Functions of one literal and of corresponding scopes get corresponding numbers. -/
theorem newFunction_mirrors {params : List String} {body : Block} {scope : ScopeId}
    (hscope : C scope) (hbody : ∀ x ∈ Stmt.readsList body, D x) :
    Eval.MirrorsValue M (newFunction ⟨params, body, scope⟩)
      (newFunction ⟨params, body, M.rename.scope scope⟩) := by
  intro s t hst
  obtain ⟨hid, hnext⟩ := h.newId hst
  refine ⟨hnext, ?_, h.function hscope hbody⟩
  change Outcome.value (Value.function t.newId.1 _) = _
  rw [hid]
  rfl

/-- Corresponding values are bound in corresponding scopes. -/
theorem bindName_mirrors {scope : ScopeId} (hscope : C scope) (x : String) {v : Value}
    (hv : M.values v) :
    Eval.Mirrors M id (fun _ => True) (bindName scope x v)
      (bindName (M.rename.scope scope) x (v.rename M.rename)) :=
  fun _ _ hst => ⟨h.bind hst hscope hv, rfl, trivial⟩

/-! ## Built-in functions -/

/-- Corresponding arrays have corresponding elements, and what is no array is an error in both. -/
theorem elements_mirrors (b : Builtin) {v : Value} (hv : M.values v) :
    Eval.Mirrors M (List.map (Value.rename M.rename)) (fun vs => ∀ w ∈ vs, M.values w)
      (b.elements v) (b.elements (v.rename M.rename)) := by
  cases v with
  | array id vs =>
    rw [Value.rename, Value.renameList_eq_map]
    exact .pure (h.inherited.array.1 hv)
  | _ => exact .fail (.self rfl) (List.forall_mem_singleton.2 hv)

theorem printAll_mirrors (vs : List Value) :
    Eval.Mirrors M id (fun _ => True) (Builtin.printAll vs)
      (Builtin.printAll (vs.map (Value.rename M.rename))) := by
  induction vs with
  | nil => exact .pure trivial
  | cons v vs ih =>
    have hline : Eval.Mirrors M id (fun _ => True) (printLine v.inspect)
        (printLine (v.rename M.rename).inspect) := by
      rw [Value.inspect_rename]
      exact fun _ _ hst => ⟨h.print hst, rfl, trivial⟩
    exact hline.bind fun _ _ => ih

/-- Built-in functions are called alike with corresponding arguments. -/
theorem call_mirrors (b : Builtin) {args : List Value} (hargs : ∀ v ∈ args, M.values v) :
    Eval.MirrorsValue M (b.call args) (b.call (args.map (Value.rename M.rename))) := by
  have hS := h.inherited
  have hprint : Eval.MirrorsValue M (do Builtin.printAll args; return .null)
      (do Builtin.printAll (args.map (Value.rename M.rename)); return .null) :=
    (h.printAll_mirrors args).bind fun _ _ => .pure hS.null
  cases harity : b.arity? with
  | none =>
    cases b with
    | puts | print => exact hprint
    | _ => cases harity
  | some n =>
    by_cases hlength : args.length = n
    swap
    · rw [Builtin.call_of_length_ne harity hlength, Builtin.call_of_length_ne harity]
      · rw [List.length_map]
        exact .fail (.self rfl) (List.forall_mem_nil _)
      · rwa [List.length_map]
    cases b with
    | puts | print => cases harity
    | len =>
      obtain rfl := Option.some.inj harity
      obtain ⟨v, rfl⟩ := List.length_eq_one_iff.1 hlength
      cases v with
      | str text => exact .pure (hS.int _)
      | array id vs =>
        rw [List.map_singleton, Value.rename, Value.renameList_eq_map]
        change Eval.MirrorsValue M (pure _) (pure (Value.int (.ofNat (vs.map _).length)))
        rw [List.length_map]
        exact .pure (hS.int _)
      | _ => exact .fail (.self rfl) hargs
    | first =>
      obtain rfl := Option.some.inj harity
      obtain ⟨v, rfl⟩ := List.length_eq_one_iff.1 hlength
      refine (h.elements_mirrors .first (hargs v List.mem_cons_self)).bind fun vs hvs => ?_
      rw [List.head?_map, Value.getD_rename]
      exact .pure (hS.getD fun w hw => hvs w (List.mem_of_head? hw))
    | last =>
      obtain rfl := Option.some.inj harity
      obtain ⟨v, rfl⟩ := List.length_eq_one_iff.1 hlength
      refine (h.elements_mirrors .last (hargs v List.mem_cons_self)).bind fun vs hvs => ?_
      rw [List.getLast?_map, Value.getD_rename]
      exact .pure (hS.getD fun w hw => hvs w (List.mem_of_getLast? hw))
    | tail =>
      obtain rfl := Option.some.inj harity
      obtain ⟨v, rfl⟩ := List.length_eq_one_iff.1 hlength
      refine (h.elements_mirrors .tail (hargs v List.mem_cons_self)).bind fun vs hvs => ?_
      cases vs with
      | nil => exact .pure hS.null
      | cons w vs => exact h.newArray_mirrors fun x hx => hvs x (List.mem_cons_of_mem _ hx)
    | push =>
      obtain rfl := Option.some.inj harity
      obtain ⟨v, x, rfl⟩ := List.length_eq_two.1 hlength
      obtain ⟨hv, hx⟩ := List.forall_mem_cons.1 hargs
      refine (h.elements_mirrors .push hv).bind fun vs hvs => ?_
      have hnew := h.newArray_mirrors (List.forall_mem_append.2 ⟨hvs, hx⟩)
      rwa [List.map_append] at hnew

end Mirror.Steps

/-! ## Trees -/

variable {apply : Value → List Value → Traced Value}

/-- Corresponding values are applied to corresponding arguments with corresponding ends. -/
abbrev Mirror.Applies (M : Mirror) (apply : Value → List Value → Traced Value) : Prop :=
  ∀ f args, M.values f → (∀ v ∈ args, M.values v) →
    Traced.MirrorsValue M (apply f args)
      (apply (f.rename M.rename) (args.map (Value.rename M.rename)))

mutual

/-- The evaluations of an expression that reads only names with the property mirror each other. -/
theorem Expr.trace_mirrors (h : M.Steps C D) (happly : M.Applies apply) (e : Expr)
    (he : ∀ x ∈ e.reads, D x) (path : Path) {scope : ScopeId} (hscope : C scope) :
    Traced.MirrorsValue M (e.trace apply path scope)
      (e.trace apply path (M.rename.scope scope)) := by
  rw [Expr.trace, Expr.evaluate.eq_def, Expr.trace, Expr.evaluate.eq_def apply e path]
  refine Traced.Mirrors.note ?_ path (.expr e) scope
  have hS := h.inherited
  match e with
  | .ident x =>
    refine .lift ((h.lookup_mirrors hscope (he x List.mem_cons_self)).bind fun v hv => ?_)
    exact .give hS hv
  | .int _ => exact .pure (hS.int _)
  | .str _ => exact .pure (hS.str _)
  | .bool _ => exact .pure (hS.bool _)
  | .array es =>
    refine (Expr.traceList_mirrors h happly es he _ hscope).bind fun vs hvs => ?_
    exact .lift (h.newArray_mirrors hvs)
  | .hash ps =>
    have hnil : Value.OfEntries M.values [] := fun _ h => absurd h List.not_mem_nil
    refine (Expr.tracePairs_mirrors h happly hnil ps he _ hscope).bind fun es hes => ?_
    exact .lift (h.newHash_mirrors hes)
  | .unary op e =>
    refine (e.trace_mirrors h happly he _ hscope).bind fun v hv => .lift ?_
    rw [Value.unary_rename]
    exact .ofExcept (List.forall_mem_singleton.2 hv) (fun _ => Value.about_of_unary)
      fun _ => hS.unary
  | .binary op l r =>
    obtain ⟨hl, hr⟩ := List.forall_mem_append.1 he
    refine (l.trace_mirrors h happly hl _ hscope).bind fun v hv => ?_
    refine (r.trace_mirrors h happly hr _ hscope).bind fun w hw => .lift ?_
    have hvw := List.forall_mem_cons.2 ⟨hv, List.forall_mem_singleton.2 hw⟩
    rw [Value.binary_rename]
    exact .ofExcept hvw (fun _ => Value.about_of_binary) fun _ => hS.binary
  | .cond c yes none =>
    obtain ⟨hc, hyes⟩ := List.forall_mem_append.1 he
    refine (c.trace_mirrors h happly hc _ hscope).bind fun v _ => ?_
    rw [Value.truthy_rename]
    cases v.truthy with
    | true => exact Stmt.traceFrom_mirrors h happly hS.null yes hyes _ hscope
    | false => exact .pure hS.null
  | .cond c yes (some no) =>
    obtain ⟨hc, hyesno⟩ := List.forall_mem_append.1 he
    obtain ⟨hyes, hno⟩ := List.forall_mem_append.1 hyesno
    refine (c.trace_mirrors h happly hc _ hscope).bind fun v _ => ?_
    rw [Value.truthy_rename]
    cases v.truthy with
    | true => exact Stmt.traceFrom_mirrors h happly hS.null yes hyes _ hscope
    | false => exact Stmt.traceFrom_mirrors h happly hS.null no hno _ hscope
  | .function params body => exact .lift (h.newFunction_mirrors hscope he)
  | .call callee args =>
    obtain ⟨hcallee, hargs⟩ := List.forall_mem_append.1 he
    refine (callee.trace_mirrors h happly hcallee _ hscope).bind fun f hf => ?_
    refine (Expr.traceList_mirrors h happly args hargs _ hscope).bind fun vs hvs => ?_
    exact (happly f vs hf hvs).bind fun v hv => .lift (.give hS hv)
  | .index container key =>
    obtain ⟨hcontainer, hkey⟩ := List.forall_mem_append.1 he
    refine (container.trace_mirrors h happly hcontainer _ hscope).bind fun c hc => ?_
    refine (key.trace_mirrors h happly hkey _ hscope).bind fun k hk => .lift ?_
    have hck := List.forall_mem_cons.2 ⟨hc, List.forall_mem_singleton.2 hk⟩
    have hindex := Eval.Mirrors.ofExcept hck (fun _ => Value.about_of_index) fun _ => hS.index hc
    rw [Value.index_rename]
    exact hindex.bind fun v hv => .give hS hv
termination_by structural e

theorem Expr.traceList_mirrors (h : M.Steps C D) (happly : M.Applies apply) (es : List Expr)
    (hes : ∀ x ∈ Expr.namesList (fun _ names => names) es, D x) (path : Path)
    {scope : ScopeId} (hscope : C scope) :
    Traced.Mirrors M (List.map (Value.rename M.rename)) (fun vs => ∀ v ∈ vs, M.values v)
      (Expr.traceList apply es path scope)
      (Expr.traceList apply es path (M.rename.scope scope)) := by
  match es with
  | [] => exact .pure fun _ h => absurd h List.not_mem_nil
  | e :: es =>
    obtain ⟨he, hes⟩ := List.forall_mem_append.1 hes
    refine (e.trace_mirrors h happly he _ hscope).bind fun v hv => ?_
    refine (Expr.traceList_mirrors h happly es hes _ hscope).bind fun vs hvs => ?_
    exact .pure (List.forall_mem_cons.2 ⟨hv, hvs⟩)
termination_by structural es

/-- The evaluations of pairs mirror each other, from corresponding entries on. -/
theorem Expr.tracePairs_mirrors (h : M.Steps C D) (happly : M.Applies apply)
    {entries : List (HashKey × Value × Value)} (hentries : Value.OfEntries M.values entries)
    (ps : List (Expr × Expr)) (hps : ∀ x ∈ Expr.namesPairs (fun _ names => names) ps, D x)
    (path : Path) {scope : ScopeId} (hscope : C scope) :
    Traced.Mirrors M (List.map fun e => (e.1, Value.renameEntry M.rename e.2))
      (Value.OfEntries M.values)
      (Expr.tracePairs apply entries ps path scope)
      (Expr.tracePairs apply (entries.map fun e => (e.1, Value.renameEntry M.rename e.2)) ps path
        (M.rename.scope scope)) := by
  match ps with
  | [] => exact .pure hentries
  | (k, v) :: ps =>
    obtain ⟨hk, hvps⟩ := List.forall_mem_append.1 hps
    obtain ⟨hv, hps⟩ := List.forall_mem_append.1 hvps
    refine (k.trace_mirrors h happly hk _ hscope).bind fun x hx => ?_
    rw [Value.hashKey?_rename]
    cases x.hashKey? with
    | none => exact .lift (.fail (.self rfl) (List.forall_mem_singleton.2 hx))
    | some key =>
      refine (v.trace_mirrors h happly hv _ hscope).bind fun y hy => ?_
      have hput : Value.OfEntries M.values (Assoc.put key (x, y) entries) := hentries.put hx hy
      have hpairs := Expr.tracePairs_mirrors h happly hput ps hps (Places.next (Places.next path))
        hscope
      rwa [← Assoc.put_map] at hpairs
termination_by structural ps

theorem Stmt.trace_mirrors (h : M.Steps C D) (happly : M.Applies apply) (st : Stmt)
    (hst : ∀ x ∈ st.names (fun _ names => names), D x) (path : Path) {scope : ScopeId}
    (hscope : C scope) :
    Traced.MirrorsValue M (st.trace apply path scope)
      (st.trace apply path (M.rename.scope scope)) := by
  rw [Stmt.trace, Stmt.evaluate.eq_def, Stmt.trace, Stmt.evaluate.eq_def apply st path]
  refine Traced.Mirrors.note ?_ path (.stmt st) scope
  match st with
  | .bind x e =>
    refine (e.trace_mirrors h happly hst _ hscope).bind fun v hv => ?_
    exact (Traced.Mirrors.lift (h.bindName_mirrors hscope x hv)).bind fun _ _ =>
      .pure h.inherited.null
  | .ret e => exact (e.trace_mirrors h happly hst _ hscope).bind fun v hv => .lift (.leave hv)
  | .expr e => exact e.trace_mirrors h happly hst _ hscope
termination_by structural st

theorem Stmt.traceFrom_mirrors (h : M.Steps C D) (happly : M.Applies apply) {v : Value}
    (hv : M.values v) (ss : List Stmt) (hss : ∀ x ∈ Stmt.readsList ss, D x) (path : Path)
    {scope : ScopeId} (hscope : C scope) :
    Traced.MirrorsValue M (Stmt.traceFrom apply v ss path scope)
      (Stmt.traceFrom apply (v.rename M.rename) ss path (M.rename.scope scope)) := by
  match ss with
  | [] => exact .pure hv
  | st :: ss =>
    obtain ⟨hst, hss⟩ := List.forall_mem_append.1 hss
    refine (st.trace_mirrors h happly hst _ hscope).bind fun v hv => ?_
    exact Stmt.traceFrom_mirrors h happly hv ss hss _ hscope
termination_by structural ss

end

/-! ## Calls -/

/-- A call is entered in corresponding scopes, and comes from the same literal. -/
theorem Traced.Mirrors.enter (h : M.Steps C D) {id : ObjectId} {c : Closure} {args : List Value}
    (hf : M.values (.function id c)) (hargs : ∀ v ∈ args, M.values v)
    {body : Path → ScopeId → Traced Value}
    (hbody : ∀ path scope, C scope →
      Traced.MirrorsValue M (body path scope) (body path (M.rename.scope scope))) :
    Traced.MirrorsValue M (enter id c args body)
      (enter (M.rename.object id) (c.rename M.rename) (args.map (Value.rename M.rename)) body) := by
  intro s t j k hst hjk
  obtain ⟨hscope, hsize⟩ := h.scope hst
  simp only [Traced.enter, hjk.origin, hsize]
  exact hbody (j.origin id c) s.scopes.size hscope (h.enter hst hf hargs) hjk

/-- A value that is not called with as many arguments as it has parameters, or not called for
    want of depth. -/
theorem Value.apply_mirrors (h : M.Steps C D) {depth : Nat} {f : Value} {args : List Value}
    (hne : ∀ n id c, depth = n + 1 → f = .function id c → c.params.length ≠ args.length)
    (hf : M.values f) (hargs : ∀ v ∈ args, M.values v) :
    Eval.MirrorsValue M (f.apply depth args)
      ((f.rename M.rename).apply depth (args.map (Value.rename M.rename))) := by
  cases f with
  | function id c =>
    have hlength := length_params_rename M.rename c args
    rw [Value.rename]
    by_cases hparams : c.params.length = args.length
    · cases depth with
      | zero =>
        rw [apply_function_zero hparams, apply_function_zero (hlength.2 hparams)]
        exact .exhaust
      | succ n => exact absurd hparams (hne n id c rfl rfl)
    · rw [apply_function_of_ne hparams, apply_function_of_ne (hlength.not.2 hparams),
        List.length_map]
      exact .fail (.self rfl) (List.forall_mem_nil _)
  | builtin b =>
    rw [apply_builtin, Value.rename, apply_builtin]
    exact h.call_mirrors b hargs
  | _ =>
    rw [apply_of_not_callable, apply_of_not_callable]
    · exact .fail (.self rfl) (List.forall_mem_singleton.2 hf)
    all_goals nofun

/-- Corresponding values are applied alike to corresponding arguments. -/
theorem Value.trace_mirrors (h : M.Steps C D) (depth : Nat) : M.Applies (Value.trace depth) := by
  refine fun f args => Value.trace_induction (P := fun depth f args m => M.values f →
    (∀ v ∈ args, M.values v) → Traced.MirrorsValue M m
      ((f.rename M.rename).trace depth (args.map (Value.rename M.rename)))) ?_ ?_ depth f args
  · intro depth id c args hlength ih hf hargs
    rw [Value.rename, trace_function ((length_params_rename M.rename c args).2 hlength)]
    refine .enter h hf hargs fun path scope hscope => .catchReturn ?_
    exact Stmt.traceFrom_mirrors h ih h.inherited.null c.body (h.body hf) _ hscope
  · intro depth f args hne hf hargs
    rw [trace_eq_lift fun n id c hdepth hf => ?_]
    · exact .lift (Value.apply_mirrors h hne hf hargs)
    -- A renamed value is a function if it was one, with as many parameters.
    · cases f with
      | function i d =>
        cases hf
        exact (length_params_rename M.rename d args).not.2 (hne n i d hdepth rfl)
      | _ => cases hf

/-! ## Evaluations without journals -/

/-- Evaluations mirror each other if their traces do. -/
theorem Traced.Mirrors.erase {α β : Type} {f : α → β} {Q : α → Prop} {m : Traced α} {n : Traced β}
    {m' : Eval α} {n' : Eval β} (hmn : Traced.Mirrors M f Q m n) (hm : Erases m m')
    (hn : Erases n n') : Eval.Mirrors M f Q m' n' := by
  intro s t hst
  obtain ⟨hstates, -, houtcome⟩ := hmn hst .nil
  rw [hm s, hn t] at houtcome
  rw [hm s, hn t] at hstates
  exact ⟨hstates, houtcome⟩

/-- Without their journals the evaluations of statements mirror each other as well. -/
theorem Stmt.evalFrom_mirrors (h : M.Steps C D) (depth : Nat) {v : Value} (hv : M.values v)
    (ss : List Stmt) (hss : ∀ x ∈ Stmt.readsList ss, D x) {scope : ScopeId} (hscope : C scope) :
    Eval.MirrorsValue M (Stmt.evalFrom (Value.apply depth) v ss scope)
      (Stmt.evalFrom (Value.apply depth) (v.rename M.rename) ss (M.rename.scope scope)) :=
  (Stmt.traceFrom_mirrors h (Value.trace_mirrors h depth) hv ss hss [] hscope).erase
    (Stmt.erases_traceFrom depth v ss [] scope)
    (Stmt.erases_traceFrom depth _ ss [] (M.rename.scope scope))

/-- Programs that look up only names whose values correspond come to corresponding ends. -/
theorem Program.eval_mirrors (h : M.Steps C D) (depth : Nat) (p : Program)
    (hp : ∀ x ∈ p.reads, D x) {scope : ScopeId} (hscope : C scope) :
    Eval.MirrorsValue M (p.eval depth scope) (p.eval depth (M.rename.scope scope)) := by
  have hfrom := Stmt.traceFrom_mirrors h (Value.trace_mirrors h depth) h.inherited.null p hp [0]
    hscope
  exact ((hfrom.catchReturn).note [] (.program p) scope).erase (p.erases_trace depth scope)
    (p.erases_trace depth (M.rename.scope scope))

end

end Monkey
