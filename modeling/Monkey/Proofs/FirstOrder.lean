import Mathlib.Data.List.Permutation
import Monkey.Proofs.Lexical

/-!
# Programs without functions

Evaluation goes through a tree once, from left to right, and leaves out what is not needed.
It comes to an end because the tree does. Only a call of a function goes on to another tree,
or to the same one again.

An evaluation is a *walk* (`Traced.Walks`) if it comes to an end and evaluates no tree twice,
and only such as stand at certain places. Where every application of a value is a walk that
evaluates no trees at all, the evaluation of a tree is a walk at the place of the tree and
below (`Expr.trace_walks`, with its companions for lists, statements and blocks). There are
two cases of this, and they are the two halves of the main statement
(`Program.trace_firstOrder`):

* in a program without function literals, evaluated where no function can be reached, no
  function is ever applied, and none can be reached afterwards;
* in any program, if functions are called in some way that comes to an end.
-/

namespace Monkey

open Eval Traced State

/-! ## Evaluations that come to an end -/

/-- The evaluation comes to an end, in every state. -/
def Eval.Ending {α : Type} (m : Eval α) : Prop :=
  ∀ s, (m.run s).1 ≠ .exhausted

namespace Eval.Ending

variable {α β : Type}

theorem pure (a : α) : Ending (pure a) :=
  fun _ => nofun

/-- What goes on after an end comes to an end itself. -/
theorem bind {m : Eval α} {k : α → Eval β} (hm : Ending m) (hk : ∀ a, Ending (k a)) :
    Ending (m >>= k) := by
  intro s
  have h := hm s
  rw [run_bind]
  rcases hr : m.run s with ⟨a | v | e | _, t⟩ <;> rw [hr] at h
  · exact hk a t
  · exact nofun
  · exact nofun
  · exact absurd rfl h

theorem fail (e : EvalError) : Ending (fail e : Eval α) :=
  fun _ => nofun

theorem leave (v : Value) : Ending (leave v : Eval α) :=
  fun _ => nofun

theorem onState (f : State → α × State) : Ending (onState f) :=
  fun _ => nofun

theorem ofExcept (r : Except EvalError α) : Ending (ofExcept r) := by
  cases r with
  | ok a => exact .pure a
  | error e => exact .fail e

theorem give (v : Value) : Ending (give v) := by
  cases v with
  | ret v => exact .leave v
  | _ => exact .pure _

/-- A name is looked up to an end, whether it stands for something or not. -/
theorem lookup (scope : ScopeId) (x : String) : Ending (lookup scope x) := by
  intro s
  rw [run_lookup]
  split <;> exact nofun

theorem bindName (scope : ScopeId) (x : String) (v : Value) : Ending (bindName scope x v) :=
  .onState _

theorem newArray (vs : List Value) : Ending (newArray vs) :=
  (Ending.onState _).bind fun _ => .pure _

theorem newHash (entries : List (HashKey × Value × Value)) : Ending (newHash entries) :=
  (Ending.onState _).bind fun _ => .pure _

theorem newFunction (c : Closure) : Ending (newFunction c) :=
  (Ending.onState _).bind fun _ => .pure _

/-- Built-in functions come to an end. -/
theorem call (b : Builtin) (args : List Value) : Ending (b.call args) := by
  intro s
  have hdoes := b.does_call args s
  generalize (b.call args).run s = r at hdoes
  cases hdoes <;> exact nofun

/-- A value that is no function is applied to an end. -/
theorem apply {f : Value} (hf : f.kind ≠ .function) (depth : Nat) (args : List Value) :
    Ending (f.apply depth args) := by
  by_cases hbuiltin : f.kind = .builtin
  · cases f with
    | builtin b =>
      rw [Value.apply_builtin]
      exact .call b args
    | _ => cases hbuiltin
  · rw [Value.apply_of_not_callable hf hbuiltin]
    exact .fail _

end Eval.Ending

/-! ## Places -/

/-- The places at which the evaluation of a tree starts, the latest first. -/
def Journal.starts (j : Journal) : List Path :=
  (j.filter fun m => m.outcome?.isNone).map Moment.path

theorem Journal.starts_append (j j' : Journal) :
    (j ++ j' : Journal).starts = j.starts ++ j'.starts := by
  rw [starts, List.filter_append, List.map_append]
  rfl

/-- Where an evaluation starts, the journal has a moment. -/
theorem Journal.exists_of_mem_starts {j : Journal} {q : Path} (h : q ∈ j.starts) :
    ∃ m ∈ j, m.path = q := by
  obtain ⟨m, hm, rfl⟩ := List.mem_map.1 h
  exact ⟨m, (List.mem_filter.1 hm).1, rfl⟩

/-- The place is that of a child of the tree at the path, from the `i`-th on, or below it. -/
def Path.Beyond (path : Path) (i : Nat) (q : Path) : Prop :=
  ∃ k, i ≤ k ∧ k :: path <:+ q

namespace Path.Beyond

variable {path q : Path} {i j : Nat}

theorem mono (hij : i ≤ j) (h : Path.Beyond path j q) : Path.Beyond path i q := by
  obtain ⟨k, hk, hq⟩ := h
  exact ⟨k, Nat.le_trans hij hk, hq⟩

theorem suffix (h : Path.Beyond path i q) : path <:+ q := by
  obtain ⟨k, -, hq⟩ := h
  exact (List.suffix_cons k path).trans hq

/-- Below a child is not where the tree itself stands. -/
theorem ne (h : Path.Beyond path i q) : q ≠ path := by
  rintro rfl
  obtain ⟨k, -, hq⟩ := h
  exact absurd hq.length_le (Nat.not_le_of_lt (Nat.lt_succ_self _))

/-- What is below one child is not below a later one. -/
theorem not_suffix (h : Path.Beyond path (i + 1) q) : ¬i :: path <:+ q := by
  intro hi
  obtain ⟨k, hk, hq⟩ := h
  have heq : i :: path = k :: path :=
    (List.suffix_of_suffix_length_le hi hq (Nat.le_refl _)).eq_of_length rfl
  obtain rfl := (List.cons.inj heq).1
  exact Nat.not_succ_le_self i hk

end Path.Beyond

/-! ## Walks -/

/-- From every state with the invariant `I` the evaluation comes to an end, in a state with the
    invariant and values with the properties `S` and `Q`. It evaluates only trees at places with
    the property `R`, and none twice. -/
def Traced.Walks {α : Type} (I : State → Prop) (S : Value → Prop) (R : Path → Tree → Prop)
    (Q : α → Prop) (m : Traced α) : Prop :=
  ∀ s j, I s → ∃ new, (m.run s j).2 = new ++ j ∧ new.starts.Nodup ∧
    (∀ n ∈ new, R n.path n.tree) ∧ I (m.run s j).1.2 ∧
    (m.run s j).1.1.Holds S Q ∧ (m.run s j).1.1 ≠ .exhausted

/-- The place at which no tree stands. -/
def Path.Nowhere : Path → Tree → Prop :=
  fun _ _ => False

/-- The tree stands at the path in the program or below it, within the literals `ctx`. -/
def Path.At (p : Program) (ctx : List Literal) (path q : Path) (t : Tree) : Prop :=
  path <:+ q ∧ Occurs p q ctx t

/-- The tree stands at or below a child of the tree at the path, from the `i`-th on. -/
def Path.After (p : Program) (ctx : List Literal) (path : Path) (i : Nat) (q : Path) (t : Tree) :
    Prop :=
  path.Beyond i q ∧ Occurs p q ctx t

namespace Traced.Walks

variable {α β : Type} {I : State → Prop} {S : Value → Prop} {R R₁ R₂ : Path → Tree → Prop}
  {Q : α → Prop} {Q' : β → Prop} {p : Program} {ctx : List Literal} {path : Path} {i : Nat}

/-- A value that is there already is had without any tree. -/
theorem pure {a : α} (h : Q a) : Walks I S R Q (pure a) :=
  fun _ _ hs => ⟨[], rfl, List.nodup_nil, List.forall_mem_nil _, hs, h, nofun⟩

/-- An evaluation without moments. -/
theorem lift {m : Eval α} (hkeeps : Keeps I S Q m) (hends : m.Ending) : Walks I S R Q (lift m) :=
  fun s _ hs => ⟨[], rfl, List.nodup_nil, List.forall_mem_nil _, (hkeeps hs).1, (hkeeps hs).2,
    hends s⟩

/-- The places of a walk may be told less exactly. -/
theorem widen {m : Traced α} (h : Walks I S R₁ Q m) (hR : ∀ q t, R₁ q t → R q t) :
    Walks I S R Q m := by
  intro s j hs
  obtain ⟨new, hnew, hnodup, hplaces, h⟩ := h s j hs
  exact ⟨new, hnew, hnodup, fun n hn => hR _ _ (hplaces n hn), h⟩

/-- What is evaluated at other places can go on. -/
theorem bind {m : Traced α} {k : α → Traced β} (hm : Walks I S R₁ Q m)
    (hk : ∀ a, Q a → Walks I S R₂ Q' (k a)) (hR₁ : ∀ q t, R₁ q t → R q t)
    (hR₂ : ∀ q t, R₂ q t → R q t) (hdisjoint : ∀ q t u, R₁ q t → ¬R₂ q u) :
    Walks I S R Q' (m >>= k) := by
  intro s j hs
  obtain ⟨new, hnew, hnodup, hplaces, ht, hholds, hne⟩ := hm s j hs
  have hplaces' : ∀ n ∈ new, R n.path n.tree := fun n hn => hR₁ _ _ (hplaces n hn)
  rw [Traced.run_bind]
  -- What has not ended in a value is left as it is.
  rcases hrun : m.run s j with ⟨⟨a | v | e | _, t⟩, j'⟩ <;> rw [hrun] at hnew ht hholds hne
  · obtain ⟨new', hnew', hnodup', hplaces₂, h⟩ := hk a hholds t j' ht
    refine ⟨new' ++ new, ?_, ?_, List.forall_mem_append.2 ⟨fun n hn => ?_, hplaces'⟩, h⟩
    · rw [List.append_assoc, ← hnew]
      exact hnew'
    · rw [Journal.starts_append]
      refine List.nodup_append.2 ⟨hnodup', hnodup, ?_⟩
      rintro _ hq' _ hq rfl
      obtain ⟨n', hn', rfl⟩ := Journal.exists_of_mem_starts hq'
      obtain ⟨n, hn, heq⟩ := Journal.exists_of_mem_starts hq
      exact hdisjoint _ _ _ (hplaces n hn) (heq ▸ hplaces₂ n' hn')
    · exact hR₂ _ _ (hplaces₂ n hn)
  · exact ⟨new, hnew, hnodup, hplaces', ht, hholds, nofun⟩
  · exact ⟨new, hnew, hnodup, hplaces', ht, hholds, nofun⟩
  · exact absurd rfl hne

/-- After the child at one place come those at later ones. -/
theorem next {m : Traced α} {k : α → Traced β} (hm : Walks I S (Path.At p ctx (i :: path)) Q m)
    (hk : ∀ a, Q a → Walks I S (path.After p ctx (i + 1)) Q' (k a)) :
    Walks I S (path.After p ctx i) Q' (m >>= k) :=
  hm.bind hk (fun _ _ h => ⟨⟨i, Nat.le_refl i, h.1⟩, h.2⟩)
    (fun _ _ h => ⟨h.1.mono (Nat.le_succ i), h.2⟩) fun _ _ _ h h' => h'.1.not_suffix h.1

/-- What evaluates no tree can go on anywhere. -/
theorem last {m : Traced α} {k : α → Traced β} (hm : Walks I S R Q m)
    (hk : ∀ a, Q a → Walks I S Path.Nowhere Q' (k a)) : Walks I S R Q' (m >>= k) :=
  hm.bind hk (fun _ _ => id) (fun _ _ h => h.elim) fun _ _ _ _ h => h

/-- The child at a place is one of those from that place on. -/
theorem child {m : Traced α} (h : Walks I S (Path.At p ctx (i :: path)) Q m) :
    Walks I S (path.After p ctx i) Q m :=
  h.widen fun _ _ h => ⟨⟨i, Nat.le_refl i, h.1⟩, h.2⟩

/-- A walk out of which a `return` goes is one where it is caught. -/
theorem catchReturn {m : Traced Value} (hm : Walks I S R S m) : Walks I S R S (catchReturn m) := by
  intro s j hs
  obtain ⟨new, hnew, hnodup, hplaces, ht, hholds, hne⟩ := hm s j hs
  refine ⟨new, ?_⟩
  rw [Traced.run_catchReturn]
  rcases hrun : m.run s j with ⟨⟨a | v | e | _, t⟩, j'⟩ <;> rw [hrun] at hnew ht hholds hne
  · exact ⟨hnew, hnodup, hplaces, ht, hholds, nofun⟩
  · exact ⟨hnew, hnodup, hplaces, ht, hholds, nofun⟩
  · exact ⟨hnew, hnodup, hplaces, ht, hholds, nofun⟩
  · exact absurd rfl hne

/-- The start of the evaluation of a tree comes before those of its parts, at another place. -/
theorem note {tree : Tree} {scope : ScopeId} {m : Traced Value} (hoccurs : Occurs p path ctx tree)
    (hm : Walks I S (path.After p ctx 0) S m) :
    Walks I S (Path.At p ctx path) S (note path tree scope m) := by
  intro s j hs
  obtain ⟨new, hnew, hnodup, hplaces, h⟩ := hm s (⟨path, tree, scope, s, .none⟩ :: j) hs
  let r := m.run s (⟨path, tree, scope, s, .none⟩ :: j)
  let start : Moment := ⟨path, tree, scope, s, .none⟩
  let stop : Moment := ⟨path, tree, scope, r.1.2, some r.1.1⟩
  have hstarts : Journal.starts (stop :: (new ++ [start])) = new.starts ++ [path] :=
    Journal.starts_append new [start]
  refine ⟨stop :: (new ++ [start]), ?_, ?_, ?_, h⟩
  · change stop :: r.2 = stop :: (new ++ [start]) ++ j
    rw [show r.2 = new ++ start :: j from hnew, List.cons_append, List.append_assoc]
    rfl
  · rw [hstarts]
    refine List.nodup_append.2 ⟨hnodup, List.pairwise_singleton _ path, ?_⟩
    rintro _ hq _ hpath rfl
    obtain ⟨n, hn, rfl⟩ := Journal.exists_of_mem_starts hq
    exact (hplaces n hn).1.ne (List.mem_singleton.1 hpath)
  · have hself : Path.At p ctx path path tree := ⟨List.suffix_rfl, hoccurs⟩
    refine List.forall_mem_cons.2 ⟨hself, List.forall_mem_append.2 ⟨fun n hn => ?_, ?_⟩⟩
    · exact ⟨(hplaces n hn).1.suffix, (hplaces n hn).2⟩
    · exact List.forall_mem_singleton.2 hself

end Traced.Walks

open Traced (Walks)

/-! ## Trees -/

/-- The steps that evaluation in a scope is made of keep an invariant and a property of values,
    and the application of a value comes to an end without the evaluation of trees. Literals
    count only if the program has some. -/
structure Walkable (p : Program) (I : State → Prop) (S : Value → Prop)
    (apply : Value → List Value → Traced Value) (scope : ScopeId) : Prop where
  inherited : Value.Inherited S
  function {path : Path} {ctx : List Literal} {params : List String} {body : Block} :
    Occurs p path ctx (.expr (.function params body)) →
      ∀ id, S (.function id ⟨params, body, scope⟩)
  lookup {s : State} {x : String} {v : Value} : I s → s.get? scope x = some v → S v
  bind {s : State} {x : String} {v : Value} : I s → S v → I (s.bind scope x v)
  newId (s : State) : I s → I s.newId.2
  apply {f : Value} {args : List Value} :
    S f → (∀ v ∈ args, S v) → Walks I S Path.Nowhere S (apply f args)

section

variable {p : Program} {I : State → Prop} {S : Value → Prop}
  {apply : Value → List Value → Traced Value} {scope : ScopeId} {R : Path → Tree → Prop}

namespace Walkable

/-- Names stand for values with the property, and looking them up evaluates no tree. -/
theorem ident (h : Walkable p I S apply scope) (x : String) :
    Walks I S R S (Traced.lift do give (← Eval.lookup scope x)) := by
  have hlookup : Keeps I S S (Eval.lookup scope x) := by
    intro s hs
    rw [Ends, run_lookup]
    split
    · next v hv => exact ⟨hs, h.lookup hs hv⟩
    · next b _ _ => exact ⟨hs, h.inherited.builtin b⟩
    · exact ⟨hs, List.forall_mem_nil _⟩
  exact .lift (hlookup.bind fun _ => .give h.inherited) ((Ending.lookup scope x).bind Ending.give)

theorem give (h : Walkable p I S apply scope) {v : Value} (hv : S v) :
    Walks I S R S (Traced.lift (Eval.give v)) :=
  .lift (.give h.inherited hv) (.give v)

theorem ofExcept {r : Except EvalError Value} {vs : List Value} (hvs : ∀ v ∈ vs, S v)
    (he : ∀ e, r = .error e → e.About vs) (h : ∀ v, r = .ok v → S v) :
    Walks I S R S (Traced.lift (Eval.ofExcept r)) :=
  .lift (.ofExcept hvs he h) (.ofExcept r)

/-- Arrays of values with the property have it, and creating them evaluates no tree. -/
theorem newArray (h : Walkable p I S apply scope) {vs : List Value} (hvs : ∀ v ∈ vs, S v) :
    Walks I S R S (Traced.lift (Eval.newArray vs)) :=
  .lift (newArray_keeps h.inherited h.newId hvs) (.newArray vs)

theorem newHash (h : Walkable p I S apply scope) {entries : List (HashKey × Value × Value)}
    (hentries : Value.OfEntries S entries) : Walks I S R S (Traced.lift (Eval.newHash entries)) :=
  .lift (newHash_keeps h.inherited h.newId hentries) (.newHash entries)

/-- Functions are created from literals that occur, and not evaluated then. -/
theorem newFunction (h : Walkable p I S apply scope) {path : Path} {ctx : List Literal}
    {params : List String} {body : Block}
    (hoccurs : Occurs p path ctx (.expr (.function params body))) :
    Walks I S R S (Traced.lift (Eval.newFunction ⟨params, body, scope⟩)) := by
  have hid : Keeps I S (fun _ => True) (Eval.onState State.newId) :=
    .onState h.newId fun _ _ => trivial
  exact .lift (hid.bind fun id _ => .pure (h.function hoccurs id)) (.newFunction _)

/-- Values with the property may be bound without the evaluation of a tree. -/
theorem bindName (h : Walkable p I S apply scope) (x : String) {v : Value} (hv : S v) :
    Walks I S R S (do Traced.lift (Eval.bindName scope x v); return .null) := by
  have hbind : Keeps I S (fun _ => True) (Eval.bindName scope x v) :=
    .onState (fun _ hs => h.bind hs hv) fun _ _ => trivial
  have hwalks : Walks I S R (fun _ => True) (Traced.lift (Eval.bindName scope x v)) :=
    .lift hbind (.bindName scope x v)
  exact hwalks.last fun _ _ => .pure h.inherited.null

end Walkable

mutual

/-- The evaluation of an expression is a walk through it. -/
theorem Expr.trace_walks (h : Walkable p I S apply scope) (e : Expr) {path : Path}
    {ctx : List Literal} (hoccurs : Occurs p path ctx (.expr e)) :
    Walks I S (Path.At p ctx path) S (e.trace apply path scope) := by
  rw [Expr.trace, Expr.evaluate.eq_def]
  have hS := h.inherited
  have hparts := hoccurs.siblings
  refine .note hoccurs ?_
  match e with
  | .ident x => exact h.ident x
  | .int _ => exact .pure (hS.int _)
  | .str _ => exact .pure (hS.str _)
  | .bool _ => exact .pure (hS.bool _)
  | .array es => exact (Expr.traceList_walks h es hparts).last fun _ hvs => h.newArray hvs
  | .hash ps =>
    have hnil : Value.OfEntries S [] := fun _ h => absurd h List.not_mem_nil
    exact (Expr.tracePairs_walks h hnil ps hparts).last fun _ hes => h.newHash hes
  | .unary op e =>
    refine (e.trace_walks h hparts.head).child.last fun v hv => ?_
    exact Walkable.ofExcept (List.forall_mem_singleton.2 hv) (fun _ => Value.about_of_unary)
      fun _ => hS.unary
  | .binary op l r =>
    refine (l.trace_walks h hparts.head).next fun v hv => ?_
    refine (r.trace_walks h hparts.tail.head).child.last fun w hw => ?_
    have hvw := List.forall_mem_cons.2 ⟨hv, List.forall_mem_singleton.2 hw⟩
    exact Walkable.ofExcept hvw (fun _ => Value.about_of_binary) fun _ => hS.binary
  | .cond c yes none =>
    refine (c.trace_walks h hparts.head).next fun v _ => ?_
    cases v.truthy with
    | true => exact Stmt.traceFrom_walks h hS.null yes hparts.tail.left
    | false => exact .pure hS.null
  | .cond c yes (some no) =>
    refine (c.trace_walks h hparts.head).next fun v _ => ?_
    -- The statements of the second block stand after those of the first.
    have hno := hparts.tail.right
    rw [List.length_map] at hno
    cases v.truthy with
    | true => exact Stmt.traceFrom_walks h hS.null yes hparts.tail.left
    | false =>
      refine (Stmt.traceFrom_walks h hS.null no hno).widen fun _ _ hq => ?_
      exact ⟨hq.1.mono (Nat.le_add_right _ _), hq.2⟩
  | .function params body => exact h.newFunction hoccurs
  | .call callee args =>
    refine (callee.trace_walks h hparts.head).next fun f hf => ?_
    refine (Expr.traceList_walks h args hparts.tail).last fun vs hvs => ?_
    exact (h.apply hf hvs).last fun _ hv => h.give hv
  | .index container key =>
    refine (container.trace_walks h hparts.head).next fun c hc => ?_
    refine (key.trace_walks h hparts.tail.head).child.last fun k hk => ?_
    have hck := List.forall_mem_cons.2 ⟨hc, List.forall_mem_singleton.2 hk⟩
    have hindex : Keeps I S S (Eval.ofExcept (Value.index c k)) :=
      .ofExcept hck (fun _ => Value.about_of_index) fun _ => hS.index hc
    exact .lift (hindex.bind fun _ => .give hS) ((Ending.ofExcept _).bind Ending.give)
termination_by structural e

theorem Expr.traceList_walks (h : Walkable p I S apply scope) (es : List Expr) {path : Path}
    {i : Nat} {ctx : List Literal} (hes : Siblings p path ctx i (es.map .expr)) :
    Walks I S (path.After p ctx i) (fun vs => ∀ v ∈ vs, S v)
      (Expr.traceList apply es (i :: path) scope) := by
  match es with
  | [] => exact .pure fun _ h => absurd h List.not_mem_nil
  | e :: es =>
    refine (e.trace_walks h hes.head).next fun v hv => ?_
    refine (Expr.traceList_walks h es hes.tail).last fun vs hvs => .pure ?_
    exact List.forall_mem_cons.2 ⟨hv, hvs⟩
termination_by structural es

/-- The evaluation of pairs is a walk through keys and values in turn. -/
theorem Expr.tracePairs_walks (h : Walkable p I S apply scope)
    {entries : List (HashKey × Value × Value)} (hentries : Value.OfEntries S entries)
    (ps : List (Expr × Expr)) {path : Path} {i : Nat} {ctx : List Literal}
    (hps : Siblings p path ctx i (Expr.children (.hash ps))) :
    Walks I S (path.After p ctx i) (Value.OfEntries S)
      (Expr.tracePairs apply entries ps (i :: path) scope) := by
  match ps with
  | [] => exact .pure hentries
  | (k, v) :: ps =>
    refine (k.trace_walks h hps.head).next fun key hkey => ?_
    cases key.hashKey? with
    | none =>
      exact .lift (.fail (.self rfl) (List.forall_mem_singleton.2 hkey)) (.fail _)
    | some _ =>
      refine (v.trace_walks h hps.tail.head).next fun x hx => ?_
      exact Expr.tracePairs_walks h (hentries.put hkey hx) ps hps.tail.tail
termination_by structural ps

theorem Stmt.trace_walks (h : Walkable p I S apply scope) (s : Stmt) {path : Path}
    {ctx : List Literal} (hoccurs : Occurs p path ctx (.stmt s)) :
    Walks I S (Path.At p ctx path) S (s.trace apply path scope) := by
  rw [Stmt.trace, Stmt.evaluate.eq_def]
  have hparts := hoccurs.siblings
  refine .note hoccurs ?_
  match s with
  | .bind x e => exact (e.trace_walks h hparts.head).child.last fun v hv => h.bindName x hv
  | .ret e =>
    exact (e.trace_walks h hparts.head).child.last fun v hv => .lift (.leave hv) (.leave v)
  | .expr e => exact (e.trace_walks h hparts.head).child
termination_by structural s

theorem Stmt.traceFrom_walks (h : Walkable p I S apply scope) {v : Value} (hv : S v)
    (ss : List Stmt) {path : Path} {i : Nat} {ctx : List Literal}
    (hss : Siblings p path ctx i (ss.map .stmt)) :
    Walks I S (path.After p ctx i) S (Stmt.traceFrom apply v ss (i :: path) scope) := by
  match ss with
  | [] => exact .pure hv
  | s :: ss =>
    exact (s.trace_walks h hss.head).next fun v hv => Stmt.traceFrom_walks h hv ss hss.tail
termination_by structural ss

end

end

/-! ## Calls in another way -/

/-- Applies a value to arguments, where functions are called in the way given. -/
def Value.applyWith (call : ObjectId → Closure → List Value → Eval Value) (f : Value)
    (args : List Value) : Eval Value :=
  match f with
  | .function id c => call id c args
  | f => f.apply 0 args

/-- Evaluates a program in a scope, where functions are called in the way given. -/
def Program.evalWith (call : ObjectId → Closure → List Value → Eval Value) (p : Program)
    (scope : ScopeId) : Eval Value :=
  catchReturn (Block.eval (Value.applyWith call) p scope)

/-- Calls with a bound on how deep they may be nested are one way of calling. -/
theorem Value.apply_eq_applyWith (depth : Nat) :
    Value.apply depth = Value.applyWith fun id c => (Value.function id c).apply depth := by
  funext f args
  cases f with
  | function => rfl
  | builtin => exact apply_builtin.trans apply_builtin.symm
  | _ => refine (apply_of_not_callable ?_ ?_).trans (apply_of_not_callable ?_ ?_).symm <;> nofun

/-- To evaluate a program is to evaluate it so that functions are called as usual. -/
theorem Program.eval_eq_evalWith (depth : Nat) (p : Program) (scope : ScopeId) :
    p.eval depth scope = p.evalWith (fun id c => (Value.function id c).apply depth) scope :=
  congrArg (fun apply => catchReturn (Block.eval apply p scope)) (Value.apply_eq_applyWith depth)

/-- Values are applied to an end where calls are. -/
theorem Value.ending_applyWith {call : ObjectId → Closure → List Value → Eval Value}
    (hcall : ∀ id c args, (call id c args).Ending) (f : Value) (args : List Value) :
    (f.applyWith call args).Ending := by
  cases f with
  | function id c => exact hcall id c args
  | _ =>
    refine .apply ?_ 0 args
    nofun

/-- A program comes to an end if calls do. -/
theorem Program.ending_evalWith {call : ObjectId → Closure → List Value → Eval Value}
    (hcall : ∀ id c args, (call id c args).Ending) (p : Program) (scope : ScopeId) :
    (p.evalWith call scope).Ending := by
  intro s
  -- Nothing is asked of states and values.
  have hwalkable : Walkable p (fun _ => True) (fun _ => True)
      (fun f args => Traced.lift (f.applyWith call args)) scope :=
    { inherited := Value.inherited_true
      function := fun _ _ => trivial
      lookup := fun _ _ => trivial
      bind := fun _ _ => trivial
      newId := fun _ _ => trivial
      apply := fun {f args} _ _ => by
        refine .lift (fun s _ => ⟨trivial, ?_⟩) (Value.ending_applyWith hcall f args)
        exact .of_forall (fun _ => trivial) fun _ => trivial }
  have hbody := Stmt.traceFrom_walks (v := .null) hwalkable trivial p Occurs.root.siblings
  obtain ⟨_, -, -, -, -, -, hne⟩ := hbody.catchReturn s [] trivial
  have herases : Erases
      (Stmt.traceFrom (fun f args => Traced.lift (f.applyWith call args)) .null p [0] scope)
      (Stmt.evalFrom (Value.applyWith call) .null p scope) :=
    Stmt.evaluateFrom_related Erases.related (fun _ _ => .lift _) .null p [0] () scope
  rwa [herases.catchReturn s []] at hne

/-! ## No functions -/

/-- No function literal stands in the program. -/
def Program.LiteralFree (p : Program) : Prop :=
  ∀ path ctx params body, ¬Occurs p path ctx (.expr (.function params body))

/-- Trees that have their children among them are all that stand in a program, if it is one of
    them. -/
theorem Occurs.mem_of_children_mem {p : Program} {trees : List Tree} (hroot : .program p ∈ trees)
    (hchildren : ∀ t ∈ trees, ∀ u ∈ t.children, u ∈ trees) {path : Path} {ctx : List Literal}
    {t : Tree} (h : Occurs p path ctx t) : t ∈ trees := by
  induction h with
  | root => exact hroot
  | child _ hu ih => exact hchildren _ ih _ (List.mem_of_getElem? hu)

/-- No function can be reached. -/
abbrev State.FunctionFree (s : State) (n : Node) : Prop :=
  s.All (fun v => v.kind ≠ .function) n

/-- What is made of values that reach no function reaches none. -/
theorem Value.inherited_functionFree (C : ScopeId → Prop) :
    Value.Inherited (Value.Confined (fun v => v.kind ≠ .function) C) :=
  Value.Confined.inherited_of fun _ hk _ hv hfunction =>
    hk (hv ▸ hfunction ▸ List.mem_cons_self)

/-- Where there are no functions, none is applied. -/
theorem Program.LiteralFree.walkable {p : Program} (hp : p.LiteralFree) {C : ScopeId → Prop}
    {scope : ScopeId} (hscope : C scope) (depth : Nat) :
    Walkable p (State.Closed (fun v => v.kind ≠ .function) C)
      (Value.Confined (fun v => v.kind ≠ .function) C) (Value.trace depth) scope where
  inherited := Value.inherited_functionFree C
  function hoccurs := absurd hoccurs (hp _ _ _ _)
  lookup hs hv := hs.get? hscope hv
  bind hs hv := hs.bind scope _ hv
  newId _ hs := hs.of_scopes_eq rfl
  apply {f args} hf hargs := by
    rw [Value.trace_of_kind_ne hf.prop]
    refine .lift (Value.apply_keeps (Value.inherited_functionFree C) ?_ ?_ hf hargs ?_)
      (.apply hf.prop depth args)
    · exact fun _ hs => hs.of_scopes_eq rfl
    · exact fun _ _ hs => hs.of_scopes_eq rfl
    · rintro _ id c - rfl
      exact absurd rfl hf.prop

/-- A program without function literals, evaluated in a scope from which no function can be
    reached, comes to an end without any calls being nested. On the way each statement and
    expression in it is evaluated at most once, and no other is. Afterwards no function can be
    reached from the scope, nor from any other that this was true of, nor from the value or
    those that an error carries.

    Any program comes to an end if functions are called in some way that does. As to evaluate a
    program is to do so with calls as usual, only they can keep it from coming to an end. -/
theorem Program.trace_firstOrder :
    (∀ (p : Program) (s : State) (scope : ScopeId) (depth : Nat), p.LiteralFree →
      s.FunctionFree (.scope scope) →
      let r := (p.trace depth scope).run s []
      r.1 = (p.eval depth scope).run s ∧ r.1.1 ≠ .exhausted ∧
      r.2.starts.Nodup ∧ (∀ m ∈ r.2, Occurs p m.path [] m.tree) ∧
      (∀ i, s.FunctionFree (.scope i) → r.1.2.FunctionFree (.scope i)) ∧
      ∀ v, r.1.1.Gives v → r.1.2.FunctionFree (.value v)) ∧
    ∀ (p : Program) (scope : ScopeId),
      (∀ depth, p.eval depth scope =
        p.evalWith (fun id c => (Value.function id c).apply depth) scope) ∧
      ∀ call : ObjectId → Closure → List Value → Eval Value,
        (∀ id c args, (call id c args).Ending) → (p.evalWith call scope).Ending := by
  refine ⟨fun p s scope depth hp hs => ?_, fun p scope => ⟨fun depth => ?_, fun call hcall => ?_⟩⟩
  · intro r
    have hwalkable := hp.walkable (C := fun i => s.FunctionFree (.scope i)) hs depth
    have hbody := Stmt.traceFrom_walks hwalkable hwalkable.inherited.null p Occurs.root.siblings
    have hwalks : Walks _ _ (Path.At p [] []) _ (p.trace depth scope) :=
      .note .root hbody.catchReturn
    obtain ⟨new, hnew, hnodup, hplaces, hclosed, hholds, hne⟩ :=
      hwalks s [] (.of_all (fun v => v.kind ≠ .function) s)
    rw [List.append_nil] at hnew
    refine ⟨p.erases_trace depth scope s [], hne, hnew ▸ hnodup, ?_, ?_, fun v hv => ?_⟩
    · exact fun m hm => (hplaces m (hnew ▸ hm)).2
    · exact fun i hi => hclosed.all_scope hi
    · exact hclosed.all_value (hholds.of_gives hv)
  · exact p.eval_eq_evalWith depth scope
  · exact p.ending_evalWith hcall scope

/-- A program that extends an array and leaves at its second statement, and one that would
    never come to an end, with calls that do nothing. -/
theorem Program.trace_firstOrder_push :
    let p : Program := [.bind "ys" (.call (.ident "push") [.ident "xs", .int 3]),
      .ret (.call (.ident "len") [.ident "ys"]), .expr (.int 5)]
    let s := (State.empty.newScope none).2.bind 0 "xs" (.array 0 [.int 1])
    let q : Program := [.bind "f" (.function [] [.expr (.call (.ident "f") [])]),
      .expr (.call (.ident "f") [])]
    let call : ObjectId → Closure → List Value → Eval Value := fun _ _ _ => pure .null
    (p.LiteralFree ∧ s.FunctionFree (.scope 0) ∧ ((p.trace 0 0).run s []).2.starts.Nodup ∧
      ((p.eval 0 0).run s).1 = .value (.int 2) ∧
      ((p.eval 0 0).run s).2.FunctionFree (.scope 0)) ∧
    (∀ id c args, (call id c args).Ending) ∧ (q.evalWith call 0).Ending := by
  intro p s q call
  have hp : p.LiteralFree := by
    intro path ctx params body hoccurs
    let trees : List Tree := [.program p, .stmt p[0], .stmt p[1], .stmt p[2],
      .expr (.call (.ident "push") [.ident "xs", .int 3]), .expr (.ident "push"),
      .expr (.ident "xs"), .expr (.int 3), .expr (.call (.ident "len") [.ident "ys"]),
      .expr (.ident "len"), .expr (.ident "ys"), .expr (.int 5)]
    have hmem : .expr (.function params body) ∈ trees :=
      hoccurs.mem_of_children_mem (by decide) (by decide)
    simp only [trees, List.mem_cons, List.not_mem_nil, reduceCtorEq, Tree.expr.injEq,
      or_self] at hmem
  have hs : s.FunctionFree (.scope 0) := by
    have hS := Value.inherited_functionFree fun _ => True
    have harray : Value.Confined (fun v => v.kind ≠ .function) (fun _ => True)
        (.array 0 [.int 1]) :=
      hS.array.2 (List.forall_mem_singleton.2 (hS.int 1))
    exact ((State.Closed.empty.newScope fun _ _ => trivial).bind 0 "xs" harray).all_scope trivial
  have hcall : ∀ id c args, (call id c args).Ending := fun _ _ _ => Ending.pure _
  obtain ⟨herases, -, hnodup, -, hfree, -⟩ := Program.trace_firstOrder.1 p s 0 0 hp hs
  have hresult : ((p.eval 0 0).run s).1 = .value (.int 2) := by cbv
  exact ⟨⟨hp, hs, hnodup, hresult, herases ▸ hfree 0 hs⟩, hcall,
    (Program.trace_firstOrder.2 q 0).2 call hcall⟩

end Monkey
