import Mathlib.Data.List.Forall2
import Mathlib.Order.Defs.PartialOrder
import Monkey.Proofs.Frame
import Monkey.Proofs.Reach
import Monkey.Proofs.Trace

/-!
# Lexical scoping

Where a tree stands in the program decides what scopes it is evaluated in. From the scope
of an evaluation, outwards, there is one scope for every function literal around the tree,
in this order, and then the scope of the program (`State.Nests`). The scope for a literal
binds its parameters and what its own body binds, whoever has called the function.

The main statement (`Program.trace_lexical`) is about all the moments of a run in a new
scope, and about every evaluation that has started by then and every function that there
is: each function was created from a literal of the program, and lives in the scopes that
its literal was evaluated in.

For this a *world* is kept along with the run, which assigns to every scope the literals
that it stands within (`World.Describes`). Neither they nor what the journal has are ever
changed, only added to, so what is known of a value stays known (`World.Knows.mono`).
-/

namespace Monkey

open Eval Traced

/-! ## Chains of scopes -/

/-- The scope is one for the literal: it binds all its parameters, and otherwise only
    names that are bound in its body outside the literals in there. -/
structure Scope.For (sc : Scope) (lit : Literal) : Prop where
  params : ∀ x ∈ lit.params, x ∈ sc.names
  names : ∀ x ∈ sc.names, x ∈ lit.params ∨ x ∈ Stmt.targetsList lit.body

namespace State

/-- The scopes from a scope outwards are these, the last of them a root. -/
inductive Chain (s : State) : ScopeId → List Scope → Prop
  | root {i sc} : s.scopes[i]? = some sc → sc.outer = none → Chain s i [sc]
  | inner {i sc outer scs} : s.scopes[i]? = some sc → sc.outer = some outer → Chain s outer scs →
      Chain s i (sc :: scs)

/-- The scopes from a scope outwards are one for each of the literals and then a root, which
    binds only names that the program binds outside all literals. -/
def Nests (s : State) (p : Program) (i : ScopeId) (ctx : List Literal) : Prop :=
  ∃ inner root, s.Chain i (inner ++ [root]) ∧ List.Forall₂ Scope.For inner ctx ∧
    ∀ x ∈ root.names, x ∈ p.targets

end State

/-! ## Lexical moments -/

/-- The evaluation of the tree has ended in the value, on its way out of a function or not,
    or in an error that carries it. -/
def Moment.Gives (m : Moment) (v : Value) : Prop :=
  ∃ o ∈ m.outcome?, o.Gives v

/-- What is known of an outcome is known of the value that the moment gives. -/
theorem Moment.Gives.holds {m : Moment} {v : Value} (h : m.Gives v) {S : Value → Prop}
    {o : Outcome Value} (ho : m.outcome? = some o) (hS : o.Holds S S) : S v := by
  obtain ⟨o', ho', hv⟩ := h
  obtain rfl := Option.some.inj (ho.symm.trans ho')
  exact hS.of_gives hv

/-- What a run may work on after the moments of a journal: all scopes, and all values that
    trees have ended in or that an error carries. -/
inductive Journal.Has (j : Journal) : Node → Prop
  | scope (i : ScopeId) : Has j (.scope i)
  | value {m : Moment} {v : Value} : m ∈ j → m.Gives v → Has j (.value v)

/-- By this moment, scopes are nested as literals are. -/
structure Moment.Lexical (p : Program) (now : Moment) (before : Journal) : Prop where
  /-- Trees are evaluated in scopes that are nested as the literals around them, and that
      are so still. -/
  evaluated {m : Moment} : m ∈ now :: before →
    ∃ ctx, Occurs p m.path ctx m.tree ∧ now.state.Nests p m.scope ctx
  /-- Every function was created from a literal of the program, and its scope is nested as
      the literals around this one. -/
  function {n : Node} {id : ObjectId} {c : Closure} : Journal.Has (now :: before) n →
    now.state.Reaches n (.value (.function id c)) →
    ∃ m ∈ now :: before, m.created? = some (id, c) ∧
      ∃ ctx, Occurs p m.path ctx (.expr (.function c.params c.body)) ∧
        now.state.Nests p c.scope ctx

/-! ## Names that are bound -/

/-- The names that a tree may bind in the scope that it is evaluated in. -/
def Tree.targets : Tree → List String
  | program p => p.targets
  | stmt s => s.targets
  | expr e => e.targets

/-- The names that trees within the literals may bind, where the innermost literal counts. -/
def Program.targetsIn (p : Program) : List Literal → List String
  | [] => p.targets
  | lit :: _ => Stmt.targetsList lit.body

/-- What one of the expressions may bind all of them may. -/
theorem Expr.targets_subset_list {e : Expr} {es : List Expr} (h : e ∈ es) :
    e.targets ⊆ Expr.targetsList es := by
  induction es with
  | nil => cases h
  | cons f es ih =>
    rcases List.mem_cons.1 h with rfl | h
    · exact List.subset_append_left _ _
    · exact List.subset_append_of_subset_right _ (ih h)

theorem Expr.targets_subset_pairs {k v : Expr} {ps : List (Expr × Expr)} (h : (k, v) ∈ ps) :
    k.targets ⊆ Expr.targetsPairs ps ∧ v.targets ⊆ Expr.targetsPairs ps := by
  induction ps with
  | nil => cases h
  | cons q ps ih =>
    obtain ⟨l, w⟩ := q
    rcases List.mem_cons.1 h with heq | h
    · obtain ⟨rfl, rfl⟩ := Prod.mk.inj heq
      exact ⟨List.subset_append_left _ _,
        List.subset_append_of_subset_right _ (List.subset_append_left _ _)⟩
    · obtain ⟨hk, hv⟩ := ih h
      exact ⟨List.subset_append_of_subset_right _ (List.subset_append_of_subset_right _ hk),
        List.subset_append_of_subset_right _ (List.subset_append_of_subset_right _ hv)⟩

theorem Stmt.targets_subset_list {s : Stmt} {ss : List Stmt} (h : s ∈ ss) :
    s.targets ⊆ Stmt.targetsList ss := by
  induction ss with
  | nil => cases h
  | cons t ss ih =>
    rcases List.mem_cons.1 h with rfl | h
    · exact List.subset_append_left _ _
    · exact List.subset_append_of_subset_right _ (ih h)

/-- What a child of an expression binds, the expression binds as well, unless the
    expression is a literal. -/
theorem Expr.targets_child {e : Expr} {u : Tree} (h : u ∈ e.children)
    (he : ∀ params body, e ≠ .function params body) : u.targets ⊆ e.targets := by
  cases e with
  | ident _ | int _ | str _ | bool _ => cases h
  | array es =>
    obtain ⟨e, he, rfl⟩ := List.mem_map.1 h
    exact Expr.targets_subset_list he
  | hash ps =>
    obtain ⟨⟨k, v⟩, hkv, hu⟩ := List.mem_flatMap.1 h
    obtain ⟨hk, hv⟩ := Expr.targets_subset_pairs hkv
    simp only [List.mem_cons, List.not_mem_nil, or_false] at hu
    rcases hu with rfl | rfl
    · exact hk
    · exact hv
  | unary _ e =>
    obtain rfl := List.mem_singleton.1 h
    exact fun _ hx => hx
  | binary _ l r =>
    simp only [Expr.children, List.mem_cons, List.not_mem_nil, or_false] at h
    rcases h with rfl | rfl
    · exact List.subset_append_left _ _
    · exact List.subset_append_right _ _
  | cond c yes no =>
    rcases List.mem_cons.1 h with rfl | h
    · cases no <;> exact List.subset_append_left _ _
    rcases List.mem_append.1 h with h | h
    · obtain ⟨s, hs, rfl⟩ := List.mem_map.1 h
      have hyes : s.targets ⊆ Stmt.targetsList yes := Stmt.targets_subset_list hs
      cases no with
      | none => exact List.subset_append_of_subset_right _ hyes
      | some no =>
        exact List.subset_append_of_subset_right _ (List.subset_append_of_subset_left _ hyes)
    · obtain ⟨s, hs, rfl⟩ := List.mem_map.1 h
      cases no with
      | none => cases hs
      | some no =>
        have hno : s.targets ⊆ Stmt.targetsList no := Stmt.targets_subset_list hs
        exact List.subset_append_of_subset_right _ (List.subset_append_of_subset_right _ hno)
  | function params body => exact absurd rfl (he params body)
  | call callee args =>
    rcases List.mem_cons.1 h with rfl | h
    · exact List.subset_append_left _ _
    · obtain ⟨e, he, rfl⟩ := List.mem_map.1 h
      exact List.subset_append_of_subset_right _ (Expr.targets_subset_list he)
  | index c k =>
    simp only [Expr.children, List.mem_cons, List.not_mem_nil, or_false] at h
    rcases h with rfl | rfl
    · exact List.subset_append_left _ _
    · exact List.subset_append_right _ _

/-- What a tree binds in its scope is bound in the body of the innermost literal around
    it, or in the program if there is none. -/
theorem Occurs.targets_subset {p : Program} {path : Path} {ctx : List Literal} {t : Tree}
    (h : Occurs p path ctx t) : t.targets ⊆ p.targetsIn ctx := by
  induction h with
  | root => exact fun _ hx => hx
  | @child path ctx t i u _ hu ih =>
    have hu : u ∈ t.children := List.mem_of_getElem? hu
    cases t with
    | program q =>
      obtain ⟨s, hs, rfl⟩ := List.mem_map.1 hu
      exact fun _ hx => ih (Stmt.targets_subset_list hs hx)
    | stmt s =>
      cases s <;> obtain rfl := List.mem_singleton.1 hu
      · exact fun _ hx => ih (List.mem_cons_of_mem _ hx)
      · exact ih
      · exact ih
    | expr e =>
      -- The children of a literal stand within it, and bind names in its body. Those of
      -- other expressions bind names where the expression does.
      by_cases he : ∃ params body, e = .function params body
      · obtain ⟨params, body, rfl⟩ := he
        obtain ⟨s, hs, rfl⟩ := List.mem_map.1 hu
        exact Stmt.targets_subset_list hs
      · have he : ∀ params body, e ≠ .function params body :=
          fun params body heq => he ⟨params, body, heq⟩
        have hinside : (Tree.expr e).inside ctx = ctx := by
          cases e <;> first | rfl | exact absurd rfl (he _ _)
        rw [hinside]
        exact fun _ hx => ih (Expr.targets_child hu he hx)

/-! ## Siblings -/

/-- The trees stand at the path, one after the other from the place `i` on. -/
def Siblings (p : Program) (path : Path) (ctx : List Literal) (i : Nat) (ts : List Tree) : Prop :=
  ∀ k t, ts[k]? = some t → Occurs p ((i + k) :: path) ctx t

/-- The children of a tree stand at its path, from the first place on. -/
theorem Occurs.siblings {p : Program} {path : Path} {ctx : List Literal} {t : Tree}
    (h : Occurs p path ctx t) : Siblings p path (t.inside ctx) 0 t.children := by
  intro k u hu
  rw [Nat.zero_add]
  exact h.child hu

namespace Siblings

variable {p : Program} {path : Path} {ctx : List Literal} {i : Nat} {t : Tree} {ts us : List Tree}

/-- The first of the trees stands at the first place. -/
theorem head (h : Siblings p path ctx i (t :: ts)) : Occurs p (i :: path) ctx t :=
  h 0 t rfl

theorem tail (h : Siblings p path ctx i (t :: ts)) : Siblings p path ctx (i + 1) ts := by
  intro k u hu
  rw [Nat.add_assoc, Nat.add_comm 1]
  exact h (k + 1) u hu

theorem left (h : Siblings p path ctx i (ts ++ us)) : Siblings p path ctx i ts := by
  intro k t ht
  have hlt : k < ts.length := (List.getElem?_eq_some_iff.1 ht).1
  exact h k t (by rw [List.getElem?_append_left hlt, ht])

theorem right (h : Siblings p path ctx i (ts ++ us)) :
    Siblings p path ctx (i + ts.length) us := by
  intro k t ht
  rw [Nat.add_assoc]
  refine h _ t ?_
  rw [List.getElem?_append_right (Nat.le_add_right _ _), Nat.add_sub_cancel_left, ht]

end Siblings

/-! ## Worlds -/

/-- The function was created at one of the moments. -/
def Journal.Created (j : Journal) (v : Value) : Prop :=
  ∀ id c, v = .function id c → ∃ m ∈ j, m.created? = some (id, c)

/-- A function that has been created has been so at every later time. -/
theorem Journal.Created.mono {j j' : Journal} (h : j ⊆ j') {v : Value} (hv : j.Created v) :
    j'.Created v := by
  intro id c hc
  obtain ⟨m, hm, hcreated⟩ := hv id c hc
  exact ⟨m, h hm, hcreated⟩

/-- Scopes are nested around functions as around the evaluation that has created them. -/
theorem Moment.Lexical.of_created {p : Program} {now : Moment} {before : Journal}
    (hevaluated : ∀ m ∈ now :: before,
      ∃ ctx, Occurs p m.path ctx m.tree ∧ now.state.Nests p m.scope ctx)
    (hcreated : ∀ n, Journal.Has (now :: before) n →
      now.state.All (Journal.Created (now :: before)) n) : now.Lexical p before where
  evaluated hm := hevaluated _ hm
  function {n id c} hn hreach := by
    obtain ⟨m, hm, hc⟩ := hcreated n hn _ hreach id c rfl
    obtain ⟨ctx, hoccurs, hnests⟩ := hevaluated m hm
    obtain ⟨htree, hscope⟩ := Moment.of_created? hc
    rw [htree] at hoccurs
    rw [hscope] at hnests
    exact ⟨m, hm, hc, ctx, hoccurs, hnests⟩

/-- The literals that each scope stands within, innermost first, and the journal so far. -/
structure World where
  contexts : List (List Literal)
  journal : Journal

open State

namespace World

/-- Scopes are added at the end, and moments in front. -/
instance : Preorder World where
  le w w' := w.contexts <+: w'.contexts ∧ w.journal <:+ w'.journal
  le_refl _ := ⟨List.prefix_rfl, List.suffix_rfl⟩
  le_trans _ _ _ h h' := ⟨h.1.trans h'.1, h.2.trans h'.2⟩

/-- The world with one more moment. -/
def push (w : World) (m : Moment) : World :=
  ⟨w.contexts, m :: w.journal⟩

/-- The world with one more scope. -/
def addScope (w : World) (ctx : List Literal) : World :=
  ⟨w.contexts ++ [ctx], w.journal⟩

theorem le_addScope (w : World) (ctx : List Literal) : w ≤ w.addScope ctx :=
  ⟨List.prefix_append w.contexts [ctx], List.suffix_rfl⟩

theorem le_push (w : World) (m : Moment) : w ≤ w.push m :=
  ⟨List.prefix_rfl, List.suffix_cons m w.journal⟩

/-- All the functions in the value have been created. -/
def Knows (w : World) (v : Value) : Prop :=
  v.Confined w.journal.Created fun _ => True

/-- The scope stands within the literals. -/
def Within (w : World) (i : ScopeId) (ctx : List Literal) : Prop :=
  w.contexts[i]? = some ctx

/-- What is known of a value stays known. -/
theorem Knows.mono {w w' : World} (h : w ≤ w') {v : Value} (hv : w.Knows v) : w'.Knows v :=
  Value.Confined.mono (fun _ => Journal.Created.mono h.2.subset) hv

theorem Within.mono {w w' : World} (h : w ≤ w') {i : ScopeId} {ctx : List Literal}
    (hi : w.Within i ctx) : w'.Within i ctx := by
  obtain ⟨contexts, hcontexts⟩ := h.1
  have hlt := (List.getElem?_eq_some_iff.1 hi).1
  rw [Within, ← hcontexts, List.getElem?_append_left hlt]
  exact hi

/-- A value has functions that have been created if its parts have. -/
theorem inherited_knows (w : World) : Value.Inherited w.Knows :=
  Value.Confined.inherited_of_ne_function fun _ hv id c hc => absurd hc (hv id c)

/-- The scope is one for the innermost literal and lies within one for the others, or is
    the scope of the program. -/
def Fits (w : World) (p : Program) (sc : Scope) : List Literal → Prop
  | [] => sc.outer = none ∧ ∀ x ∈ sc.names, x ∈ p.targets
  | lit :: ctx => (∃ outer, sc.outer = some outer ∧ w.Within outer ctx) ∧ sc.For lit

/-- In the state the scopes are as the world has it, and all functions have been
    created. The run has been lexical so far. -/
structure Describes (w : World) (p : Program) (s : State) : Prop where
  length_eq : w.contexts.length = s.scopes.size
  fits {i : ScopeId} {ctx : List Literal} {sc : Scope} : w.Within i ctx → s.scopes[i]? = some sc →
    w.Fits p sc ctx
  occurs {m : Moment} : m ∈ w.journal → ∃ ctx, w.Within m.scope ctx ∧ Occurs p m.path ctx m.tree
  knows {m : Moment} {v : Value} : m ∈ w.journal → m.Gives v → w.Knows v
  closed : s.Closed w.journal.Created fun _ => True
  always : w.journal.Always (Moment.Lexical p)

/-- The scope that is added stands within the literals. -/
theorem within_addScope {w : World} {n : Nat} (h : w.contexts.length = n) (ctx : List Literal) :
    (w.addScope ctx).Within n ctx := by
  rw [Within, addScope, ← h, List.getElem?_concat_length]

/-- A scope fits literals for good. -/
theorem Fits.mono {w w' : World} (h : w ≤ w') {p : Program} {sc : Scope} {ctx : List Literal}
    (hsc : w.Fits p sc ctx) : w'.Fits p sc ctx := by
  cases ctx with
  | nil => exact hsc
  | cons lit ctx =>
    obtain ⟨⟨outer, houter, hwithin⟩, hfor⟩ := hsc
    exact ⟨⟨outer, houter, hwithin.mono h⟩, hfor⟩

/-- A name may be bound that trees within the literals may bind. -/
theorem Fits.put {w : World} {p : Program} {sc : Scope} {ctx : List Literal}
    (h : w.Fits p sc ctx) {x : String} (hx : x ∈ p.targetsIn ctx) (v : Value) :
    w.Fits p (sc.put x v) ctx := by
  cases ctx with
  | nil =>
    refine ⟨h.1, fun y hy => ?_⟩
    rcases Scope.mem_names_put.1 hy with rfl | hy
    · exact hx
    · exact h.2 y hy
  | cons lit ctx =>
    -- A parameter may be bound anew, so the name need not be one of the body alone.
    obtain ⟨houter, hparams, hnames⟩ := h
    refine ⟨houter, fun y hy => Scope.mem_names_put.2 (.inr (hparams y hy)), fun y hy => ?_⟩
    rcases Scope.mem_names_put.1 hy with rfl | hy
    · exact .inr hx
    · exact hnames y hy

namespace Describes

variable {w : World} {p : Program} {s t : State} {ctx : List Literal}

/-- A scope of the world is there, and fits its literals. -/
theorem exists_scope (h : w.Describes p s) {i : ScopeId} (hi : w.Within i ctx) :
    ∃ sc, s.scopes[i]? = some sc ∧ w.Fits p sc ctx := by
  have hlt : i < s.scopes.size := by
    rw [← h.length_eq]
    exact (List.getElem?_eq_some_iff.1 hi).1
  exact ⟨_, Array.getElem?_eq_getElem hlt, h.fits hi (Array.getElem?_eq_getElem hlt)⟩

/-- Scopes are nested as the literals that the world assigns to them. -/
theorem nests (h : w.Describes p s) {i : ScopeId} (hi : w.Within i ctx) : s.Nests p i ctx := by
  induction ctx generalizing i with
  | nil =>
    obtain ⟨sc, hsc, houter, hnames⟩ := h.exists_scope hi
    exact ⟨[], sc, .root hsc houter, .nil, hnames⟩
  | cons lit ctx ih =>
    obtain ⟨sc, hsc, ⟨outer, houter, hwithin⟩, hfor⟩ := h.exists_scope hi
    obtain ⟨inner, root, hchain, hinner, hroot⟩ := ih hwithin
    exact ⟨sc :: inner, root, .inner hsc houter hchain, .cons hfor hinner, hroot⟩

/-- A moment is added to the world, in the state that there is. -/
theorem push (h : w.Describes p s) {m : Moment} (hstate : m.state = s)
    (hscope : w.Within m.scope ctx) (hoccurs : Occurs p m.path ctx m.tree)
    (hvalue : ∀ v, m.Gives v → (w.push m).Knows v) : (w.push m).Describes p s := by
  have hle := w.le_push m
  have hall : ∀ n ∈ m :: w.journal, ∃ ctx, w.Within n.scope ctx ∧ Occurs p n.path ctx n.tree :=
    List.forall_mem_cons.2 ⟨⟨ctx, hscope, hoccurs⟩, fun n hn => h.occurs hn⟩
  have hknows : ∀ n ∈ m :: w.journal, ∀ v, n.Gives v → (w.push m).Knows v :=
    List.forall_mem_cons.2 ⟨hvalue, fun n hn v hv => (h.knows hn hv).mono hle⟩
  have hclosed : s.Closed (w.push m).journal.Created fun _ => True :=
    h.closed.mono fun _ => Journal.Created.mono hle.2.subset
  -- The scopes are those from before, and they are nested as the world has it.
  have hlexical : m.Lexical p w.journal := by
    subst hstate
    refine .of_created (fun n hn => ?_) fun n hn => ?_
    · obtain ⟨ctx, hscope, hoccurs⟩ := hall n hn
      exact ⟨ctx, hoccurs, h.nests hscope⟩
    · cases hn with
      | scope i => exact hclosed.all_scope trivial
      | value hm hv => exact hclosed.all_value (hknows _ hm _ hv)
  exact ⟨h.length_eq, h.fits, fun hn => hall _ hn, fun hn hv => hknows _ hn _ hv, hclosed,
    hlexical, h.always⟩

/-- A world describes the scopes and nothing else of a state. -/
theorem of_scopes_eq (h : w.Describes p s) (heq : t.scopes = s.scopes) : w.Describes p t where
  length_eq := heq ▸ h.length_eq
  fits hi hsc := h.fits hi (heq ▸ hsc)
  occurs := h.occurs
  knows := h.knows
  closed := h.closed.of_scopes_eq heq
  always := h.always

/-- A name is bound that trees within the literals of the scope may bind. -/
theorem bind (h : w.Describes p s) {scope : ScopeId} (hscope : w.Within scope ctx) {x : String}
    (hx : x ∈ p.targetsIn ctx) {v : Value} (hv : w.Knows v) :
    w.Describes p (s.bind scope x v) where
  length_eq := h.length_eq.trans (s.size_scopes_bind scope x v).symm
  fits {i ctx' sc} hi hsc := by
    -- Of the scope in which the name is bound it is known what literals it stands within.
    obtain ⟨_, hsc', rfl | ⟨rfl, rfl⟩⟩ := scopes_bind_cases hsc
    · exact h.fits hi hsc'
    · obtain rfl : ctx = ctx' := Option.some.inj (hscope.symm.trans hi)
      exact (h.fits hi hsc').put hx v
  occurs := h.occurs
  knows := h.knows
  closed := h.closed.bind scope x hv
  always := h.always

/-- A call of a function is entered, in a scope for the literal of the function. -/
theorem enter (h : w.Describes p s) {c : Closure} (hc : w.Within c.scope ctx) {args : List Value}
    (hlength : c.params.length = args.length) (hargs : ∀ v ∈ args, w.Knows v) :
    (w.addScope (⟨c.params, c.body⟩ :: ctx)).Describes p (s.enter c args) where
  length_eq := by
    rw [size_scopes_enter, ← h.length_eq]
    exact List.length_append
  fits {i ctx' sc} hi hsc := by
    have hle := w.le_addScope (⟨c.params, c.body⟩ :: ctx)
    by_cases hlt : i < s.scopes.size
    · -- A scope that there was.
      have hi : w.Within i ctx' := by
        rwa [Within, addScope, List.getElem?_append_left (h.length_eq ▸ hlt)] at hi
      rw [(Untouched.enter s c args).scopes_eq hlt] at hsc
      exact (h.fits hi hsc).mono hle
    · -- The scope of the call.
      have hsize := (Array.getElem?_eq_some_iff.1 hsc).1
      rw [size_scopes_enter] at hsize
      obtain rfl : i = s.scopes.size := Nat.eq_of_le_of_lt_succ (Nat.le_of_not_lt hlt) hsize
      obtain ⟨sc', hsc', houter, hnames⟩ := s.scopes_enter_self hlength
      obtain rfl : sc' = sc := Option.some.inj (hsc'.symm.trans hsc)
      have hwithin := within_addScope h.length_eq (⟨c.params, c.body⟩ :: ctx)
      obtain rfl : ⟨c.params, c.body⟩ :: ctx = ctx' := Option.some.inj (hwithin.symm.trans hi)
      refine ⟨⟨c.scope, houter, hc.mono hle⟩, fun x hx => (hnames x).2 hx, fun x hx => ?_⟩
      exact .inl ((hnames x).1 hx)
  occurs hm := by
    obtain ⟨ctx, hscope, hoccurs⟩ := h.occurs hm
    exact ⟨ctx, hscope.mono (w.le_addScope _), hoccurs⟩
  knows := h.knows
  closed := h.closed.enter trivial hargs
  always := h.always

end Describes

end World

end Monkey
