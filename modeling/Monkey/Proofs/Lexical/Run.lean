import Monkey.Proofs.Lexical

/-!
# Runs are lexical

From a state that a world describes, the trace of a tree leads to one that a later world
describes, and to values that this world knows (`Traced.Tracks`). A tree has to be evaluated
in a scope that stands within the literals around it. This goes for all of its parts then
as well, as only literals change what a part stands within, and their bodies are evaluated
in calls, in scopes of their own.

In a call nothing but the function is at hand. But a function is known only if it has been
created, at a moment when its literal was evaluated, so the scope of the call is one for
that literal (`Tracks.enter`). That calls are nested at most so deep carries the induction
on them (`Value.trace_tracks`).
-/

namespace Monkey

open Eval Traced State

namespace Traced

variable {α β : Type} {p : Program} {w : World} {Q : World → α → Prop} {R : World → β → Prop}

/-- From every state that the world or a later one describes, the evaluation leads to a
    state that some world describes that is later still. It has the journal that the
    evaluation has kept, knows the value if it is on its way out of a function or carried
    by an error, and otherwise the value has the property `Q`. -/
def Tracks (p : Program) (w : World) (Q : World → α → Prop) (m : Traced α) : Prop :=
  ∀ v, w ≤ v → ∀ s, v.Describes p s → ∃ u, v ≤ u ∧ (m.run s v.journal).2 = u.journal ∧
    u.Describes p (m.run s v.journal).1.2 ∧ (m.run s v.journal).1.1.Holds u.Knows (Q u)

namespace Tracks

theorem pure {a : α} (h : ∀ v, w ≤ v → Q v a) : Tracks p w Q (pure a) :=
  fun v hv _ hs => ⟨v, le_refl v, rfl, hs, h v hv⟩

/-- An evaluation without moments stays in the world. -/
theorem lift {m : Eval α} (h : ∀ v, w ≤ v → Keeps (World.Describes v p) v.Knows (Q v) m) :
    Tracks p w Q (lift m) :=
  fun v hv _ hs => ⟨v, le_refl v, rfl, (h v hv hs).1, (h v hv hs).2⟩

/-- The second part goes on in a later world, with a value of which something is known there. -/
theorem bind {m : Traced α} {k : α → Traced β} (hm : Tracks p w Q m)
    (hk : ∀ v, w ≤ v → ∀ a, Q v a → Tracks p v R (k a)) : Tracks p w R (m >>= k) := by
  intro v hv s hs
  obtain ⟨u, hvu, hjournal, hu, hholds⟩ := hm v hv s hs
  rw [run_bind]
  -- What has not ended in a value is left as it is.
  rcases hrun : m.run s v.journal with ⟨⟨a | x | e | _, t⟩, j⟩
  · simp only [hrun] at hjournal hu hholds
    subst hjournal
    obtain ⟨u', huu', h⟩ := hk u (le_trans hv hvu) a hholds u (le_refl u) t hu
    exact ⟨u', le_trans hvu huu', h⟩
  all_goals
    simp only [hrun] at hjournal hu hholds
    exact ⟨u, hvu, hjournal, hu, hholds⟩

/-- A value on its way out of a function is known as well, so it may be caught. -/
theorem catchReturn {m : Traced Value} (hm : Tracks p w World.Knows m) :
    Tracks p w World.Knows (catchReturn m) := by
  intro v hv s hs
  obtain ⟨u, hvu, hjournal, hu, hholds⟩ := hm v hv s hs
  refine ⟨u, hvu, ?_⟩
  rw [run_catchReturn]
  rcases hrun : m.run s v.journal with ⟨⟨a | x | e | _, t⟩, j⟩ <;>
    simp only [hrun] at hjournal hu hholds <;> exact ⟨hjournal, hu, hholds⟩

variable {path : Path} {ctx : List Literal} {scope : ScopeId}

/-- The start and the end of an evaluation are moments of the world, in a scope that
    stands within the literals around the tree. -/
theorem note {tree : Tree} {Q : World → Value → Prop} {m : Traced Value}
    (hoccurs : Occurs p path ctx tree) (hscope : w.Within scope ctx) (hm : Tracks p w Q m)
    (hend : ∀ v s x, w ≤ v → Q v x →
      (v.push ⟨path, tree, scope, s, some (.value x)⟩).Knows x) :
    Tracks p w World.Knows (note path tree scope m) := by
  intro v hv s hs
  -- The start: the tree has ended in nothing yet.
  have hstart := hs.push (m := ⟨path, tree, scope, s, none⟩) rfl (hscope.mono hv) hoccurs
    (by rintro x ⟨_, h, -⟩; cases h)
  have hle := v.le_push ⟨path, tree, scope, s, none⟩
  obtain ⟨u, hvu, hjournal, hu, hholds⟩ := hm _ (le_trans hv hle) s hstart
  rcases hrun : m.run s (⟨path, tree, scope, s, none⟩ :: v.journal) with ⟨⟨o, t⟩, j⟩
  simp only [World.push, hrun] at hjournal hu hholds
  -- The end: what the tree has ended in is known from now on.
  have hwu := le_trans (le_trans hv hle) hvu
  have hpush := u.le_push ⟨path, tree, scope, t, some o⟩
  have hknows : o.Holds (u.push ⟨path, tree, scope, t, some o⟩).Knows
      (u.push ⟨path, tree, scope, t, some o⟩).Knows := by
    cases o with
    | value x => exact hend u t x hwu hholds
    | returned x => exact World.Knows.mono hpush hholds
    | failed e => exact fun x hx => World.Knows.mono hpush (hholds x hx)
    | exhausted => trivial
  refine ⟨_, le_trans (le_trans hle hvu) hpush, ?_, ?_, ?_⟩
  · simp only [Traced.note, hrun, hjournal, World.push]
  · simp only [Traced.note, hrun]
    exact hu.push rfl (hscope.mono hwu) hoccurs fun _ hx => hx.holds rfl hknows
  · simp only [Traced.note, hrun]
    exact hknows

/-- A tree other than a literal knows its value when its parts have been evaluated. -/
theorem node {tree : Tree} {m : Traced Value} (hoccurs : Occurs p path ctx tree)
    (hscope : w.Within scope ctx) (hm : Tracks p w World.Knows m) :
    Tracks p w World.Knows (Traced.note path tree scope m) :=
  .note hoccurs hscope hm fun v _ _ _ => .mono (v.le_push _)

/-- A literal creates the function, which is known from the end of its evaluation on. -/
theorem literal {params : List String} {body : Block}
    (hoccurs : Occurs p path ctx (.expr (.function params body))) (hscope : w.Within scope ctx) :
    Tracks p w World.Knows (Traced.note path (.expr (.function params body)) scope
      (Traced.lift (newFunction ⟨params, body, scope⟩))) := by
  have hnew : Tracks p w (fun _ x => ∃ id, x = .function id ⟨params, body, scope⟩)
      (Traced.lift (newFunction ⟨params, body, scope⟩)) := by
    refine .lift fun v _ => ?_
    have hid : Keeps (World.Describes v p) v.Knows (fun _ => True) (onState State.newId) :=
      .onState (fun _ hs => hs.of_scopes_eq rfl) fun _ _ => trivial
    exact hid.bind fun id _ => .pure ⟨id, rfl⟩
  refine .note hoccurs hscope hnew ?_
  rintro v s _ - ⟨id, rfl⟩
  refine .function_of ?_ trivial
  rintro _ _ ⟨⟩
  exact ⟨_, List.mem_cons_self, rfl⟩

/-- A function that is known is called in a scope for the literal that it was created
    from. -/
theorem enter {id : ObjectId} {c : Closure} {args : List Value}
    {body : Path → ScopeId → Traced Value} (hf : w.Knows (.function id c))
    (hlength : c.params.length = args.length) (hargs : ∀ v ∈ args, w.Knows v)
    (hbody : ∀ v path ctx scope, w ≤ v → Occurs p path ctx (.expr (.function c.params c.body)) →
      v.Within scope (⟨c.params, c.body⟩ :: ctx) → Tracks p v World.Knows (body path scope)) :
    Tracks p w World.Knows (enter id c args body) := by
  intro v hv s hs
  -- The journal has the moment in which the function was created. The literal was
  -- evaluated in the scope of the function, so this stands within the literals around it.
  obtain ⟨m, hm, hcreated, horigin⟩ := Journal.exists_origin ((hf.mono hv).prop id c rfl)
  obtain ⟨ctx, hscope, hoccurs⟩ := hs.occurs hm
  obtain ⟨htree, hmscope⟩ := Moment.of_created? hcreated
  rw [htree] at hoccurs
  rw [hmscope] at hscope
  -- The scope of the call is new and stands within one literal more.
  have hle := v.le_addScope (⟨c.params, c.body⟩ :: ctx)
  have henter := hs.enter hscope hlength fun x hx => (hargs x hx).mono hv
  have hwithin := World.within_addScope hs.length_eq (⟨c.params, c.body⟩ :: ctx)
  obtain ⟨u, hvu, h⟩ :=
    hbody _ m.path ctx s.scopes.size (le_trans hv hle) hoccurs hwithin _ (le_refl _) _ henter
  rw [← horigin] at h
  exact ⟨u, le_trans hle hvu, h⟩

end Tracks

end Traced

open Traced (Tracks)

/-! ## Trees -/

section

variable {p : Program}

theorem World.Describes.newId {w : World} (s : State) (h : w.Describes p s) :
    w.Describes p s.newId.2 :=
  h.of_scopes_eq rfl

theorem World.Describes.print {w : World} (s : State) (text : String) (h : w.Describes p s) :
    w.Describes p (s.print text) :=
  h.of_scopes_eq rfl

/-- A name stands for a value that is known. -/
theorem World.lookup_keeps (w : World) (scope : ScopeId) (x : String) :
    Keeps (World.Describes w p) w.Knows w.Knows (lookup scope x) := by
  intro s hs
  rw [Ends, run_lookup]
  split
  · next v hv => exact ⟨hs, hs.closed.get? trivial hv⟩
  · next b _ _ => exact ⟨hs, w.inherited_knows.builtin b⟩
  · exact ⟨hs, List.forall_mem_nil _⟩

/-- A value that is known may be bound to a name that trees within the literals may bind. -/
theorem World.bindName_keeps {w : World} {scope : ScopeId} {ctx : List Literal}
    (hscope : w.Within scope ctx) {x : String} (hx : x ∈ p.targetsIn ctx) {v : Value}
    (hv : w.Knows v) :
    Keeps (World.Describes w p) w.Knows (fun _ => True) (bindName scope x v) :=
  .onState (fun _ hs => hs.bind hscope hx hv) fun _ _ => trivial

variable {apply : Value → List Value → Traced Value}

/-- Known values applied to known ones come to values that are known. -/
abbrev ApplyTracks (p : Program) (apply : Value → List Value → Traced Value) : Prop :=
  ∀ w f args, World.Knows w f → (∀ v ∈ args, w.Knows v) → Tracks p w World.Knows (apply f args)

mutual

/-- The evaluation of an expression that occurs, in a scope within the literals around it, leads
    to a later world. -/
theorem Expr.trace_tracks (happly : ApplyTracks p apply) (e : Expr) {w : World} {path : Path}
    {ctx : List Literal} {scope : ScopeId} (hoccurs : Occurs p path ctx (.expr e))
    (hscope : w.Within scope ctx) : Tracks p w World.Knows (e.trace apply path scope) := by
  rw [Expr.trace, Expr.evaluate.eq_def]
  have hS := World.inherited_knows
  have hparts := hoccurs.siblings
  match e with
  | .function params body => exact .literal hoccurs hscope
  | .ident x =>
    refine .node hoccurs hscope (.lift fun v _ => ?_)
    exact (v.lookup_keeps scope x).bind fun _ => .give (hS v)
  | .int _ => exact .node hoccurs hscope (.pure fun v _ => (hS v).int _)
  | .str _ => exact .node hoccurs hscope (.pure fun v _ => (hS v).str _)
  | .bool _ => exact .node hoccurs hscope (.pure fun v _ => (hS v).bool _)
  | .array es =>
    refine .node hoccurs hscope ((Expr.traceList_tracks happly es hparts hscope).bind ?_)
    intro w _ vs hvs
    refine .lift fun v hv => newArray_keeps (hS v) World.Describes.newId fun x hx => ?_
    exact (hvs x hx).mono hv
  | .hash ps =>
    have hnil : ∀ v, w ≤ v → Value.OfEntries v.Knows [] := fun _ _ _ h => absurd h List.not_mem_nil
    refine .node hoccurs hscope ((Expr.tracePairs_tracks happly [] hnil ps hparts hscope).bind ?_)
    intro w _ es hes
    exact .lift fun v hv => newHash_keeps (hS v) World.Describes.newId (hes v hv)
  | .unary op e =>
    refine .node hoccurs hscope ((e.trace_tracks happly hparts.head hscope).bind ?_)
    intro w _ x hx
    exact .lift fun v hv => .ofExcept (List.forall_mem_singleton.2 (hx.mono hv))
      (fun _ => Value.about_of_unary) fun _ => (hS v).unary
  | .binary op l r =>
    refine .node hoccurs hscope ((l.trace_tracks happly hparts.head hscope).bind ?_)
    intro w hw x hx
    refine (r.trace_tracks happly hparts.tail.head (hscope.mono hw)).bind fun w hw y hy => ?_
    refine .lift fun v hv => ?_
    have hxy := List.forall_mem_cons.2
      ⟨hx.mono (le_trans hw hv), List.forall_mem_singleton.2 (hy.mono hv)⟩
    exact .ofExcept hxy (fun _ => Value.about_of_binary) fun _ => (hS v).binary
  | .cond c yes none =>
    refine .node hoccurs hscope ((c.trace_tracks happly hparts.head hscope).bind ?_)
    intro w hw v _
    have hnull : ∀ u, w ≤ u → u.Knows .null := fun u _ => (hS u).null
    cases v.truthy with
    | true => exact Stmt.traceFrom_tracks happly hnull yes hparts.tail.left (hscope.mono hw)
    | false => exact .pure hnull
  | .cond c yes (some no) =>
    refine .node hoccurs hscope ((c.trace_tracks happly hparts.head hscope).bind ?_)
    intro w hw v _
    have hnull : ∀ u, w ≤ u → u.Knows .null := fun u _ => (hS u).null
    -- The statements of the second block stand after those of the first.
    have hno := hparts.tail.right
    rw [List.length_map] at hno
    cases v.truthy with
    | true => exact Stmt.traceFrom_tracks happly hnull yes hparts.tail.left (hscope.mono hw)
    | false => exact Stmt.traceFrom_tracks happly hnull no hno (hscope.mono hw)
  | .call callee args =>
    refine .node hoccurs hscope ((callee.trace_tracks happly hparts.head hscope).bind ?_)
    intro w hw f hf
    refine (Expr.traceList_tracks happly args hparts.tail (hscope.mono hw)).bind ?_
    intro w hw vs hvs
    refine (happly w f vs (hf.mono hw) hvs).bind fun w _ x hx => ?_
    exact .lift fun v hv => .give (hS v) (hx.mono hv)
  | .index container key =>
    refine .node hoccurs hscope ((container.trace_tracks happly hparts.head hscope).bind ?_)
    intro w hw c hc
    refine (key.trace_tracks happly hparts.tail.head (hscope.mono hw)).bind fun w hw k hk => ?_
    refine .lift fun v hv => ?_
    have hc := hc.mono (le_trans hw hv)
    have hck := List.forall_mem_cons.2 ⟨hc, List.forall_mem_singleton.2 (hk.mono hv)⟩
    have hindex : Keeps (World.Describes v p) v.Knows v.Knows (ofExcept (Value.index c k)) :=
      .ofExcept hck (fun _ => Value.about_of_index) fun _ => (hS v).index hc
    exact hindex.bind fun _ => .give (hS v)
termination_by structural e

/-- The evaluation of siblings, one after the other, leads to a later world. -/
theorem Expr.traceList_tracks (happly : ApplyTracks p apply) (es : List Expr) {w : World}
    {path : Path} {i : Nat} {ctx : List Literal} {scope : ScopeId}
    (hes : Siblings p path ctx i (es.map .expr)) (hscope : w.Within scope ctx) :
    Tracks p w (fun w vs => ∀ v ∈ vs, w.Knows v) (Expr.traceList apply es (i :: path) scope) := by
  match es with
  | [] => exact .pure fun _ _ _ h => absurd h List.not_mem_nil
  | e :: es =>
    refine (e.trace_tracks happly hes.head hscope).bind fun w hw v hv => ?_
    refine (Expr.traceList_tracks happly es hes.tail (hscope.mono hw)).bind fun w hw vs hvs => ?_
    refine .pure fun u hu => List.forall_mem_cons.2 ⟨hv.mono (le_trans hw hu), fun x hx => ?_⟩
    exact (hvs x hx).mono hu
termination_by structural es

theorem Expr.tracePairs_tracks (happly : ApplyTracks p apply)
    (entries : List (HashKey × Value × Value)) {w : World}
    (hentries : ∀ v, w ≤ v → Value.OfEntries v.Knows entries) (ps : List (Expr × Expr))
    {path : Path} {i : Nat} {ctx : List Literal} {scope : ScopeId}
    (hps : Siblings p path ctx i (Expr.children (.hash ps))) (hscope : w.Within scope ctx) :
    Tracks p w (fun w es => ∀ v, w ≤ v → Value.OfEntries v.Knows es)
      (Expr.tracePairs apply entries ps (i :: path) scope) := by
  match ps with
  | [] => exact .pure fun v hv u hu => hentries u (le_trans hv hu)
  | (k, v) :: ps =>
    refine (k.trace_tracks happly hps.head hscope).bind fun w hw key hkey => ?_
    cases key.hashKey? with
    | none =>
      exact .lift fun v hv =>
        .fail (.self rfl) (List.forall_mem_singleton.2 (hkey.mono hv))
    | some _ =>
      refine (v.trace_tracks happly hps.tail.head (hscope.mono hw)).bind fun w' hw' x hx => ?_
      refine Expr.tracePairs_tracks happly _ ?_ ps hps.tail.tail (hscope.mono (le_trans hw hw'))
      intro u hu
      have hle := le_trans hw' hu
      exact (hentries u (le_trans hw hle)).put (hkey.mono hle) (hx.mono hu)
termination_by structural ps

theorem Stmt.trace_tracks (happly : ApplyTracks p apply) (s : Stmt) {w : World} {path : Path}
    {ctx : List Literal} {scope : ScopeId} (hoccurs : Occurs p path ctx (.stmt s))
    (hscope : w.Within scope ctx) : Tracks p w World.Knows (s.trace apply path scope) := by
  rw [Stmt.trace, Stmt.evaluate.eq_def]
  have hparts := hoccurs.siblings
  have htargets := hoccurs.targets_subset
  match s with
  | .bind x e =>
    refine .node hoccurs hscope ((e.trace_tracks happly hparts.head hscope).bind ?_)
    intro w hw v hv
    have hbind : Tracks p w (fun _ _ => True) (Traced.lift (bindName scope x v)) :=
      .lift fun u hu => World.bindName_keeps (hscope.mono (le_trans hw hu))
        (htargets List.mem_cons_self) (hv.mono hu)
    exact hbind.bind fun _ _ _ _ => .pure fun v _ => v.inherited_knows.null
  | .ret e =>
    refine .node hoccurs hscope ((e.trace_tracks happly hparts.head hscope).bind ?_)
    exact fun w _ v hv => .lift fun u hu => .leave (hv.mono hu)
  | .expr e => exact .node hoccurs hscope (e.trace_tracks happly hparts.head hscope)
termination_by structural s

theorem Stmt.traceFrom_tracks (happly : ApplyTracks p apply) {v : Value} {w : World}
    (hv : ∀ u, w ≤ u → u.Knows v) (ss : List Stmt) {path : Path} {i : Nat} {ctx : List Literal}
    {scope : ScopeId} (hss : Siblings p path ctx i (ss.map .stmt)) (hscope : w.Within scope ctx) :
    Tracks p w World.Knows (Stmt.traceFrom apply v ss (i :: path) scope) := by
  match ss with
  | [] => exact .pure hv
  | s :: ss =>
    refine (s.trace_tracks happly hss.head hscope).bind fun w hw v hv => ?_
    exact Stmt.traceFrom_tracks happly (fun u hu => hv.mono hu) ss hss.tail (hscope.mono hw)
termination_by structural ss

end

end

/-! ## Calls -/

section

variable {p : Program}

/-- Where no call of a function comes about, applying a value keeps to the world. -/
theorem Value.apply_tracks {depth : Nat} {f : Value} {args : List Value} {w : World}
    (hf : w.Knows f) (hargs : ∀ v ∈ args, w.Knows v)
    (hne : ∀ n id c, depth = n + 1 → f = .function id c → c.params.length ≠ args.length) :
    Tracks p w World.Knows (Traced.lift (f.apply depth args)) := by
  refine .lift fun v hv => ?_
  refine Value.apply_keeps v.inherited_knows World.Describes.newId World.Describes.print
    (hf.mono hv) (fun x hx => (hargs x hx).mono hv) ?_
  exact fun n id c hdepth hc hlength => absurd hlength (hne n id c hdepth hc)

/-- Applying known values leads to a later world, by induction on how deep calls may be nested:
    the journal has the literal that a function comes from, and so the place of its body. -/
theorem Value.trace_tracks (depth : Nat) : ApplyTracks p (Value.trace depth) := by
  refine fun w f args => Value.trace_induction (P := fun _ f args m => ∀ w, World.Knows w f →
    (∀ v ∈ args, w.Knows v) → Tracks p w World.Knows m) ?_ ?_ depth f args w
  · intro depth id c args hlength ih w hf hargs
    -- The body is made of children of the literal, which stand within it.
    refine .enter hf hlength hargs fun v path ctx scope _ hoccurs hscope => .catchReturn ?_
    exact Stmt.traceFrom_tracks (fun w f args => ih f args w)
      (fun u _ => u.inherited_knows.null) c.body hoccurs.siblings hscope
  · exact fun _ _ _ hne _ hf hargs => Value.apply_tracks hf hargs hne

/-- The world of the scope of a program that is not yet evaluated. -/
def World.initial : World :=
  ⟨[[]], []⟩

/-- At the start there is one scope, within no literals. -/
theorem World.initial_describes (p : Program) :
    World.initial.Describes p (State.empty.newScope none).2 where
  length_eq := rfl
  fits {i ctx sc} hi hsc := by
    cases i with
    | zero =>
      obtain rfl := Option.some.inj hi
      obtain rfl := Option.some.inj hsc
      exact ⟨rfl, nofun⟩
    | succ i => cases hi
  occurs hm := absurd hm List.not_mem_nil
  knows hm := absurd hm List.not_mem_nil
  closed := State.Closed.empty.newScope fun _ _ => trivial
  always := trivial

end

/-- All moments of the run of a program in a new scope are lexical, and the trace that has
    these moments comes to the same end as the program: whatever has been evaluated so far,
    from the scope of its evaluation outwards there is exactly one scope for each function
    literal around it, and one more. Every function that there is, wherever it has got to,
    was created from a literal of the program and keeps the scopes of that one. -/
theorem Program.trace_lexical (p : Program) (depth : Nat) :
    let s := (State.empty.newScope none).2
    let r := (p.trace depth 0).run s []
    r.1 = (p.eval depth 0).run s ∧ r.2.Always (Moment.Lexical p) := by
  intro s r
  refine ⟨p.erases_trace depth 0 s [], ?_⟩
  have htracks : Tracks p World.initial World.Knows (p.trace depth 0) := by
    refine .node .root rfl (.catchReturn ?_)
    exact Stmt.traceFrom_tracks (Value.trace_tracks depth) (fun u _ => u.inherited_knows.null) p
      Occurs.root.siblings rfl
  obtain ⟨w, -, hjournal, hw, -⟩ := htracks _ (le_refl _) s (World.initial_describes p)
  exact hjournal ▸ hw.always

end Monkey
