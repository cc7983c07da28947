import Monkey.Eval.Call

/-!
# What evaluation keeps

An evaluation *keeps* an invariant of states if it leads from states with the
invariant to states with it, however it ends. As later steps work on the values of
earlier ones, what is kept is shown along with a property of all the values at hand
(`Eval.Keeps`).

The property is one that a value has by its parts (`Value.Inherited`). Then the
evaluation of a tree keeps the invariant if the few steps do that it is made of
(`Keeping`): to look up a name, to bind one of the names that the tree may bind
(`Expr.targets`), to take a number and to apply a value. An error is about values at
hand (`EvalError.About`), so what it carries has the property as well.

* `Expr.eval_keeps`, with its companions for lists, statements, blocks and programs:
  what the steps keep is kept;
* `Value.apply_keeps`: what the evaluation of the bodies of functions keeps is kept by
  applying a value, so that a bound on how deep calls may be nested carries the
  induction on calls.
-/

namespace Monkey

/-! ## Targets -/

mutual

/-- The names that an expression may bind in the scope that it is evaluated in. What
    the body of a function binds is bound in another scope. -/
def Expr.targets : Expr → List String
  | .ident _ | .int _ | .str _ | .bool _ | .function _ _ => []
  | .array elements => Expr.targetsList elements
  | .hash pairs => Expr.targetsPairs pairs
  | .unary _ e => e.targets
  | .binary _ l r => l.targets ++ r.targets
  | .cond c yes none => c.targets ++ Stmt.targetsList yes
  | .cond c yes (some no) => c.targets ++ (Stmt.targetsList yes ++ Stmt.targetsList no)
  | .call callee args => callee.targets ++ Expr.targetsList args
  | .index container key => container.targets ++ key.targets
termination_by structural e => e

/-- The names that expressions may bind. -/
def Expr.targetsList : List Expr → List String
  | [] => []
  | e :: es => e.targets ++ Expr.targetsList es
termination_by structural es => es

/-- The names that the keys and values of pairs may bind. -/
def Expr.targetsPairs : List (Expr × Expr) → List String
  | [] => []
  | (k, v) :: ps => k.targets ++ (v.targets ++ Expr.targetsPairs ps)
termination_by structural ps => ps

/-- The names that a statement may bind. -/
def Stmt.targets : Stmt → List String
  | .bind name e => name :: e.targets
  | .ret e | .expr e => e.targets
termination_by structural s => s

/-- The names that statements may bind. -/
def Stmt.targetsList : List Stmt → List String
  | [] => []
  | s :: ss => s.targets ++ Stmt.targetsList ss
termination_by structural ss => ss

end

/-- The names that a program may bind in its scope. -/
abbrev Program.targets (p : Program) : List String :=
  Stmt.targetsList p

/-! ## Values -/

/-- A property of values without parts, and of the parts of values that have it. -/
structure Value.Hereditary (S : Value → Prop) : Prop where
  null : S .null
  int (n : Int64) : S (.int n)
  bool (b : Bool) : S (.bool b)
  str (text : String) : S (.str text)
  builtin (b : Builtin) : S (.builtin b)
  elements {id : ObjectId} {vs : List Value} : S (.array id vs) → ∀ v ∈ vs, S v
  entries {id : ObjectId} {entries : List (HashKey × Value × Value)} :
    S (.hash id entries) → ∀ e ∈ entries, S e.2.1 ∧ S e.2.2
  ret {v : Value} : S (.ret v) → S v

/-- A property that values have by their parts: a list or a hash has it if everything
    in it does. -/
structure Value.Inherited (S : Value → Prop) : Prop extends Value.Hereditary S where
  array_of {id : ObjectId} {vs : List Value} : (∀ v ∈ vs, S v) → S (.array id vs)
  hash_of {id : ObjectId} {entries : List (HashKey × Value × Value)} :
    (∀ e ∈ entries, S e.2.1 ∧ S e.2.2) → S (.hash id entries)

/-- An array has the property exactly if its elements do. -/
theorem Value.Inherited.array {S : Value → Prop} (hS : Value.Inherited S) {id : ObjectId}
    {vs : List Value} : S (.array id vs) ↔ ∀ v ∈ vs, S v :=
  ⟨hS.elements, hS.array_of⟩

theorem Value.Inherited.hash {S : Value → Prop} (hS : Value.Inherited S) {id : ObjectId}
    {entries : List (HashKey × Value × Value)} :
    S (.hash id entries) ↔ ∀ e ∈ entries, S e.2.1 ∧ S e.2.2 :=
  ⟨hS.entries, hS.hash_of⟩

theorem Value.inherited_true : Value.Inherited fun _ => True where
  null := trivial
  int _ := trivial
  bool _ := trivial
  str _ := trivial
  builtin _ := trivial
  elements _ _ _ := trivial
  entries _ _ _ := ⟨trivial, trivial⟩
  ret _ := trivial
  array_of _ := trivial
  hash_of _ := trivial

/-- The entries of a hash have the property, keys as well as what they stand for. -/
abbrev Value.OfEntries (S : Value → Prop) (entries : List (HashKey × Value × Value)) : Prop :=
  ∀ e ∈ entries, S e.2.1 ∧ S e.2.2

namespace Value.Hereditary

variable {S : Value → Prop} (hS : Value.Hereditary S)

include hS

/-- Unary operators give numbers and truth values. -/
theorem unary {op : UnaryOp} {v w : Value} (h : Value.unary op v = .ok w) : S w := by
  cases op with
  | not =>
    obtain rfl := Except.ok.inj h
    exact hS.bool _
  | negate =>
    cases v with
    | int n =>
      obtain rfl := Except.ok.inj h
      exact hS.int _
    | _ => cases h

/-- Operators on numbers give numbers and truth values. -/
theorem binaryInt {op : BinaryOp} {m n : Int64} {w : Value}
    (h : Value.binaryInt op m n = .ok w) : S w := by
  cases op with
  | add | sub | mul =>
    obtain rfl := Except.ok.inj h
    exact hS.int _
  | lt | gt | eq | ne =>
    obtain rfl := Except.ok.inj h
    exact hS.bool _
  | div =>
    rw [Value.binaryInt] at h
    split at h
    · cases h
    · obtain rfl := Except.ok.inj h
      exact hS.int _

theorem binaryStr {op : BinaryOp} {s t : String} {w : Value}
    (h : Value.binaryStr op s t = .ok w) : S w := by
  cases op with
  | add =>
    obtain rfl := Except.ok.inj h
    exact hS.str _
  | eq | ne =>
    obtain rfl := Except.ok.inj h
    exact hS.bool _
  | _ => cases h

/-- Binary operators give values without parts. -/
theorem binary {op : BinaryOp} {l r w : Value} (h : Value.binary op l r = .ok w) : S w := by
  rw [Value.binary.eq_def] at h
  split at h
  · exact hS.binaryInt h
  · exact hS.binaryStr h
  · -- Other operands can at most be compared, which gives a truth value.
    split at h
    · cases h
    · split at h
      · obtain rfl := Except.ok.inj h
        exact hS.bool _
      · obtain rfl := Except.ok.inj h
        exact hS.bool _
      · cases h

theorem getD {v? : Option Value} (h : ∀ v ∈ v?, S v) : S (v?.getD .null) := by
  cases v? with
  | none => exact hS.null
  | some v => exact h v rfl

/-- An index gives an element or an entry, or `null`. -/
theorem index {c k w : Value} (hc : S c) (h : Value.index c k = .ok w) : S w := by
  rw [Value.index.eq_def] at h
  split at h
  · -- The index of an array: an element of it, or `null`.
    obtain rfl := Except.ok.inj h
    rw [Value.element]
    split
    · exact hS.null
    · exact hS.getD fun v hv => hS.elements hc v (List.mem_of_getElem? hv)
  · -- The key of a hash: what one of its entries stands for, or `null`.
    split at h
    · obtain rfl := Except.ok.inj h
      refine hS.getD fun v hv => ?_
      obtain ⟨e, he, rfl⟩ := Option.map_eq_some_iff.1 hv
      exact (hS.entries hc _ (Assoc.mem_of_get? he)).2
    · cases h
  · cases h

end Value.Hereditary

/-- Keys and values with the property may be put in. -/
theorem Value.OfEntries.put {S : Value → Prop} {entries : List (HashKey × Value × Value)}
    (h : Value.OfEntries S entries) {key : HashKey} {k v : Value} (hk : S k) (hv : S v) :
    Value.OfEntries S (Assoc.put key (k, v) entries) := by
  intro e he
  rcases Assoc.mem_put he with rfl | he
  · exact ⟨hk, hv⟩
  · exact h e he

/-! ## Errors -/

namespace EvalError

/-- The name that nothing is bound to, if this is the error. -/
def unbound? : EvalError → Option String
  | unbound name => some name
  | _ => none

/-- The values that an error carries. -/
def values : EvalError → List Value
  | unbound _ | divisionByZero | argumentCount _ _ => []
  | notCallable v | unaryOperand _ v | unsupportedArgument _ v | expectedArray _ v | unusableKey v
  | notIndexable v => [v]
  | binaryOperands _ v w | kindMismatch _ v w => [v, w]

/-- The error is one about these values, and about no name. -/
structure About (vs : List Value) (e : EvalError) : Prop where
  unbound? : e.unbound? = none
  values : e.values ⊆ vs

/-- An error that is not about a name is about the values that it carries. -/
theorem About.self {e : EvalError} (h : e.unbound? = none) : e.About e.values :=
  ⟨h, List.Subset.refl _⟩

/-- What the values have that an error is about, those have that it carries. -/
theorem About.forall_values {vs : List Value} {e : EvalError} (h : e.About vs) {S : Value → Prop}
    (hvs : ∀ v ∈ vs, S v) : ∀ v ∈ e.values, S v :=
  fun v hv => hvs v (h.values hv)

end EvalError

namespace Value

/-- Unary operators are in error about their operand. -/
theorem about_of_unary {op : UnaryOp} {v : Value} {e : EvalError} (h : unary op v = .error e) :
    e.About [v] := by
  cases op with
  | not => cases h
  | negate =>
    cases v with
    | int n => cases h
    | _ =>
      obtain rfl := Except.error.inj h
      exact ⟨rfl, List.Subset.refl _⟩

/-- Operators on numbers are in error about none of them. -/
theorem about_of_binaryInt {op : BinaryOp} {m n : Int64} {e : EvalError}
    (h : binaryInt op m n = .error e) (vs : List Value) : e.About vs := by
  cases op with
  | div =>
    rw [binaryInt] at h
    split at h
    · obtain rfl := Except.error.inj h
      exact ⟨rfl, List.nil_subset vs⟩
    · cases h
  | _ => cases h

/-- Binary operators are in error about their operands. -/
theorem about_of_binary {op : BinaryOp} {l r : Value} {e : EvalError}
    (h : binary op l r = .error e) : e.About [l, r] := by
  rw [binary.eq_def] at h
  split at h
  · exact about_of_binaryInt h _
  · cases op <;> cases h <;> exact ⟨rfl, List.Subset.refl _⟩
  · split at h
    · obtain rfl := Except.error.inj h
      exact ⟨rfl, List.Subset.refl _⟩
    · cases op <;> cases h <;> exact ⟨rfl, List.Subset.refl _⟩

/-- An index is in error about itself or about what it is an index into. -/
theorem about_of_index {c k : Value} {e : EvalError} (h : index c k = .error e) :
    e.About [c, k] := by
  rw [index.eq_def] at h
  split at h
  · cases h
  · split at h
    · cases h
    · obtain rfl := Except.error.inj h
      exact ⟨rfl, List.subset_cons_self _ _⟩
  · obtain rfl := Except.error.inj h
    exact ⟨rfl, List.cons_subset_cons _ (List.nil_subset _)⟩

end Value

/-! ## Evaluations -/

/-- What an evaluation has ended in has the property: `Q` if evaluation goes on with
    it, `S` if it is a value on its way out of a function or one that an error carries. -/
def Outcome.Holds {α : Type} (S : Value → Prop) (Q : α → Prop) : Outcome α → Prop
  | value a => Q a
  | returned v => S v
  | failed e => ∀ v ∈ e.values, S v
  | exhausted => True

/-- Nothing has to be known of an outcome for what is true of everything. -/
theorem Outcome.Holds.of_forall {α : Type} {S : Value → Prop} {Q : α → Prop} (hS : ∀ v, S v)
    (hQ : ∀ a, Q a) {o : Outcome α} : o.Holds S Q := by
  cases o with
  | value a => exact hQ a
  | returned v => exact hS v
  | failed e => exact fun v _ => hS v
  | exhausted => trivial

/-- The outcome is the value, on its way out of a function or not, or an error that carries
    it. -/
def Outcome.Gives (v : Value) : Outcome Value → Prop
  | value w | returned w => w = v
  | failed e => v ∈ e.values
  | exhausted => False

/-- What is known of an outcome is known of all that it gives. -/
theorem Outcome.Holds.of_gives {S : Value → Prop} {o : Outcome Value} (h : o.Holds S S) {v : Value}
    (hv : o.Gives v) : S v := by
  cases o with
  | value w | returned w =>
    obtain rfl := hv
    exact h
  | failed e => exact h v hv
  | exhausted => cases hv

namespace Eval

variable {α β : Type} {I : State → Prop} {S : Value → Prop} {Q : α → Prop} {R : β → Prop}

/-- From the state `s` the evaluation leads to one with `I`, in an outcome with `S`
    and `Q`. -/
abbrev Ends (I : State → Prop) (S : Value → Prop) (Q : α → Prop) (m : Eval α) (s : State) : Prop :=
  I (m.run s).2 ∧ (m.run s).1.Holds S Q

/-- A value on its way out of a function has the property as well. -/
theorem Ends.catchReturn {m : Eval Value} {s : State} (h : Ends I S S m s) :
    Ends I S S (catchReturn m) s := by
  rw [Ends] at h ⊢
  rw [run_catchReturn]
  -- A value on its way out has the property already, and becomes a value like others.
  rcases hr : m.run s with ⟨v | v | e | _, t⟩ <;> rw [hr] at h
  · exact h
  · exact h
  · exact h
  · exact h

/-- The evaluation keeps the invariant `I`, and its values have the properties `S`
    and `Q`, those of its errors among them. -/
def Keeps (I : State → Prop) (S : Value → Prop) (Q : α → Prop) (m : Eval α) : Prop :=
  ∀ ⦃s⦄, I s → Ends I S Q m s

namespace Keeps

theorem pure {a : α} (h : Q a) : Keeps I S Q (pure a) :=
  fun _ hs => ⟨hs, h⟩

/-- The second part goes on with values that have the property. -/
theorem bind {m : Eval α} {k : α → Eval β} (hm : Keeps I S Q m)
    (hk : ∀ a, Q a → Keeps I S R (k a)) : Keeps I S R (m >>= k) := by
  intro s hs
  have h := hm hs
  rw [Ends] at h ⊢
  rw [run_bind]
  -- What has not ended in a value is left as it is.
  rcases hr : m.run s with ⟨a | v | e | _, t⟩ <;> rw [hr] at h
  · exact hk a h.2 h.1
  · exact h
  · exact h
  · exact h

/-- The values that the error is about must have the property. -/
theorem fail {e : EvalError} {vs : List Value} (he : e.About vs) (hvs : ∀ v ∈ vs, S v) :
    Keeps I S Q (fail e) :=
  fun _ hs => ⟨hs, he.forall_values hvs⟩

theorem exhaust : Keeps I S Q exhaust :=
  fun _ hs => ⟨hs, trivial⟩

theorem leave {v : Value} (h : S v) : Keeps I S Q (leave v) :=
  fun _ hs => ⟨hs, h⟩

/-- An operation on the state keeps an invariant that is true before and after it. -/
theorem onState {f : State → α × State} (hI : ∀ s, I s → I (f s).2) (hQ : ∀ s, I s → Q (f s).1) :
    Keeps I S Q (onState f) :=
  fun s hs => ⟨hI s hs, hQ s hs⟩

/-- Operations on values with the property are in error about these. -/
theorem ofExcept {r : Except EvalError α} {vs : List Value} (hvs : ∀ v ∈ vs, S v)
    (he : ∀ e, r = .error e → e.About vs) (h : ∀ a, r = .ok a → Q a) :
    Keeps I S Q (ofExcept r) := by
  cases r with
  | ok a => exact .pure (h a rfl)
  | error e => exact .fail (he e rfl) hvs

/-- What is handed on has the property, on its way out of a function or not. -/
theorem give (hS : Value.Inherited S) {v : Value} (h : S v) : Keeps I S S (give v) := by
  rw [Eval.give.eq_def]
  split
  · exact .leave (hS.ret h)
  · exact .pure h

theorem catchReturn {m : Eval Value} (hm : Keeps I S S m) : Keeps I S S (catchReturn m) :=
  fun _ hs => (hm hs).catchReturn

end Keeps

end Eval

open Eval

/-! ## Built-in functions -/

/-- What the call of a built-in function does. What it gives or puts into a new array are
    arguments of it, their elements, or values that refer to nothing. It is in error about
    its arguments. -/
inductive Builtin.Does (args : List Value) (s : State) : Outcome Value × State → Prop
  | fails {e : EvalError} : e.About args → Does args s (.failed e, s)
  | prints (text : String) : Does args s (.value .null, s.print text)
  | gives {v : Value} : (∀ S, Value.Hereditary S → (∀ a ∈ args, S a) → S v) →
      Does args s (.value v, s)
  | creates {vs : List Value} : (∀ S, Value.Hereditary S → (∀ a ∈ args, S a) → ∀ v ∈ vs, S v) →
      Does args s (.value (.array s.nextId vs), s.newId.2)

namespace Builtin

/-- Printing values adds some text to what was printed, and nothing else happens. -/
theorem exists_run_printAll (vs : List Value) (s : State) :
    ∃ text, (printAll vs).run s = (.value (), s.print text) := by
  induction vs generalizing s with
  | nil => exact ⟨"", by simp [printAll, State.print]⟩
  | cons v vs ih =>
    obtain ⟨text, h⟩ := ih (s.print (v.inspect ++ "\n"))
    exact ⟨v.inspect ++ "\n" ++ text, h.trans (by simp [State.print, String.append_assoc])⟩

/-- A call of a built-in function is in error, prints, gives a value by parts of its arguments, or
    creates an array of such values. -/
theorem does_call (b : Builtin) (args : List Value) (s : State) :
    Does args s ((b.call args).run s) := by
  have hprints : Does args s ((do printAll args; return .null : Eval Value).run s) := by
    obtain ⟨text, h⟩ := exists_run_printAll args s
    rw [run_bind, h]
    exact .prints text
  rw [call.eq_def]
  split
  · exact hprints
  · exact hprints
  · exact .gives fun _ hS _ => hS.int _
  · exact .gives fun _ hS _ => hS.int _
  · exact .fails ⟨rfl, List.Subset.refl _⟩
  · next v =>
    cases v with
    | array id vs =>
      refine .gives fun S hS hargs => hS.getD fun w hw => ?_
      exact hS.elements (hargs _ List.mem_cons_self) w (List.mem_of_head? hw)
    | _ => exact .fails ⟨rfl, List.Subset.refl _⟩
  · next v =>
    cases v with
    | array id vs =>
      refine .gives fun S hS hargs => hS.getD fun w hw => ?_
      exact hS.elements (hargs _ List.mem_cons_self) w (List.mem_of_getLast? hw)
    | _ => exact .fails ⟨rfl, List.Subset.refl _⟩
  · next v =>
    cases v with
    | array id vs =>
      cases vs with
      | nil => exact .gives fun _ hS _ => hS.null
      | cons w ws =>
        refine .creates fun S hS hargs x hx => ?_
        exact hS.elements (hargs _ List.mem_cons_self) x (List.mem_cons_of_mem _ hx)
    | _ => exact .fails ⟨rfl, List.Subset.refl _⟩
  · next v x =>
    cases v with
    | array id vs =>
      refine .creates fun S hS hargs => List.forall_mem_append.2 ⟨?_, ?_⟩
      · exact hS.elements (hargs _ List.mem_cons_self)
      · exact List.forall_mem_singleton.2 (hargs _ (List.mem_cons_of_mem _ List.mem_cons_self))
    | _ => exact .fails ⟨rfl, List.cons_subset_cons _ (List.nil_subset _)⟩
  · exact .fails ⟨rfl, List.nil_subset _⟩
  · exact .fails ⟨rfl, List.nil_subset _⟩

end Builtin

section

variable {I : State → Prop} {S : Value → Prop}

/-- Creating an array of values with the property keeps what taking a number does. -/
theorem newArray_keeps (hS : Value.Inherited S) (hid : ∀ s, I s → I s.newId.2) {vs : List Value}
    (h : ∀ v ∈ vs, S v) : Keeps I S S (newArray vs) :=
  (Keeps.onState (Q := fun _ => True) hid fun _ _ => trivial).bind fun _ _ => .pure (hS.array.2 h)

theorem newHash_keeps (hS : Value.Inherited S) (hid : ∀ s, I s → I s.newId.2)
    {entries : List (HashKey × Value × Value)} (h : Value.OfEntries S entries) :
    Keeps I S S (newHash entries) :=
  (Keeps.onState (Q := fun _ => True) hid fun _ _ => trivial).bind fun _ _ => .pure (hS.hash.2 h)

namespace Builtin

/-- Calling a built-in function keeps what taking a number and printing do. -/
theorem call_keeps (hS : Value.Inherited S) (hid : ∀ s, I s → I s.newId.2)
    (hprint : ∀ s text, I s → I (s.print text)) (b : Builtin) {args : List Value}
    (h : ∀ v ∈ args, S v) : Keeps I S S (b.call args) := by
  intro s hs
  have hdoes := b.does_call args s
  rw [Ends]
  generalize (b.call args).run s = r at hdoes
  cases hdoes with
  | fails he => exact ⟨hs, he.forall_values h⟩
  | prints text => exact ⟨hprint s text hs, hS.null⟩
  | gives hv => exact ⟨hs, hv S hS.toHereditary h⟩
  | creates hvs => exact ⟨hid s hs, hS.array.2 (hvs S hS.toHereditary h)⟩

/-- A built-in function never ends in a value on its way out of a function. -/
theorem run_call_ne_returned (b : Builtin) (args : List Value) (s : State) (v : Value) :
    ((b.call args).run s).1 ≠ .returned v := by
  have hdoes := b.does_call args s
  generalize (b.call args).run s = r at hdoes
  cases hdoes <;> nofun

end Builtin

end

/-! ## Trees -/

/-- The steps that evaluation in a scope is made of keep the invariant `I`, and the
    property `S` of values, as long as only names with the property `B` are bound. -/
structure Keeping (I : State → Prop) (S : Value → Prop) (B : String → Prop)
    (apply : Value → List Value → Eval Value) (scope : ScopeId) : Prop where
  inherited : Value.Inherited S
  function (id : ObjectId) (params : List String) (body : Block) :
    S (.function id ⟨params, body, scope⟩)
  lookup {s : State} {x : String} {v : Value} : I s → s.get? scope x = some v → S v
  bind {s : State} {x : String} {v : Value} : I s → B x → S v → I (s.bind scope x v)
  newId (s : State) : I s → I s.newId.2
  apply {f : Value} {args : List Value} :
    S f → (∀ v ∈ args, S v) → Keeps I S S (apply f args)

namespace Keeping

variable {I : State → Prop} {S : Value → Prop} {B : String → Prop}
  {apply : Value → List Value → Eval Value} {scope : ScopeId}

/-- A name stands for a value with the property. -/
theorem lookup_keeps (h : Keeping I S B apply scope) (x : String) :
    Keeps I S S (Eval.lookup scope x) := by
  intro s hs
  rw [Ends, run_lookup]
  split
  · next v hv => exact ⟨hs, h.lookup hs hv⟩
  · next b _ _ => exact ⟨hs, h.inherited.builtin b⟩
  · exact ⟨hs, List.forall_mem_nil _⟩

/-- A target may be bound to a value with the property. -/
theorem bindName_keeps (h : Keeping I S B apply scope) {x : String} (hx : B x) {v : Value}
    (hv : S v) : Keeps I S (fun _ => True) (bindName scope x v) :=
  .onState (fun _ hs => h.bind hs hx hv) fun _ _ => trivial

end Keeping

variable {I : State → Prop} {S : Value → Prop} {B : String → Prop}
  {apply : Value → List Value → Eval Value} {scope : ScopeId}

mutual

/-- Evaluating an expression keeps what the steps keep, and gives a value with the property. -/
theorem Expr.eval_keeps (h : Keeping I S B apply scope) (e : Expr) (he : ∀ x ∈ e.targets, B x) :
    Keeps I S S (e.eval apply scope) := by
  have hS := h.inherited
  match e with
  | .ident x => exact (h.lookup_keeps x).bind fun _ => .give hS
  | .int _ => exact .pure (hS.int _)
  | .str _ => exact .pure (hS.str _)
  | .bool _ => exact .pure (hS.bool _)
  | .array es =>
    exact (Expr.evalList_keeps h es he).bind fun vs hvs => newArray_keeps hS h.newId hvs
  | .hash ps =>
    refine (Expr.evalPairs_keeps h [] ?_ ps he).bind fun es hes => newHash_keeps hS h.newId hes
    exact fun _ h => absurd h List.not_mem_nil
  | .unary _ e =>
    refine (e.eval_keeps h he).bind fun v hv => ?_
    exact .ofExcept (List.forall_mem_singleton.2 hv) (fun _ => Value.about_of_unary)
      fun _ => hS.unary
  | .binary _ l r =>
    obtain ⟨hl, hr⟩ := List.forall_mem_append.1 he
    refine (l.eval_keeps h hl).bind fun v hv => (r.eval_keeps h hr).bind fun w hw => ?_
    have hvw := List.forall_mem_cons.2 ⟨hv, List.forall_mem_singleton.2 hw⟩
    exact .ofExcept hvw (fun _ => Value.about_of_binary) fun _ => hS.binary
  | .cond c yes none =>
    obtain ⟨hc, hyes⟩ := List.forall_mem_append.1 he
    refine (c.eval_keeps h hc).bind fun v _ => ?_
    cases v.truthy with
    | true => exact Stmt.evalFrom_keeps h hS.null yes hyes
    | false => exact .pure hS.null
  | .cond c yes (some no) =>
    obtain ⟨hc, hyesno⟩ := List.forall_mem_append.1 he
    obtain ⟨hyes, hno⟩ := List.forall_mem_append.1 hyesno
    refine (c.eval_keeps h hc).bind fun v _ => ?_
    cases v.truthy with
    | true => exact Stmt.evalFrom_keeps h hS.null yes hyes
    | false => exact Stmt.evalFrom_keeps h hS.null no hno
  | .function params body =>
    have hid : Keeps I S (fun _ => True) (onState State.newId) :=
      .onState h.newId fun _ _ => trivial
    exact hid.bind fun id _ => .pure (h.function id params body)
  | .call callee args =>
    obtain ⟨hcallee, hargs⟩ := List.forall_mem_append.1 he
    refine (callee.eval_keeps h hcallee).bind fun f hf => ?_
    refine (Expr.evalList_keeps h args hargs).bind fun vs hvs => ?_
    exact (h.apply hf hvs).bind fun _ => .give hS
  | .index container key =>
    obtain ⟨hcontainer, hkey⟩ := List.forall_mem_append.1 he
    refine (container.eval_keeps h hcontainer).bind fun c hc => ?_
    refine (key.eval_keeps h hkey).bind fun k hk => ?_
    have hck := List.forall_mem_cons.2 ⟨hc, List.forall_mem_singleton.2 hk⟩
    have hindex : Keeps I S S (ofExcept (Value.index c k)) :=
      .ofExcept hck (fun _ => Value.about_of_index) fun _ => hS.index hc
    exact hindex.bind fun _ => .give hS
termination_by structural e

theorem Expr.evalList_keeps (h : Keeping I S B apply scope) (es : List Expr)
    (he : ∀ x ∈ Expr.targetsList es, B x) :
    Keeps I S (fun vs => ∀ v ∈ vs, S v) (Expr.evalList apply es scope) := by
  match es with
  | [] => exact .pure fun _ h => absurd h List.not_mem_nil
  | e :: es =>
    obtain ⟨he, hes⟩ := List.forall_mem_append.1 he
    refine (e.eval_keeps h he).bind fun v hv => ?_
    refine (Expr.evalList_keeps h es hes).bind fun vs hvs => .pure ?_
    exact List.forall_mem_cons.2 ⟨hv, hvs⟩
termination_by structural es

/-- Pairs keep what their keys and values keep, and so the entries have the property. -/
theorem Expr.evalPairs_keeps (h : Keeping I S B apply scope)
    (entries : List (HashKey × Value × Value)) (hentries : Value.OfEntries S entries)
    (ps : List (Expr × Expr)) (he : ∀ x ∈ Expr.targetsPairs ps, B x) :
    Keeps I S (Value.OfEntries S) (Expr.evalPairs apply entries ps scope) := by
  match ps with
  | [] => exact .pure hentries
  | (k, v) :: ps =>
    obtain ⟨hk, hvps⟩ := List.forall_mem_append.1 he
    obtain ⟨hv, hps⟩ := List.forall_mem_append.1 hvps
    refine (k.eval_keeps h hk).bind fun key hkey => ?_
    cases key.hashKey? with
    | none => exact .fail (.self rfl) (List.forall_mem_singleton.2 hkey)
    | some _ =>
      refine (v.eval_keeps h hv).bind fun value hvalue => ?_
      exact Expr.evalPairs_keeps h _ (hentries.put hkey hvalue) ps hps
termination_by structural ps

theorem Stmt.eval_keeps (h : Keeping I S B apply scope) (s : Stmt) (hs : ∀ x ∈ s.targets, B x) :
    Keeps I S S (s.eval apply scope) := by
  match s with
  | .bind x e =>
    obtain ⟨hx, he⟩ := List.forall_mem_cons.1 hs
    refine (e.eval_keeps h he).bind fun v hv => (h.bindName_keeps hx hv).bind fun _ _ => ?_
    exact .pure h.inherited.null
  | .ret e => exact (e.eval_keeps h hs).bind fun v hv => .leave hv
  | .expr e => exact e.eval_keeps h hs
termination_by structural s

theorem Stmt.evalFrom_keeps (h : Keeping I S B apply scope) {v : Value} (hv : S v)
    (ss : List Stmt) (hs : ∀ x ∈ Stmt.targetsList ss, B x) :
    Keeps I S S (Stmt.evalFrom apply v ss scope) := by
  match ss with
  | [] => exact .pure hv
  | s :: ss =>
    obtain ⟨hs, hss⟩ := List.forall_mem_append.1 hs
    exact (s.eval_keeps h hs).bind fun v hv => Stmt.evalFrom_keeps h hv ss hss
termination_by structural ss

end

/-- Evaluating a block keeps what the steps keep. -/
theorem Block.eval_keeps (h : Keeping I S B apply scope) (b : Block)
    (hb : ∀ x ∈ Stmt.targetsList b, B x) : Keeps I S S (b.eval apply scope) :=
  Stmt.evalFrom_keeps h h.inherited.null b hb

/-- Evaluating a program keeps what the steps keep. -/
theorem Program.eval_keeps {depth : Nat} (h : Keeping I S B (Value.apply depth) scope) (p : Program)
    (hp : ∀ x ∈ p.targets, B x) : Keeps I S S (p.eval depth scope) :=
  (Block.eval_keeps h p hp).catchReturn

/-! ## Calls -/

/-- Applying a value keeps what the evaluation of the bodies of functions keeps. -/
theorem Value.apply_keeps (hS : Value.Inherited S) (hid : ∀ s, I s → I s.newId.2)
    (hprint : ∀ s text, I s → I (s.print text)) {depth : Nat} {f : Value} {args : List Value}
    (hf : S f) (hargs : ∀ v ∈ args, S v)
    (hbody : ∀ n id c, depth = n + 1 → f = .function id c → c.params.length = args.length →
      ∀ s, I s → Ends I S S (c.body.eval (Value.apply n) s.scopes.size) (s.enter c args)) :
    Keeps I S S (f.apply depth args) := by
  cases f with
  | function id c =>
    by_cases hlength : c.params.length = args.length
    · cases depth with
      | zero =>
        rw [apply_function_zero hlength]
        exact .exhaust
      | succ n =>
        intro s hs
        rw [Ends, run_apply_function hlength]
        exact (hbody n id c rfl rfl hlength s hs).catchReturn
    · rw [apply_function_of_ne hlength]
      exact .fail (.self rfl) (List.forall_mem_nil S)
  | builtin b =>
    rw [apply_builtin]
    exact b.call_keeps hS hid hprint hargs
  | _ =>
    rw [apply_of_not_callable]
    · exact .fail (.self rfl) (List.forall_mem_singleton.2 hf)
    · nofun
    · nofun

end Monkey
