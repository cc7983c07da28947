import Mathlib.Order.Monotone.Basic
import Monkey.Eval.Call

/-!
# Renamings

Arrays, hashes, functions and scopes are numbered in the order of their creation. Two
evaluations that create the same give it different numbers, if one of them starts out with
more. What there is in the one corresponds to what there is in the other by a *renaming*
of these numbers (`Renaming`), which is one-to-one and keeps the order of creation.

Operators do not see how things are numbered: they make of renamed operands what they make
of the operands, renamed. This goes for `==` as well, as different numbers stay different
(`Value.same_rename`), and a renamed value is printed as before (`Value.inspect_rename`).
-/

namespace Monkey

/-! ## Renamings -/

/-- A renumbering of scopes and of arrays, hashes and functions that keeps their order. -/
structure Renaming where
  scope : ScopeId → ScopeId
  object : ObjectId → ObjectId
  scope_strictMono : StrictMono scope
  object_strictMono : StrictMono object

namespace Renaming

/-- Everything keeps its number. -/
protected def id : Renaming :=
  ⟨id, id, strictMono_id, strictMono_id⟩

/-- Moving on what comes later keeps the order. -/
theorem strictMono_shift (first by' : Nat) :
    StrictMono fun i => if i < first then i else i + by' := by
  intro i j hij
  dsimp only
  split <;> split <;> omega

/-- What has the number `scopes` or `objects` or a later one is moved on. -/
def shift (scopes scopesBy objects objectsBy : Nat) : Renaming where
  scope i := if i < scopes then i else i + scopesBy
  object i := if i < objects then i else i + objectsBy
  scope_strictMono := strictMono_shift scopes scopesBy
  object_strictMono := strictMono_shift objects objectsBy

section

variable {scopes scopesBy objects objectsBy : Nat}

theorem shift_scope_of_le {i : ScopeId} (h : scopes ≤ i) :
    (shift scopes scopesBy objects objectsBy).scope i = i + scopesBy :=
  if_neg (Nat.not_lt.2 h)

theorem shift_object_of_le {id : ObjectId} (h : objects ≤ id) :
    (shift scopes scopesBy objects objectsBy).object id = id + objectsBy :=
  if_neg (Nat.not_lt.2 h)

end

end Renaming

/-! ## Errors with other values -/

namespace EvalError

/-- The error with the values that it carries changed. -/
def map (f : Value → Value) : EvalError → EvalError
  | unbound name => unbound name
  | notCallable v => notCallable (f v)
  | unaryOperand op v => unaryOperand op (f v)
  | binaryOperands op v w => binaryOperands op (f v) (f w)
  | kindMismatch op v w => kindMismatch op (f v) (f w)
  | divisionByZero => divisionByZero
  | argumentCount expected got => argumentCount expected got
  | unsupportedArgument b v => unsupportedArgument b (f v)
  | expectedArray b v => expectedArray b (f v)
  | unusableKey v => unusableKey (f v)
  | notIndexable v => notIndexable (f v)

theorem map_map (f g : Value → Value) (e : EvalError) :
    (e.map f).map g = e.map fun v => g (f v) := by
  cases e <;> rfl

theorem map_id (e : EvalError) : e.map id = e := by
  cases e <;> rfl

/-- Of the values that it carries, an error tells nothing but the kinds. -/
theorem message_map {f : Value → Value} (h : ∀ v, (f v).kind = v.kind) (e : EvalError) :
    (e.map f).message = e.message := by
  rw [message.eq_def, message.eq_def]
  cases e <;> simp only [map, h]

end EvalError

variable (r : Renaming)

/-- The function that lives in the renamed scope. -/
def Closure.rename (c : Closure) : Closure :=
  { c with scope := r.scope c.scope }

/-- Functions that differ do so after renaming. -/
theorem Closure.rename_injective : Function.Injective (Closure.rename r) := by
  rintro ⟨params, body, scope⟩ ⟨params', body', scope'⟩ h
  obtain ⟨hparams, hbody, hscope⟩ := Closure.mk.inj h
  rw [Closure.mk.injEq]
  exact ⟨hparams, hbody, r.scope_strictMono.injective hscope⟩

namespace Value

mutual

/-- The value with all that is in it renamed. -/
def rename : Value → Value
  | null => null
  | int n => int n
  | bool b => bool b
  | str text => str text
  | array id elements => array (r.object id) (renameList elements)
  | hash id entries => hash (r.object id) (renameEntries entries)
  | function id c => function (r.object id) (c.rename r)
  | builtin b => builtin b
  | ret v => ret v.rename
  | error message => error message
termination_by structural v => v

/-- The values renamed. -/
def renameList : List Value → List Value
  | [] => []
  | v :: vs => v.rename :: renameList vs
termination_by structural vs => vs

/-- The entries of a hash renamed; they are found under the same keys. -/
def renameEntries : List (HashKey × Value × Value) → List (HashKey × Value × Value)
  | [] => []
  | (key, k, v) :: entries => (key, k.rename, v.rename) :: renameEntries entries
termination_by structural entries => entries

end

/-- Values are renamed one by one. -/
@[simp]
theorem renameList_eq_map (vs : List Value) : renameList r vs = vs.map (rename r) := by
  induction vs with
  | nil => rfl
  | cons v vs ih => simp [renameList, ih]

/-- What an entry of a hash holds, renamed. -/
def renameEntry (e : Value × Value) : Value × Value :=
  (e.1.rename r, e.2.rename r)

@[simp]
theorem renameEntries_eq_map (entries : List (HashKey × Value × Value)) :
    renameEntries r entries = entries.map fun e => (e.1, renameEntry r e.2) := by
  induction entries with
  | nil => rfl
  | cons e entries ih => simp [renameEntries, renameEntry, ih]

/-- A renamed function is called with as many arguments. -/
theorem length_params_rename (c : Closure) (args : List Value) :
    (c.rename r).params.length = (args.map (rename r)).length ↔
      c.params.length = args.length := by
  rw [List.length_map, Closure.rename]

/-! ## What is seen of a value -/

/-- A value keeps its kind. -/
@[simp]
theorem kind_rename (v : Value) : (v.rename r).kind = v.kind := by
  cases v <;> rfl

@[simp]
theorem truthy_rename (v : Value) : (v.rename r).truthy = v.truthy := by
  cases v <;> rfl

/-- A value keeps its hash key, as none depends on numbers. -/
@[simp]
theorem hashKey?_rename (v : Value) : (v.rename r).hashKey? = v.hashKey? := by
  cases v <;> rfl

mutual

/-- Numbers are not printed. -/
theorem inspect_rename (v : Value) : (v.rename r).inspect = v.inspect := by
  match v with
  | array _ vs => simp only [rename, inspect, inspectList_rename vs]
  | hash _ es => simp only [rename, inspect, inspectEntries_rename es]
  | ret v => simp only [rename, inspect, inspect_rename v]
  | null | int _ | bool _ | str _ | function _ _ | builtin _ | error _ => rfl
termination_by structural v

theorem inspectList_rename (vs : List Value) : inspectList (renameList r vs) = inspectList vs := by
  match vs with
  | [] => rfl
  | v :: vs => simp only [renameList, inspectList, inspect_rename v, inspectList_rename vs]
termination_by structural vs

theorem inspectEntries_rename (es : List (HashKey × Value × Value)) :
    inspectEntries (renameEntries r es) = inspectEntries es := by
  match es with
  | [] => rfl
  | (_, k, v) :: es =>
    simp only [renameEntries, inspectEntries, inspect_rename k, inspect_rename v,
      inspectEntries_rename es]
termination_by structural es

end

/-- What is one and the same stays so, and what is not does not become so. -/
theorem same_rename (v w : Value) : (v.rename r).same (w.rename r) = v.same w := by
  have hobject : ∀ i j, (r.object i == r.object j) = (i == j) := fun i j => by
    rw [Bool.eq_iff_iff, beq_iff_eq, beq_iff_eq, r.object_strictMono.injective.eq_iff]
  match v with
  | ret v => cases w <;> first | rfl | exact same_rename v _
  | array i _ | hash i _ | function i _ => cases w <;> first | rfl | exact hobject i _
  | null | int _ | bool _ | str _ | builtin _ | error _ => cases w <;> rfl
termination_by structural v

mutual

/-- A value is as before if everything keeps its number. -/
theorem rename_id (v : Value) : v.rename .id = v := by
  match v with
  | array _ vs => rw [rename, renameList_id vs]; rfl
  | hash _ es => rw [rename, renameEntries_id es]; rfl
  | ret v => rw [rename, rename_id v]
  | null | int _ | bool _ | str _ | function _ _ | builtin _ | error _ => rfl
termination_by structural v

theorem renameList_id (vs : List Value) : renameList .id vs = vs := by
  match vs with
  | [] => rfl
  | v :: vs => rw [renameList, rename_id v, renameList_id vs]
termination_by structural vs

theorem renameEntries_id (es : List (HashKey × Value × Value)) : renameEntries .id es = es := by
  match es with
  | [] => rfl
  | (_, k, v) :: es => rw [renameEntries, rename_id k, rename_id v, renameEntries_id es]
termination_by structural es

end

theorem rename_id_eq : rename .id = id :=
  funext rename_id

/-! ## Operators -/

/-- What an operation on values has come to, renamed, be it a value or an error. -/
def renameExcept : Except EvalError Value → Except EvalError Value
  | .ok v => .ok (v.rename r)
  | .error e => .error (e.map (rename r))

/-- A unary operator makes of a renamed operand what it makes of the operand, renamed. -/
theorem unary_rename (op : UnaryOp) (v : Value) :
    unary op (v.rename r) = renameExcept r (unary op v) := by
  cases op with
  | not => simp [unary, renameExcept, rename]
  | negate => cases v <;> rfl

/-- What an operator makes of numbers or texts has no parts to rename. -/
theorem renameExcept_binaryInt (op : BinaryOp) (m n : Int64) :
    renameExcept r (binaryInt op m n) = binaryInt op m n := by
  cases op with
  | div =>
    simp only [binaryInt]
    split <;> rfl
  | _ => rfl

theorem renameExcept_binaryStr (op : BinaryOp) (s t : String) :
    renameExcept r (binaryStr op s t) = binaryStr op s t := by
  cases op <;> rfl

/-- Operands that are neither two numbers nor two texts are seen by their kinds and by
    whether they are the same. -/
theorem binary_of_kind_ne (op : BinaryOp) {v w : Value}
    (hint : ¬(v.kind = .integer ∧ w.kind = .integer))
    (hstr : ¬(v.kind = .string ∧ w.kind = .string)) :
    binary op v w =
      if v.kind ≠ w.kind then .error (.kindMismatch op v w)
      else match op with
        | .eq => .ok (.bool (v.same w))
        | .ne => .ok (.bool !(v.same w))
        | op => .error (.binaryOperands op v w) := by
  rw [binary.eq_def]
  split
  · exact absurd ⟨rfl, rfl⟩ hint
  · exact absurd ⟨rfl, rfl⟩ hstr
  · rfl

/-- A binary operator makes of renamed operands what it makes of the operands, renamed. -/
theorem binary_rename (op : BinaryOp) (v w : Value) :
    binary op (v.rename r) (w.rename r) = renameExcept r (binary op v w) := by
  by_cases hint : v.kind = .integer ∧ w.kind = .integer
  · cases v <;> cases hint.1
    cases w <;> cases hint.2
    exact (renameExcept_binaryInt r op _ _).symm
  by_cases hstr : v.kind = .string ∧ w.kind = .string
  · cases v <;> cases hstr.1
    cases w <;> cases hstr.2
    exact (renameExcept_binaryStr r op _ _).symm
  rw [binary_of_kind_ne op hint hstr, binary_of_kind_ne op, kind_rename, kind_rename, same_rename]
  · split
    · rfl
    · cases op <;> rfl
  · rwa [kind_rename, kind_rename]
  · rwa [kind_rename, kind_rename]

theorem getD_rename (v? : Option Value) :
    (v?.map (rename r)).getD null = (v?.getD null).rename r := by
  cases v? <;> rfl

/-- The same element is found in a renamed array. -/
theorem element_rename (vs : List Value) (i : Int64) :
    element (vs.map (rename r)) i = (element vs i).rename r := by
  rw [element, element]
  split
  · rfl
  · rw [List.getElem?_map, getD_rename]

theorem entry_rename (entries : List (HashKey × Value × Value)) (key : HashKey) :
    entry (entries.map fun e => (e.1, renameEntry r e.2)) key = (entry entries key).rename r := by
  rw [entry, entry, Assoc.get?_map, ← getD_rename, Option.map_map, Option.map_map]
  rfl

/-- An index of renamed values is the index of the values, renamed. -/
theorem index_rename (c k : Value) :
    index (c.rename r) (k.rename r) = renameExcept r (index c k) := by
  cases c with
  | array id vs =>
    cases k with
    | int i =>
      simp only [rename, renameList_eq_map]
      exact congrArg Except.ok (element_rename r vs i)
    | _ => rfl
  | hash id es =>
    simp only [rename, renameEntries_eq_map, index, hashKey?_rename]
    cases k.hashKey? with
    | none => rfl
    | some key => exact congrArg Except.ok (entry_rename r es key)
  | _ => rfl

end Value

end Monkey
