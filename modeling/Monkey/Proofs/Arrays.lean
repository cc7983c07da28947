import Mathlib.Data.List.Forall2
import Monkey.Proofs.Grounded

/-!
# Arrays as lists

Arrays are never changed: the operations on them look at elements or create new arrays. So a
program that works on arrays may as well work on pure lists (`Item`), where operations give
lists and nothing has an identity.

Operations are performed one after the other, each on something that is at hand, and what they
give comes to hand for those after it (`ArrayOp.performAll`); pure lists answer in the same way
(`ArrayOp.answerAll`). The main statement is that what is at hand shows the answers, however
many operations there are and whatever arrays they share (`ArrayOp.performAll_shows`). What has
been at hand before stays as it is, and the arrays that are created are no other ones.
-/

namespace Monkey

open Eval State

/-! ## Pure lists -/

/-- What is at hand among pure lists: a value, or a list of what has been at hand. -/
inductive Item where
  | value (v : Value)
  | list (items : List Item)

namespace Item

/-- What stands where there is nothing. -/
def null : Item := value .null

/-- What is in a list. A value may be one, if it is an array. -/
def items? : Item → Option (List Item)
  | list items => some items
  | value (.array _ vs) => some (vs.map value)
  | value _ => none

/-- The value is what is at hand: the value itself, or an array of what is in the list. -/
inductive Shows : Item → Value → Prop
  | value (v : Value) : Shows (value v) v
  | list {items : List Item} {id : ObjectId} {vs : List Value} : List.Forall₂ Shows items vs →
      Shows (list items) (.array id vs)

/-- Values are shown by themselves. -/
theorem shows_map_value (vs : List Value) : List.Forall₂ Shows (vs.map value) vs := by
  induction vs with
  | nil => exact .nil
  | cons v vs ih => exact .cons (.value v) ih

/-- What is shown as an array is shown with its elements. -/
theorem Shows.items {item : Item} {v : Value} (h : Shows item v) {items : List Item}
    (hitems : item.items? = some items) :
    ∃ id vs, v = .array id vs ∧ List.Forall₂ Shows items vs := by
  cases h with
  | value v =>
    cases v with
    | array id vs =>
      obtain rfl := Option.some.inj hitems
      exact ⟨id, vs, rfl, shows_map_value vs⟩
    | _ => cases hitems
  | list h =>
    obtain rfl := Option.some.inj hitems
    exact ⟨_, _, rfl, h⟩

/-- What stands at the same place is shown alike, and `null` where nothing does. -/
theorem shows_getElem? {items : List Item} {vs : List Value} (h : List.Forall₂ Shows items vs)
    (k : Nat) : Shows (items[k]?.getD null) (vs[k]?.getD .null) := by
  induction h generalizing k with
  | nil => exact .value .null
  | cons h _ ih =>
    cases k with
    | zero => exact h
    | succ k => exact ih k

end Item

/-- The operations on an array. What is pushed is told by its place among what is at hand. -/
inductive ArrayOp where
  | len
  | first
  | last
  | tail
  | push (place : Nat)
  | index (i : Int64)
  deriving DecidableEq

namespace ArrayOp

/-- What a pure list gives, if it gives anything. -/
def answer? (hand items : List Item) : ArrayOp → Option Item
  | len => some (.value (.int (.ofNat items.length)))
  | first => items.head?
  | last => items.getLast?
  | tail => if items = [] then none else some (.list items.tail)
  | push place => some (.list (items ++ [hand[place]?.getD .null]))
  | index i => if i.toInt < 0 then none else items[i.toInt.toNat]?

/-- What is at hand after the operations, each on the list at its place, if it is one. -/
def answerAll : List (Nat × ArrayOp) → List Item → Option (List Item)
  | [], hand => some hand
  | (place, op) :: ops, hand => do
    let items ← (← hand[place]?).items?
    answerAll ops (hand ++ [(op.answer? hand items).getD .null])

/-- There is nothing in the list for the operation to give. -/
def Lacks (items : List Item) : ArrayOp → Prop
  | len | push _ => False
  | first | last | tail => items = []
  | index i => i.toInt < 0 ∨ items.length ≤ i.toInt

/-- There is no answer for the lists exactly if something is lacking for it. -/
theorem answer?_eq_none_iff {hand items : List Item} {op : ArrayOp} :
    op.answer? hand items = none ↔ op.Lacks items := by
  cases op with
  | len | push => simp [answer?, Lacks]
  | first | last | tail => simp [answer?, Lacks]
  | index i =>
    simp only [answer?, Lacks]
    split
    · next h => exact iff_of_true rfl (.inl h)
    · rw [List.getElem?_eq_none_iff]
      omega

end ArrayOp

/-! ## Calls -/

namespace Builtin

/-- The first argument of the built-in function may be of the kind. -/
def accepts : Builtin → Kind → Bool
  | _, .array | len, .string => true
  | _, _ => false

/-- The error of a call in which the first argument is of a kind that it may not have. -/
def refusal (b : Builtin) (v : Value) : EvalError :=
  match b with
  | len => .unsupportedArgument len v
  | b => .expectedArray b v

/-- The kind of the first argument is seen to after the number of arguments. -/
theorem call_of_not_accepts {b : Builtin} {n : Nat} (hb : b.arity? = some n) {a : Value}
    {args : List Value} (hlength : (a :: args).length = n) (ha : b.accepts a.kind = false) :
    b.call (a :: args) = fail (b.refusal a) := by
  cases b with
  | puts | print => cases hb
  | push =>
    obtain rfl := Option.some.inj hb
    obtain ⟨x, rfl⟩ := List.length_eq_one_iff.1 (Nat.succ.inj hlength)
    cases a <;> first | rfl | cases ha
  | len | first | last | tail =>
    obtain rfl := Option.some.inj hb
    obtain rfl := List.eq_nil_of_length_eq_zero (Nat.succ.inj hlength)
    cases a <;> first | rfl | cases ha

/-- Nothing else is wrong with a call. -/
theorem exists_run_call {b : Builtin} {n : Nat} (hb : b.arity? = some n) {a : Value}
    {args : List Value} (hlength : (a :: args).length = n) (ha : b.accepts a.kind = true)
    (s : State) : ∃ v t, (b.call (a :: args)).run s = (.value v, t) := by
  cases b with
  | puts | print => cases hb
  | push =>
    obtain rfl := Option.some.inj hb
    obtain ⟨x, rfl⟩ := List.length_eq_one_iff.1 (Nat.succ.inj hlength)
    cases a <;> first | exact ⟨_, _, rfl⟩ | cases ha
  | len | first | last =>
    obtain rfl := Option.some.inj hb
    obtain rfl := List.eq_nil_of_length_eq_zero (Nat.succ.inj hlength)
    cases a <;> first | exact ⟨_, _, rfl⟩ | cases ha
  | tail =>
    obtain rfl := Option.some.inj hb
    obtain rfl := List.eq_nil_of_length_eq_zero (Nat.succ.inj hlength)
    cases a with
    | array id vs => cases vs <;> exact ⟨_, _, rfl⟩
    | _ => cases ha

end Builtin

/-! ## Performing operations -/

namespace ArrayOp

/-- The operation creates an array, unless it lacks elements. -/
def Creates : ArrayOp → Prop
  | tail | push _ => True
  | len | first | last | index _ => False

/-- Performs an operation on a value at hand. -/
def perform (hand : List Value) (a : Value) : ArrayOp → Eval Value
  | len => Builtin.len.call [a]
  | first => Builtin.first.call [a]
  | last => Builtin.last.call [a]
  | tail => Builtin.tail.call [a]
  | push place => Builtin.push.call [a, hand[place]?.getD .null]
  | index i => Eval.ofExcept (Value.index a (.int i))

/-- Performs operations one after the other, each on the value at its place, and puts what they
    give with what is at hand. -/
def performAll : List (Nat × ArrayOp) → List Value → Eval (List Value)
  | [], hand => pure hand
  | (place, op) :: ops, hand => do
    let v ← op.perform hand (hand[place]?.getD .null)
    performAll ops (hand ++ [v])

/-- The operation has given the value, which shows the answer, and no more has changed than
    that an array may have been created. -/
structure Performed (op : ArrayOp) (s : State) (item : Item) (v : Value) (t : State) : Prop where
  shows : item.Shows v
  scopes_eq : t.scopes = s.scopes
  printed_eq : t.printed = s.printed
  le : Outnumbered s t
  owns : t.Owns v
  same_eq : op.Creates → v.kind = .array → ∀ w, s.Owns w → w.same v = false

end ArrayOp

/-- The next array is equal to none that there is. -/
theorem State.Owns.same_array {s : State} {w : Value} (h : s.Owns w) (vs : List Value) :
    w.same (.array s.nextId vs) = false := by
  cases w with
  | array id ws => exact beq_eq_false_iff_ne.2 (Nat.ne_of_lt (h.prop id rfl))
  | _ => rfl

namespace ArrayOp

variable {s : State} {items : List Item} {vs : List Value} {item : Item} {v : Value}

/-- An operation that creates nothing gives a value that there is. -/
theorem Performed.of_owns {op : ArrayOp} (hop : ¬op.Creates ∨ v.kind ≠ .array)
    (hshows : item.Shows v) (howns : s.Owns v) : Performed op s item v s where
  shows := hshows
  scopes_eq := rfl
  printed_eq := rfl
  le := .refl s
  owns := howns
  same_eq hcreates hkind := absurd hop (by simp [hcreates, hkind])

/-- A new array of values that are owned is a right answer. -/
theorem Performed.of_new {op : ArrayOp} (hshows : List.Forall₂ Item.Shows items vs)
    (howns : ∀ v ∈ vs, s.Owns v) :
    Performed op s (.list items) (.array s.nextId vs) s.newId.2 where
  shows := .list hshows
  scopes_eq := rfl
  printed_eq := rfl
  le := .newId s
  owns := .array howns
  same_eq _ _ _ hw := hw.same_array vs

/-- An operation ends in the answer for the lists, or in `null` where this is lacking. Nothing
    that it is given changes. -/
theorem run_perform (op : ArrayOp) {handItems : List Item} {hand : List Value} {id : ObjectId}
    (hhand : List.Forall₂ Item.Shows handItems hand) (howns : ∀ v ∈ hand, s.Owns v)
    (hitems : List.Forall₂ Item.Shows items vs) (hvs : s.Owns (.array id vs)) :
    ∃ v t, (op.perform hand (.array id vs)).run s = (.value v, t) ∧
      op.Performed s ((op.answer? handItems items).getD .null) v t := by
  have hS := Owns.hereditary s
  have helements := hS.elements hvs
  have hget (vs : List Value) (hvs : ∀ v ∈ vs, s.Owns v) (k : Nat) : s.Owns (vs[k]?.getD .null) :=
    hS.getD fun v hv => hvs v (List.mem_of_getElem? hv)
  cases op with
  | len =>
    refine ⟨_, _, rfl, .of_owns (.inl fun h => h) ?_ (hS.int _)⟩
    rw [answer?, hitems.length_eq]
    exact .value _
  | first =>
    refine ⟨_, _, rfl, .of_owns (.inl fun h => h) ?_ ?_⟩
    · rw [answer?, List.head?_eq_getElem?, List.head?_eq_getElem?]
      exact Item.shows_getElem? hitems 0
    · rw [List.head?_eq_getElem?]
      exact hget vs helements 0
  | last =>
    refine ⟨_, _, rfl, .of_owns (.inl fun h => h) ?_ ?_⟩
    · rw [answer?, List.getLast?_eq_getElem?, List.getLast?_eq_getElem?, hitems.length_eq]
      exact Item.shows_getElem? hitems _
    · rw [List.getLast?_eq_getElem?]
      exact hget vs helements _
  | tail =>
    cases hitems with
    | nil => exact ⟨_, _, rfl, .of_owns (.inr nofun) (.value _) hS.null⟩
    | cons _ hrest =>
      exact ⟨_, _, rfl, .of_new hrest fun v hv => helements v (List.mem_cons_of_mem _ hv)⟩
  | push place =>
    refine ⟨_, _, rfl, .of_new ?_ (List.forall_mem_append.2 ⟨helements, ?_⟩)⟩
    · exact List.rel_append hitems (.cons (Item.shows_getElem? hhand place) .nil)
    · exact List.forall_mem_singleton.2 (hget hand howns place)
  | index i =>
    refine ⟨_, _, rfl, ?_⟩
    have hsign : i < 0 ↔ i.toInt < 0 := Int64.lt_iff_toInt_lt
    rw [answer?, Value.element]
    by_cases h : i < 0
    · rw [if_pos h, if_pos (hsign.1 h)]
      exact .of_owns (.inl fun h => h) (.value _) hS.null
    · rw [if_neg h, if_neg (mt hsign.2 h)]
      exact .of_owns (.inl fun h => h) (Item.shows_getElem? hitems _) (hget vs helements _)

/-- The arrays that the operations have created, which start at the place `n`, are equal to
    nothing that there was before the operations, and to nothing at hand before them. -/
def New (s : State) (ops : List (Nat × ArrayOp)) (n : Nat) (hand : List Value) : Prop :=
  ∀ k place op v, ops[k]? = some (place, op) → op.Creates → hand[n + k]? = some v →
    v.kind = .array →
      (∀ w, s.Owns w → w.same v = false) ∧ ∀ i < n + k, ∀ w, hand[i]? = some w → w.same v = false

/-- The arrays that come first are new before those that come later. -/
theorem New.cons {s t : State} {item : Item} {v : Value} {place : Nat} {op : ArrayOp}
    {ops : List (Nat × ArrayOp)} {hand hand' : List Value} (hhand : hand ++ [v] <+: hand')
    (howns : ∀ w ∈ hand, s.Owns w) (hop : op.Performed s item v t)
    (hops : New t ops (hand ++ [v]).length hand') :
    New s ((place, op) :: ops) hand.length hand' := by
  intro k place' op' w hk hcreates hw hkind
  obtain ⟨rest, rfl⟩ := hhand
  cases k with
  | zero =>
    -- The first of the operations: all that is at hand before it was there.
    obtain ⟨rfl, rfl⟩ := Prod.mk.inj (Option.some.inj hk)
    obtain rfl : v = w := by simpa using hw
    have hsame := hop.same_eq hcreates hkind
    refine ⟨hsame, fun i hi x hx => hsame x (howns x ?_)⟩
    rw [List.append_assoc, List.getElem?_append_left hi] at hx
    exact List.mem_of_getElem? hx
  | succ k =>
    have hplace : hand.length + (k + 1) = (hand ++ [v]).length + k := by
      rw [List.length_append, List.length_singleton, Nat.add_assoc, Nat.add_comm 1]
    rw [hplace] at hw ⊢
    obtain ⟨hnew, hearlier⟩ := hops k place' op' w hk hcreates hw hkind
    exact ⟨fun x hx => hnew x (hx.mono hop.le), hearlier⟩

/-- Operations one after the other end in the answers for the lists. What is at hand stays there,
    in the same order, and every array that is created is equal to none before it. -/
theorem run_performAll {ops : List (Nat × ArrayOp)} {handItems items : List Item}
    {hand : List Value} (hhand : List.Forall₂ Item.Shows handItems hand)
    (howns : ∀ v ∈ hand, s.Owns v) (hops : answerAll ops handItems = some items) :
    ∃ hand' t, (performAll ops hand).run s = (.value hand', t) ∧ hand <+: hand' ∧
      List.Forall₂ Item.Shows items hand' ∧ t.scopes = s.scopes ∧ t.printed = s.printed ∧
      New s ops hand.length hand' := by
  induction ops generalizing handItems hand s with
  | nil =>
    obtain rfl := Option.some.inj hops
    exact ⟨hand, s, rfl, List.prefix_rfl, hhand, rfl, rfl, fun k _ _ _ hk => by cases hk⟩
  | cons request ops ih =>
    obtain ⟨place, op⟩ := request
    simp only [answerAll, Option.bind_eq_bind, Option.bind_eq_some_iff] at hops
    obtain ⟨item, hitem, list, hlist, hops⟩ := hops
    -- The list at the place is shown by an array, on which the operation is performed.
    have hshows := Item.shows_getElem? hhand place
    rw [hitem] at hshows
    obtain ⟨id, vs, harray, hvs⟩ := hshows.items hlist
    have hmem : hand[place]? = some (.array id vs) := by
      cases hplace : hand[place]? with
      | none => simp [hplace] at harray
      | some a => simpa [hplace] using harray
    obtain ⟨v, t, hrun, hop⟩ :=
      op.run_perform hhand howns hvs (howns _ (List.mem_of_getElem? hmem))
    have howns' : ∀ w ∈ hand ++ [v], t.Owns w := List.forall_mem_append.2
      ⟨fun w hw => (howns w hw).mono hop.le, List.forall_mem_singleton.2 hop.owns⟩
    obtain ⟨hand', u, hrun', hprefix, hitems, hscopes, hprinted, hnew⟩ :=
      ih (List.rel_append hhand (.cons hop.shows .nil)) howns' hops
    refine ⟨hand', u, ?_, (List.prefix_append hand [v]).trans hprefix, hitems,
      hscopes.trans hop.scopes_eq, hprinted.trans hop.printed_eq, hnew.cons hprefix howns hop⟩
    rw [performAll, harray, run_bind, hrun]
    exact hrun'

end ArrayOp

/-- However many operations are performed, each on an array that was there or that one before
    it has given, all of them give what they give on pure lists. What is at hand stays as it is,
    and so do all scopes; and the arrays that are created are equal to nothing that there was
    before them. An operation gives nothing, which is `null`, exactly if it lacks an element. A
    call fails exactly if the number of arguments is wrong or else the kind of the first one. -/
theorem ArrayOp.performAll_shows :
    (∀ (ops : List (Nat × ArrayOp)) (hand : List Value) (items : List Item) (s : State),
      (∀ v ∈ hand, s.Owns v) → answerAll ops (hand.map .value) = some items →
      ∃ hand' t, (performAll ops hand).run s = (.value hand', t) ∧ hand <+: hand' ∧
        List.Forall₂ Item.Shows items hand' ∧ t.scopes = s.scopes ∧ t.printed = s.printed ∧
        New s ops hand.length hand') ∧
    (∀ (op : ArrayOp) (hand items : List Item), op.answer? hand items = none ↔ op.Lacks items) ∧
    ∀ (b : Builtin) (n : Nat), b.arity? = some n → ∀ (args : List Value) (s : State),
      (args.length ≠ n → (b.call args).run s = (.failed (.argumentCount n args.length), s)) ∧
      (args.length = n → ∃ a rest, args = a :: rest ∧
        (b.accepts a.kind = false → (b.call args).run s = (.failed (b.refusal a), s)) ∧
        (b.accepts a.kind = true → ∃ v t, (b.call args).run s = (.value v, t))) := by
  refine ⟨fun ops hand items s => run_performAll (Item.shows_map_value hand),
    fun op hand items => answer?_eq_none_iff, fun b n hb args s => ⟨fun h => ?_, fun h => ?_⟩⟩
  · rw [Builtin.call_of_length_ne hb h, run_fail]
  · obtain ⟨a, rest, rfl⟩ : ∃ a rest, args = a :: rest := by
      refine List.exists_cons_of_length_pos ?_
      cases b <;> cases hb <;> omega
    refine ⟨a, rest, rfl, fun ha => ?_, fun ha => Builtin.exists_run_call hb h ha s⟩
    rw [Builtin.call_of_not_accepts hb h ha, run_fail]

/-- An array is pushed on itself; the tail of that array still has the old one at its end. Two
    of the calls that fail: without a value to push, and with the number to take the tail of. -/
theorem ArrayOp.performAll_shows_itself :
    let one : Value := .array 0 [.int 1]
    let ops : List (Nat × ArrayOp) := [(0, push 0), (1, tail), (2, last), (3, len), (0, index 1)]
    let items : List Item := [.value one, .list [.value (.int 1), .value one],
      .list [.value one], .value one, .value (.int 1), .null]
    let s := State.empty.newId.2
    (∀ v ∈ [one], s.Owns v) ∧ answerAll ops [.value one] = some items ∧
    (∃ hand t, (performAll ops [one]).run s = (.value hand, t) ∧ [one] <+: hand ∧
      List.Forall₂ Item.Shows items hand ∧ t.scopes = s.scopes ∧ t.printed = s.printed ∧
      New s ops 1 hand) ∧
    (Builtin.push.call [one]).run s = (.failed (.argumentCount 2 1), s) ∧
    (Builtin.tail.call [.int 1]).run s = (.failed (.expectedArray .tail (.int 1)), s) := by
  intro one ops items s
  have howns : ∀ v ∈ [one], s.Owns v := List.forall_mem_singleton.2
    (.array (List.forall_mem_singleton.2 ((State.Owns.hereditary _).int 1)))
  obtain ⟨hops, -, hcalls⟩ := ArrayOp.performAll_shows
  obtain ⟨a, rest, hargs, hfails, -⟩ := (hcalls .tail 1 rfl [.int 1] s).2 rfl
  obtain ⟨rfl, rfl⟩ := List.cons_eq_cons.1 hargs
  exact ⟨howns, rfl, hops ops [one] items s howns rfl, (hcalls .push 2 rfl [one] s).1 (by decide),
    hfails rfl⟩

end Monkey
