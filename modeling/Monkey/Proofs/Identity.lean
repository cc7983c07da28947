import Monkey.Proofs.Alike
import Monkey.Proofs.Ledger

/-!
# Identity and equality

Arrays, hashes and functions are `==` if they have one number. That this is an equality at all,
and that values which are `==` cannot be told apart, is not a matter of the two values: it takes
that a number was only ever given to one of them. An *inventory* lists what has been created,
each under its number (`Inventory`). It is a ledger of every run, as what is created next has
the next number (`Ledger.inventory`), and of the values in it those are `==` that are one
(`Inventory.same_iff`).

The main statement (`Hosted.equality`) is about all values that come up in a run, whatever
a host does.
-/

namespace Monkey

open State

/-! ## Operators -/

/-- Kinds have different names. -/
theorem Kind.name_injective : Function.Injective Kind.name := by
  intro k l h
  revert h
  cases k <;> cases l <;> decide

namespace Value

/-- Values that are the same are of one kind. -/
theorem kind_eq_of_same {v w : Value} (h : v.same w = true) : v.kind = w.kind := by
  cases v <;> cases w <;> first | rfl | cases h

/-- Every value is the same as itself. -/
theorem same_self (v : Value) : v.same v = true := by
  match v with
  | null => rfl
  | int _ | bool _ | str _ | array _ _ | hash _ _ | function _ _ | builtin _ | error _ =>
    exact beq_self_eq_true _
  | ret v => exact v.same_self
termination_by structural v

/-- Of two values of one kind it can be told whether they are equal, of others it cannot. -/
theorem binary_eq (v w : Value) :
    binary .eq v w =
      if v.kind = w.kind then .ok (.bool (v.same w)) else .error (.kindMismatch .eq v w) := by
  rw [binary.eq_def]
  split
  · rfl
  · rfl
  · rw [ite_not]

/-- `!=` answers the opposite of `==`, and is in error where that is. -/
theorem binary_ne (v w : Value) :
    binary .ne v w =
      if v.kind = w.kind then .ok (.bool !(v.same w))
      else .error (.kindMismatch .ne v w) := by
  rw [binary.eq_def]
  split
  · rfl
  · rfl
  · rw [ite_not]

/-- The values are `==`. -/
def Equals (v w : Value) : Prop :=
  binary .eq v w = .ok (.bool true)

/-- Two values are equal for a program exactly if they are the same. -/
theorem equals_iff_same {v w : Value} : v.Equals w ↔ v.same w = true := by
  rw [Equals, binary_eq]
  split
  · simp
  · next hkind => exact iff_of_false nofun fun h => hkind (kind_eq_of_same h)

/-- Of two numbers one is less than the other or they are equal. -/
theorem count_comparisons (m n : Int64) :
    [decide (m < n), m == n, decide (n < m)].count true = 1 := by
  simp only [Int64.lt_iff_toInt_lt, beq_eq_decide, ← Int64.toInt_inj]
  rcases lt_trichotomy m.toInt n.toInt with h | h | h
  · simp [h, h.ne, h.not_gt]
  · simp [h]
  · simp [h, h.ne', h.not_gt]

end Value

/-! ## Inventories -/

/-- The arrays, hashes and functions that have been created, each at its number. -/
structure Inventory where
  objects : List Value

namespace Inventory

/-- What is created is added at the end. -/
instance : Preorder Inventory where
  le w u := w.objects <+: u.objects
  le_refl _ := List.prefix_rfl
  le_trans _ _ _ := List.IsPrefix.trans

/-- The value has no number or is what was created with it. -/
def Has (w : Inventory) (v : Value) : Prop :=
  ∀ id ∈ v.id?, w.objects[id]? = some v

/-- What is in an inventory is in every larger one. -/
theorem Has.mono {w u : Inventory} (h : w ≤ u) {v : Value} (hv : w.Has v) : u.Has v := by
  intro id hid
  obtain ⟨hlt, heq⟩ := List.getElem?_eq_some_iff.1 (hv id hid)
  exact heq ▸ List.prefix_iff_getElem?.1 h id hlt

end Inventory

/-- Whatever is bound is on the inventory, and the next number is the first that is not. -/
def Ledger.inventory : Ledger Inventory where
  states w s := w.objects.length = s.nextId ∧ s.Closed w.Has fun _ => True
  values := Inventory.Has
  scopes _ _ := True
  values_mono h hv := hv.mono h
  scopes_mono _ _ := trivial
  start := ⟨⟨[]⟩, rfl, .empty⟩
  plain hid id hmem := by
    rw [hid] at hmem
    cases hmem
  scope_of_lt _ _ := trivial
  outer _ _ _ _ := trivial
  binding hs hi hsc hv := hs.2.binding hi hsc hv
  congr hs hscopes hid := ⟨hid ▸ hs.1, hs.2.of_scopes_eq hscopes⟩
  newScope {w _ _} hs _ := ⟨w, le_refl w, hs.1, hs.2.newScope fun _ _ => trivial⟩
  bind {w _ i _} x hs _ hv := ⟨w, le_refl w, hs.1, hs.2.bind i x hv⟩
  create {w s v} hs hid _ := by
    have hle : w ≤ ⟨w.objects ++ [v]⟩ := List.prefix_append _ _
    refine ⟨⟨w.objects ++ [v]⟩, hle, ⟨?_, ?_⟩, ?_⟩
    · rw [List.length_append, hs.1]
      rfl
    · exact (hs.2.mono fun _ => Inventory.Has.mono hle).of_scopes_eq rfl
    · intro id hmem
      obtain rfl : s.nextId = id := Option.some.inj (hid.symm.trans hmem)
      rw [← hs.1]
      exact List.getElem?_concat_length

namespace Inventory

variable {w : Inventory} {a b : Value}

/-- What has one number is one thing. -/
theorem Has.eq (ha : w.Has a) (hb : w.Has b) {id : ObjectId} (hida : a.id? = some id)
    (hidb : b.id? = some id) : a = b :=
  Option.some.inj ((ha id hida).symm.trans (hb id hidb))

/-- Values that an inventory knows are the same if they are one. -/
theorem same_iff {a b : Value} (ha : Ledger.inventory.Knows w a)
    (hb : Ledger.inventory.Knows w b) : a.same b = true ↔ a = b := by
  refine ⟨fun h => ?_, fun h => ?_⟩
  · match a, b with
    | .null, .null => rfl
    | .int m, .int n => exact congrArg _ (eq_of_beq h)
    | .bool m, .bool n => exact congrArg _ (eq_of_beq h)
    | .str m, .str n => exact congrArg _ (eq_of_beq h)
    | .builtin m, .builtin n => exact congrArg _ (eq_of_beq h)
    | .error m, .error n => exact congrArg _ (eq_of_beq h)
    | .array .., .array .. => exact ha.prop.eq hb.prop rfl (congrArg some (eq_of_beq h).symm)
    | .hash .., .hash .. => exact ha.prop.eq hb.prop rfl (congrArg some (eq_of_beq h).symm)
    | .function .., .function .. => exact ha.prop.eq hb.prop rfl (congrArg some (eq_of_beq h).symm)
    | .ret v, .ret w => exact congrArg _ ((same_iff (ha.refers .inner) (hb.refers .inner)).1 h)
  · subst h
    exact a.same_self
termination_by sizeOf a

end Inventory

/-! ## Values that are equal -/

/-- A call of a built-in function looks the same in all states. -/
theorem Builtin.call_looksLike (b : Builtin) (args : List Value) (s t : State) :
    ((b.call args).run s).1.LooksLike ((b.call args).run t).1 := by
  have hprints : ((do printAll args; return .null : Eval Value).run s).1.LooksLike
      ((do printAll args; return .null : Eval Value).run t).1 := by
    obtain ⟨_, hs⟩ := exists_run_printAll args s
    obtain ⟨_, ht⟩ := exists_run_printAll args t
    rw [Eval.run_bind, Eval.run_bind, hs, ht]
    rfl
  rw [call.eq_def]
  split
  · exact hprints
  · exact hprints
  · rfl
  · rfl
  · rfl
  · next v => cases v <;> rfl
  · next v => cases v <;> rfl
  · next v =>
    cases v with
    | array id vs => cases vs <;> rfl
    | _ => rfl
  · next v x => cases v <;> rfl
  · rfl
  · rfl

/-- Nobody can tell the values apart: they have one text, are one as a condition and as a key, and
    give and are given the same by an index, and by a call of a built-in function as far as can be
    seen. -/
structure Value.Alike (v w : Value) : Prop where
  inspect : v.inspect = w.inspect
  truthy : v.truthy = w.truthy
  hashKey? : v.hashKey? = w.hashKey?
  index (k : Value) : Value.index v k = Value.index w k
  key (c : Value) : Value.index c v = Value.index c w
  call (b : Builtin) (before after : List Value) (s t : State) :
    ((b.call (before ++ v :: after)).run s).1.LooksLike ((b.call (before ++ w :: after)).run t).1

theorem Value.Alike.refl (v : Value) : v.Alike v where
  inspect := rfl
  truthy := rfl
  hashKey? := rfl
  index _ := rfl
  key _ := rfl
  call b _ _ := b.call_looksLike _

/-- Whether two values are equal is an error exactly if the names of their kinds differ, and then
    whether they are unequal is one as well; otherwise the two answers are opposite. Among all
    values that come up in a run, whatever a host does, it is an equality: every value is equal to
    itself, the order does not matter, and what is equal to equal values is equal; and values that
    are equal cannot be told apart. Of two numbers exactly one is less, or they are equal. -/
theorem Hosted.equality {s : State} {held : List Value} {j : Journal} (h : Hosted s held j) :
    (∀ v w : Value,
      (v.kind.name ≠ w.kind.name →
        Value.binary .eq v w = .error (.kindMismatch .eq v w) ∧
        Value.binary .ne v w = .error (.kindMismatch .ne v w)) ∧
      (v.kind.name = w.kind.name →
        ∃ b, Value.binary .eq v w = .ok (.bool b) ∧ Value.binary .ne v w = .ok (.bool !b))) ∧
    (∀ u v w : Value, u.ComesUp held j → v.ComesUp held j → w.ComesUp held j →
      u.Equals u ∧ (u.Equals v → v.Equals u) ∧ (u.Equals v → v.Equals w → u.Equals w) ∧
      (u.Equals v → u.Alike v)) ∧
    ∀ m n : Int64, ∃ lt eq gt : Bool, [lt, eq, gt].count true = 1 ∧
      Value.binary .lt (.int m) (.int n) = .ok (.bool lt) ∧
      Value.binary .eq (.int m) (.int n) = .ok (.bool eq) ∧
      Value.binary .gt (.int m) (.int n) = .ok (.bool gt) ∧
      Value.binary .gt (.int n) (.int m) = .ok (.bool lt) := by
  refine ⟨fun v w => ⟨fun hname => ?_, fun hname => ?_⟩, fun u v w hu hv hw => ?_, fun m n => ?_⟩
  · have hkind : v.kind ≠ w.kind := fun heq => hname (congrArg _ heq)
    rw [Value.binary_eq, Value.binary_ne, if_neg hkind, if_neg hkind]
    exact ⟨rfl, rfl⟩
  · have hkind : v.kind = w.kind := Kind.name_injective hname
    rw [Value.binary_eq, Value.binary_ne, if_pos hkind, if_pos hkind]
    exact ⟨v.same w, rfl, rfl⟩
  · obtain ⟨i, -, hknows⟩ := h.knows_of_comesUp .inventory
    have heq {a b : Value} (ha : a.ComesUp held j) (hb : b.ComesUp held j) : a.Equals b ↔ a = b :=
      Value.equals_iff_same.trans (Inventory.same_iff (hknows a ha) (hknows b hb))
    rw [heq hu hu, heq hu hv, heq hv hu, heq hv hw, heq hu hw]
    refine ⟨rfl, Eq.symm, Eq.trans, ?_⟩
    rintro rfl
    exact .refl u
  · exact ⟨_, _, _, Value.count_comparisons m n, rfl, rfl, rfl, rfl⟩

/-- A host has a program evaluated that comes to an array, and gives it a name. What it has in hand
    cannot be told apart from what it finds under the name, which is not compared with a number. -/
theorem Hosted.equality_array :
    let p : Program := [.expr (.array [.int 1])]
    let r := (p.trace 0 0).run (State.empty.newScope none).2 []
    let s := r.1.2.bind 0 "xs" (.array 0 [.int 1])
    ∃ xs ys : Value, s.get? 0 "xs" = some xs ∧ Hosted s [xs, ys] r.2 ∧ xs.Equals ys ∧ xs.Alike ys ∧
      Value.binary .eq xs (.int 1) = .error (.kindMismatch .eq xs (.int 1)) := by
  intro p r s
  have hstart : Hosted (State.empty.newScope none).2 [] [] := Hosted.start.newScope none nofun
  have heval : Hosted r.1.2 [] r.2 := hstart.eval 0 p (by decide)
  have hresult : Hosted r.1.2 [.array 0 [.int 1]] r.2 :=
    heval.result List.mem_cons_self rfl ⟨_, rfl, rfl⟩
  have hbind : Hosted s [.array 0 [.int 1]] r.2 :=
    hresult.bind "xs" (by decide) List.mem_cons_self
  have hget : s.get? 0 "xs" = some (.array 0 [.int 1]) := by
    rw [State.get?]
    rfl
  have hboth := hbind.get (by decide) hget
  have hup : (Value.array 0 [.int 1]).ComesUp [.array 0 [.int 1], .array 0 [.int 1]] r.2 :=
    .held List.mem_cons_self
  obtain ⟨hkinds, hvalues, -⟩ := Hosted.equality hboth
  obtain ⟨hrefl, -, -, halike⟩ := hvalues _ _ _ hup hup hup
  exact ⟨_, _, hget, hboth, hrefl, halike hrefl, ((hkinds _ (.int 1)).1 (by decide)).1⟩

end Monkey
