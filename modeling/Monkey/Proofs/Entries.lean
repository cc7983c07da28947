import Mathlib.Data.List.Induction
import Monkey.Eval

/-!
# Entries of hashes

The pairs of a hash are evaluated one after the other, and each goes to the entry of its hash key
(`Expr.PairsEval`). What comes of this does not depend on how they are put in: there is one entry
for each hash key, in the order in which these come first, and each entry is the last pair of its
hash key, key and value (`Value.Gathers`). An index gives the value of the last pair with its hash
key (`Expr.eval_hash`).

Hash keys tell numbers and truth values apart just as `==` does, and values of one kind from those
of another, whatever their bits. Texts are told apart by their digests, hence as `==` does as long
as no two different ones have the same.
-/

namespace Monkey

/-! ## Lists of entries -/

namespace Assoc

variable {κ α : Type} [DecidableEq κ]

/-- Puts in pairs of a key and what it stands for, one after the other. -/
def putAll (entries : Assoc κ α) (pairs : List (κ × α)) : Assoc κ α :=
  pairs.foldl (fun entries p => put p.1 p.2 entries) entries

/-- What the key stands for in the last of the pairs that have it. -/
def last? (k : κ) (pairs : List (κ × α)) : Option α :=
  (pairs.filter fun p => p.1 = k).getLast?.map Prod.snd

/-- The last pair is put in after all others. -/
theorem putAll_concat (entries : Assoc κ α) (pairs : List (κ × α)) (p : κ × α) :
    putAll entries (pairs ++ [p]) = put p.1 p.2 (putAll entries pairs) := by
  rw [putAll, List.foldl_append]
  rfl

/-- The last pair counts for its key, and for no other. -/
theorem last?_concat (k : κ) (pairs : List (κ × α)) (p : κ × α) :
    last? k (pairs ++ [p]) = if p.1 = k then some p.2 else last? k pairs := by
  rw [last?, List.filter_append, List.getLast?_append]
  by_cases h : p.1 = k <;> simp [h, last?]

/-- The last entry for a key is one of the pairs. -/
theorem mem_of_last? {k : κ} {a : α} {pairs : List (κ × α)} (h : last? k pairs = some a) :
    (k, a) ∈ pairs := by
  obtain ⟨⟨l, b⟩, hlast, rfl⟩ := Option.map_eq_some_iff.1 h
  obtain ⟨hmem, hl⟩ := List.mem_filter.1 (List.mem_of_getLast? hlast)
  exact of_decide_eq_true hl ▸ hmem

/-- A list that pairs are put into has the keys of the pairs, once each, in the order in which
    they come first. -/
theorem keys_putAll (pairs : List (κ × α)) :
    keys (putAll [] pairs) = (pairs.map Prod.fst).eraseDups := by
  induction pairs using List.reverseRecOn with
  | nil => rfl
  | append_singleton pairs p ih =>
    rw [putAll_concat, keys_put, ih, List.map_append, List.map_singleton, List.eraseDups_append]
    by_cases h : p.1 ∈ pairs.map Prod.fst
    · rw [if_pos (List.mem_eraseDups.2 h)]
      simp [List.removeAll, h]
    · rw [if_neg (mt List.mem_eraseDups.1 h)]
      simp [List.removeAll, h, List.eraseDups_cons]

/-- Putting leaves every key once. -/
theorem nodup_keys_put {entries : Assoc κ α} (h : (keys entries).Nodup) (k : κ) (a : α) :
    (keys (put k a entries)).Nodup := by
  rw [keys_put]
  split
  · exact h
  · next hk => exact List.nodup_append.2 ⟨h, List.pairwise_singleton _ k, by grind⟩

/-- Of pairs that are put in one after the other, every key is there once. -/
theorem nodup_keys_putAll (pairs : List (κ × α)) : (keys (putAll [] pairs)).Nodup := by
  induction pairs using List.reverseRecOn with
  | nil => exact List.nodup_nil
  | append_singleton pairs p ih =>
    rw [putAll_concat]
    exact nodup_keys_put ih p.1 p.2

theorem put_of_not_mem {k : κ} {entries : Assoc κ α} (h : k ∉ keys entries) (a : α) :
    put k a entries = entries ++ [(k, a)] := by
  induction entries with
  | nil => rfl
  | cons entry entries ih =>
    obtain ⟨hne, hnot⟩ := not_or.1 (mt List.mem_cons.2 h)
    rw [put, if_neg (Ne.symm hne), ih hnot, List.cons_append]

/-- Pairs that have all different keys are put in as they are. -/
theorem putAll_of_nodup {pairs : List (κ × α)} (h : (keys pairs).Nodup) :
    putAll [] pairs = pairs := by
  induction pairs using List.reverseRecOn with
  | nil => rfl
  | append_singleton pairs p ih =>
    rw [keys, List.map_append, List.nodup_append] at h
    obtain ⟨hpairs, -, hne⟩ := h
    rw [putAll_concat, ih hpairs, put_of_not_mem]
    exact fun hmem => hne _ hmem _ List.mem_cons_self rfl

/-- Of the pairs with a key, the last one counts. -/
theorem get?_putAll (k : κ) (pairs : List (κ × α)) :
    get? k (putAll [] pairs) = last? k pairs := by
  induction pairs using List.reverseRecOn with
  | nil => rfl
  | append_singleton pairs p ih =>
    rw [putAll_concat, last?_concat]
    split
    · next h => rw [h, get?_put_self]
    · next h => rw [get?_put_of_ne (Ne.symm h), ih]

/-- Where there is one entry a key, every entry is found. -/
theorem get?_of_mem {entries : Assoc κ α} (hnodup : (keys entries).Nodup) {k : κ} {a : α}
    (h : (k, a) ∈ entries) : get? k entries = some a := by
  induction entries with
  | nil => cases h
  | cons entry entries ih =>
    obtain ⟨hnot, hnodup⟩ := List.nodup_cons.1 hnodup
    rcases List.mem_cons.1 h with rfl | h
    · exact if_pos rfl
    · have hne : entry.1 ≠ k := by
        rintro rfl
        exact hnot (List.mem_map.2 ⟨_, h, rfl⟩)
      exact (if_neg hne).trans (ih hnodup h)

end Assoc

open Eval

/-! ## Evaluation of the pairs -/

section

variable {apply : Value → List Value → Eval Value} {scope : ScopeId}

variable (apply scope) in
/-- The pairs are evaluated one after the other, the key of each before its value, to keys and
    values that stand after the hash keys of the keys. -/
inductive Expr.PairsEval :
    List (Expr × Expr) → State → List (HashKey × Value × Value) → State → Prop
  | nil {s} : PairsEval [] s [] s
  | cons {k v ps s a key t b u keyed x} : (k.eval apply scope).run s = (.value a, t) →
      a.hashKey? = some key → (v.eval apply scope).run t = (.value b, u) →
      PairsEval ps u keyed x → PairsEval ((k, v) :: ps) s ((key, a, b) :: keyed) x

/-- The keys of evaluated pairs are those of the values that they are made from. -/
theorem Expr.PairsEval.hashKey? {ps : List (Expr × Expr)} {s t : State}
    {keyed : List (HashKey × Value × Value)} (h : PairsEval apply scope ps s keyed t) :
    ∀ p ∈ keyed, p.2.1.hashKey? = some p.1 := by
  induction h with
  | nil => exact nofun
  | cons _ hkey _ _ ih => exact List.forall_mem_cons.2 ⟨hkey, ih⟩

/-- The evaluation of the pairs puts them in as they come. -/
theorem Expr.run_evalPairs_iff {ps : List (Expr × Expr)} {s t : State}
    {entries entries' : List (HashKey × Value × Value)} :
    (Expr.evalPairs apply entries ps scope).run s = (.value entries', t) ↔
      ∃ keyed, PairsEval apply scope ps s keyed t ∧ entries' = Assoc.putAll entries keyed := by
  induction ps generalizing entries s with
  | nil =>
    rw [evalPairs_nil, run_pure]
    constructor
    · rintro ⟨⟩
      exact ⟨[], .nil, rfl⟩
    · rintro ⟨_, ⟨⟩, rfl⟩
      rfl
  | cons p ps ih =>
    obtain ⟨k, v⟩ := p
    rw [evalPairs_cons, run_bind_eq_value_iff]
    constructor
    · rintro ⟨a, t', hk, hrest⟩
      cases hkey : a.hashKey? with
      | none => simp [hkey] at hrest
      | some key =>
        simp only [hkey, run_bind_eq_value_iff] at hrest
        obtain ⟨b, u, hv, hrest⟩ := hrest
        obtain ⟨keyed, hps, rfl⟩ := ih.1 hrest
        exact ⟨_, .cons hk hkey hv hps, rfl⟩
    · rintro ⟨_, ⟨⟩ | ⟨hk, hkey, hv, hps⟩, rfl⟩
      refine ⟨_, _, hk, ?_⟩
      simp only [hkey, run_bind_eq_value_iff]
      exact ⟨_, _, hv, ih.2 ⟨_, hps, rfl⟩⟩

end

/-! ## Hash keys -/

namespace Value

/-- A key of a hash is of the kind of the value that it is made from. -/
theorem kind_of_hashKey? {v : Value} {key : HashKey} (h : v.hashKey? = some key) :
    key.kind = v.kind := by
  cases v <;> cases h <;> rfl

/-- Different numbers have different keys. -/
theorem hashKey?_int_inj {m n : Int64} : (int m).hashKey? = (int n).hashKey? ↔ m = n := by
  simp only [hashKey?, Option.some.injEq, HashKey.mk.injEq, true_and]
  constructor
  · intro h
    rw [← m.toInt64_toUInt64, ← n.toInt64_toUInt64, h]
  · rintro rfl
    rfl

theorem hashKey?_bool_inj {a b : Bool} : (bool a).hashKey? = (bool b).hashKey? ↔ a = b := by
  revert a b
  decide

/-- Texts have one key exactly if they have one digest. -/
theorem hashKey?_str_iff {x y : String} :
    (str x).hashKey? = (str y).hashKey? ↔ textDigest x = textDigest y := by
  simp [hashKey?]

/-- Numbers and truth values have one hash key if they are `==`. -/
theorem hashKey?_eq_iff {k l : Value} (hk : k.hashKey? ≠ none) (hkind : k.kind = l.kind)
    (hstring : k.kind ≠ .string) :
    k.hashKey? = l.hashKey? ↔ Value.binary .eq k l = .ok (.bool true) := by
  cases k with
  | int m =>
    cases l <;> cases hkind
    rw [hashKey?_int_inj]
    simp [binary, binaryInt]
  | bool a =>
    cases l <;> cases hkind
    rw [hashKey?_bool_inj]
    simp [binary, kind, same]
  | str x => exact absurd rfl hstring
  | _ => exact absurd rfl hk

/-! ## Hashes -/

/-- The entries are those of a hash of the pairs, which stand after their hash keys. -/
structure Gathers (keyed entries : List (HashKey × Value × Value)) : Prop where
  /-- There is an entry for each hash key, in the order in which they come first. -/
  keys_eq : entries.map Prod.fst = (keyed.map Prod.fst).eraseDups
  /-- There is not more than one. -/
  nodup : (entries.map Prod.fst).Nodup
  /-- It is the last pair with the hash key. -/
  last?_eq : ∀ entry ∈ entries, Assoc.last? entry.1 keyed = some entry.2
  /-- The hash key is that of the key in the entry. -/
  hashKey? : ∀ entry ∈ entries, entry.2.1.hashKey? = some entry.1

/-- Putting in pairs one after the other gathers them. -/
theorem gathers_putAll {keyed : List (HashKey × Value × Value)}
    (h : ∀ p ∈ keyed, p.2.1.hashKey? = some p.1) : Gathers keyed (Assoc.putAll [] keyed) := by
  have hnodup := Assoc.nodup_keys_putAll keyed
  have hlast : ∀ entry ∈ Assoc.putAll [] keyed, Assoc.last? entry.1 keyed = some entry.2 := by
    intro entry hentry
    rw [← Assoc.get?_putAll]
    exact Assoc.get?_of_mem hnodup hentry
  refine ⟨Assoc.keys_putAll keyed, hnodup, hlast, fun entry hentry => ?_⟩
  exact h entry (Assoc.mem_of_last? (hlast entry hentry))

/-- An index gives the value of the last pair with its hash key, or `null`. -/
theorem index_putAll (id : ObjectId) (keyed : List (HashKey × Value × Value)) {k : Value}
    {key : HashKey} (hkey : k.hashKey? = some key) :
    (hash id (Assoc.putAll [] keyed)).index k =
      .ok (((Assoc.last? key keyed).map Prod.snd).getD null) := by
  simp only [index, hkey, entry, Assoc.get?_putAll]

end Value

/-- If a hash is evaluated to a value, its pairs are evaluated to keys and values in order; it has
    one entry for each of their hash keys, in the order in which these come first, with the last
    key and value of the hash key; and a value that has a hash key is the index of the value of
    the last pair with it, or of `null`. Values of two kinds have two hash keys; of one kind,
    numbers and truth values have the same if they are `==`, and texts if they have the same
    digest. -/
theorem Expr.eval_hash :
    (∀ {depth : Nat} {pairs : List (Expr × Expr)} {scope : ScopeId} {s t : State} {v : Value},
      ((Expr.hash pairs).eval (Value.apply depth) scope).run s = (.value v, t) →
      ∃ id entries keyed u, v = .hash id entries ∧
        PairsEval (Value.apply depth) scope pairs s keyed u ∧ Value.Gathers keyed entries ∧
        ∀ k key, k.hashKey? = some key →
          v.index k = .ok (((Assoc.last? key keyed).map Prod.snd).getD .null)) ∧
    (∀ {k l : Value} {key key' : HashKey}, k.hashKey? = some key → l.hashKey? = some key' →
      (k.kind ≠ l.kind → key ≠ key') ∧
      (k.kind = l.kind → k.kind ≠ .string →
        (key = key' ↔ Value.binary .eq k l = .ok (.bool true)))) ∧
    ∀ x y : String,
      ((Value.str x).hashKey? = (Value.str y).hashKey? ↔
        Value.textDigest x = Value.textDigest y) ∧
      ((x ≠ y → Value.textDigest x ≠ Value.textDigest y) →
        ((Value.str x).hashKey? = (Value.str y).hashKey? ↔ x = y)) := by
  refine ⟨fun {depth pairs scope s t v} h => ?_, fun {k l key key'} hk hl => ⟨?_, ?_⟩,
    fun x y => ⟨Value.hashKey?_str_iff, fun hdigest => ?_⟩⟩
  · rw [Expr.eval_hash_eq, run_bind_eq_value_iff] at h
    obtain ⟨entries, u, hpairs, hhash⟩ := h
    obtain ⟨keyed, hkeyed, rfl⟩ := run_evalPairs_iff.1 hpairs
    obtain rfl := Outcome.value.inj (Prod.mk.inj hhash).1
    exact ⟨_, _, keyed, u, rfl, hkeyed, Value.gathers_putAll hkeyed.hashKey?,
      fun k key => Value.index_putAll _ keyed⟩
  · rintro hkind rfl
    exact hkind ((Value.kind_of_hashKey? hk).symm.trans (Value.kind_of_hashKey? hl))
  · intro hkind hstring
    rw [← Value.hashKey?_eq_iff (hk ▸ Option.some_ne_none key) hkind hstring, hk, hl,
      Option.some.injEq]
  · rw [Value.hashKey?_str_iff]
    exact ⟨not_imp_not.1 hdigest, congrArg _⟩

/-- A number that is a key twice, with the negative of it and a truth value of the same bits in
    between; and two texts that have two digests. -/
theorem Expr.eval_hash_repeated :
    let pairs : List (Expr × Expr) :=
      [(.int 1, .str "a"), (.bool true, .str "b"), (.unary .negate (.int 1), .str "c"),
        (.int 1, .str "d")]
    let entries : List (HashKey × Value × Value) :=
      [(⟨.integer, 1⟩, .int 1, .str "d"), (⟨.boolean, 1⟩, .bool true, .str "b"),
        (⟨.integer, 0xffffffffffffffff⟩, .int (-1), .str "c")]
    ((Expr.hash pairs).eval (Value.apply 0) 0).run State.empty =
      (.value (.hash 0 entries), State.empty.newId.2) ∧
    (∃ keyed u, PairsEval (Value.apply 0) 0 pairs State.empty keyed u ∧
      Value.Gathers keyed entries) ∧
    (Value.int (-1)).hashKey? = some ⟨.integer, 0xffffffffffffffff⟩ ∧
    (Value.bool true).hashKey? = some ⟨.boolean, 1⟩ ∧
    (⟨.integer, 0xffffffffffffffff⟩ : HashKey) ≠ ⟨.boolean, 1⟩ ∧
    Value.textDigest "a" ≠ Value.textDigest "b" ∧
    (Value.str "a").hashKey? ≠ (Value.str "b").hashKey? := by
  intro pairs entries
  have hrun : ((Expr.hash pairs).eval (Value.apply 0) 0).run State.empty =
      (.value (.hash 0 entries), State.empty.newId.2) := rfl
  have hnumber : (Value.int (-1)).hashKey? = some ⟨.integer, 0xffffffffffffffff⟩ := rfl
  have htruth : (Value.bool true).hashKey? = some ⟨.boolean, 1⟩ := rfl
  have hdigests : Value.textDigest "a" ≠ Value.textDigest "b" := by decide +kernel
  obtain ⟨heval, hkeys, htexts⟩ := Expr.eval_hash
  obtain ⟨id, entries', keyed, u, heq, hkeyed, hgathers, -⟩ := heval hrun
  obtain ⟨-, rfl⟩ := Value.hash.inj heq
  refine ⟨hrun, ⟨keyed, u, hkeyed, hgathers⟩, hnumber, htruth, (hkeys hnumber htruth).1 nofun,
    hdigests, ?_⟩
  exact mt ((htexts "a" "b").2 fun _ => hdigests).1 (by decide)

end Monkey
