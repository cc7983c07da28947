/-!
# Association lists

Lists of keys with what they stand for, at most one entry a key, in the order in
which the keys were first put in. Putting in a key again keeps its place.

What a list stands for is `Assoc.get?`; its keys, in order, are `Assoc.keys`.
-/

namespace Monkey

/-- A list of entries, each a key with what it stands for. -/
abbrev Assoc (κ α : Type) := List (κ × α)

namespace Assoc

variable {κ α : Type} [DecidableEq κ]

/-- What the key `k` stands for. -/
def get? (k : κ) : Assoc κ α → Option α
  | [] => none
  | (l, a) :: entries => if l = k then some a else get? k entries

/-- Makes the key `k` stand for `a`: in the place of the entry for `k` if there is
    one, and at the end otherwise. -/
def put (k : κ) (a : α) : Assoc κ α → Assoc κ α
  | [] => [(k, a)]
  | (l, b) :: entries => if l = k then (k, a) :: entries else (l, b) :: put k a entries

omit [DecidableEq κ] in
/-- The keys, in order. -/
def keys (entries : Assoc κ α) : List κ :=
  entries.map Prod.fst

/-- What has been put under a key is found under it. -/
theorem get?_put_self (k : κ) (a : α) (entries : Assoc κ α) :
    get? k (put k a entries) = some a := by
  induction entries with
  | nil => simp [put, get?]
  | cons entry entries ih =>
    by_cases h : entry.1 = k <;> simp [put, get?, h, ih]

/-- Under the other keys the same is found as before. -/
theorem get?_put_of_ne {k l : κ} (h : l ≠ k) (a : α) (entries : Assoc κ α) :
    get? l (put k a entries) = get? l entries := by
  induction entries with
  | nil => simp [put, get?, h.symm]
  | cons entry entries ih =>
    by_cases he : entry.1 = k
    · simp [put, get?, he, h.symm]
    · simp [put, get?, he, ih]

/-- Something is found under the keys, and under no others. -/
theorem get?_isSome_iff (k : κ) (entries : Assoc κ α) :
    (get? k entries).isSome ↔ k ∈ keys entries := by
  induction entries with
  | nil => simp [get?, keys]
  | cons entry entries ih =>
    by_cases h : entry.1 = k
    · simp [get?, keys, h]
    · simp only [get?, h, if_false, ih]
      simp [keys, Ne.symm h]

theorem mem_of_get? {k : κ} {a : α} {entries : Assoc κ α}
    (h : get? k entries = some a) : (k, a) ∈ entries := by
  induction entries with
  | nil => cases h
  | cons entry entries ih =>
    obtain ⟨l, b⟩ := entry
    rw [get?] at h
    split at h
    · next hl =>
      obtain rfl := Option.some.inj h
      exact hl ▸ List.mem_cons_self
    · exact List.mem_cons_of_mem _ (ih h)

/-- Putting adds no entry but the one that is put. -/
theorem mem_put {k : κ} {a : α} {entries : Assoc κ α}
    {entry : κ × α} (h : entry ∈ put k a entries) : entry = (k, a) ∨ entry ∈ entries := by
  induction entries with
  | nil => exact .inl (List.mem_singleton.1 h)
  | cons head entries ih =>
    rw [put] at h
    split at h
    · rcases List.mem_cons.1 h with rfl | h
      · exact .inl rfl
      · exact .inr (List.mem_cons_of_mem _ h)
    · rcases List.mem_cons.1 h with rfl | h
      · exact .inr List.mem_cons_self
      · exact (ih h).imp id (List.mem_cons_of_mem _)

/-- A key keeps its place, or comes last if it is new. -/
theorem keys_put (k : κ) (a : α) (entries : Assoc κ α) :
    keys (put k a entries) = if k ∈ keys entries then keys entries else keys entries ++ [k] := by
  induction entries with
  | nil => simp [put, keys]
  | cons entry entries ih =>
    simp only [keys] at ih
    by_cases h : entry.1 = k
    · simp [put, keys, h]
    · simp only [put, h, if_false, keys, List.map_cons, ih, List.mem_cons, Ne.symm h, false_or]
      split <;> simp [*]

/-- What the keys stand for may be changed before or after an entry is looked up. -/
theorem get?_map {β : Type} (f : α → β) (k : κ) (entries : Assoc κ α) :
    get? k (entries.map fun e => (e.1, f e.2)) = (get? k entries).map f := by
  induction entries with
  | nil => rfl
  | cons entry entries ih =>
    by_cases h : entry.1 = k <;> simp [get?, h, ih]

/-- What the keys stand for may be changed before or after an entry is put in. -/
theorem put_map {β : Type} (f : α → β) (k : κ) (a : α) (entries : Assoc κ α) :
    put k (f a) (entries.map fun e => (e.1, f e.2)) =
      (put k a entries).map fun e => (e.1, f e.2) := by
  induction entries with
  | nil => rfl
  | cons entry entries ih =>
    by_cases h : entry.1 = k <;> simp [put, h, ih]

end Assoc

end Monkey
