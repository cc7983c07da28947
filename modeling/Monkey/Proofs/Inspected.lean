import Monkey.Proofs.Entries
import Monkey.Proofs.Rendered

/-!
# Inspected values

The text of a value is a source. If the value is *plain*, made of numbers, truth values, arrays
and hashes (`Value.Plain`), this source is a program that prints nothing and gives a value of the
same structure (`Value.Plain.parse_inspect`). Arrays and hashes are created anew, so what is kept
is all but the numbers that they have got (`Value.bare`). The least number has no such text, as
its digits make a number out of range.

That the text is scanned as tokens, that these spell an expression and that this is evaluated to
the value again is shown in one (`Value.Inspected`), in the shape of the value: one lemma for each
form of values. A negative number is an operator applied to a number, so what is spelled is an
expression on the level of unary operators.
-/

namespace Monkey

open Token Grammar Eval

/-! ## Structure -/

namespace Value

mutual

/-- The value without the numbers of arrays, hashes and functions. -/
def bare : Value → Value
  | array _ vs => array 0 (bareList vs)
  | hash _ entries => hash 0 (bareEntries entries)
  | function _ c => function 0 c
  | ret v => ret v.bare
  | null => null
  | int n => int n
  | bool b => bool b
  | str text => str text
  | builtin b => builtin b
  | error message => error message
termination_by structural v => v

/-- The values without the numbers of arrays, hashes and functions. -/
def bareList : List Value → List Value
  | [] => []
  | v :: vs => v.bare :: bareList vs
termination_by structural vs => vs

/-- The entries without the numbers of arrays, hashes and functions. -/
def bareEntries : List (HashKey × Value × Value) → List (HashKey × Value × Value)
  | [] => []
  | (key, k, v) :: entries => (key, k.bare, v.bare) :: bareEntries entries
termination_by structural entries => entries

end

/-- Hash keys do not depend on what has been created. -/
theorem hashKey?_bare (v : Value) : v.bare.hashKey? = v.hashKey? := by
  cases v <;> rfl

/-- The entries keep their keys. -/
theorem keys_bareEntries (entries : List (HashKey × Value × Value)) :
    Assoc.keys (bareEntries entries) = Assoc.keys entries := by
  induction entries with
  | nil => rfl
  | cons e entries ih => exact congrArg (e.1 :: ·) ih

/-- The value is made of numbers other than the least, truth values, arrays, and hashes that have
    one entry for each hash key, which is that of the key. Of such values only numbers and truth
    values have a hash key. -/
inductive Plain : Value → Prop
  | int {n : Int64} : n ≠ Int64.minValue → Plain (int n)
  | bool (b : Bool) : Plain (bool b)
  | array {id : ObjectId} {vs : List Value} : (∀ v ∈ vs, Plain v) → Plain (array id vs)
  | hash {id : ObjectId} {entries : List (HashKey × Value × Value)} :
      (∀ e ∈ entries, Plain e.2.1) → (∀ e ∈ entries, Plain e.2.2) →
      (∀ e ∈ entries, e.2.1.hashKey? = some e.1) → (Assoc.keys entries).Nodup →
      Plain (hash id entries)

end Value

/-! ## Evaluations without effect -/

namespace Eval

variable {α β : Type} {Q : α → Prop} {R : β → Prop}

/-- Whatever the state is, the evaluation prints nothing, leaves all scopes as they are and ends
    in a value with the property. -/
def Silent (Q : α → Prop) (m : Eval α) : Prop :=
  ∀ s, ∃ a t, m.run s = (.value a, t) ∧ t.scopes = s.scopes ∧ t.printed = s.printed ∧ Q a

namespace Silent

theorem pure {a : α} (h : Q a) : Silent Q (pure a) :=
  fun s => ⟨a, s, rfl, rfl, rfl, h⟩

/-- Nothing is seen of two evaluations of which nothing is seen one by one. -/
theorem bind {m : Eval α} {k : α → Eval β} (hm : Silent Q m) (hk : ∀ a, Q a → Silent R (k a)) :
    Silent R (m >>= k) := by
  intro s
  obtain ⟨a, t, hrun, hscopes, hprinted, ha⟩ := hm s
  obtain ⟨b, u, hrun', hscopes', hprinted', hb⟩ := hk a ha t
  refine ⟨b, u, ?_, hscopes'.trans hscopes, hprinted'.trans hprinted, hb⟩
  rw [run_bind, hrun]
  exact hrun'

/-- Creating an array is not seen. -/
theorem newArray {vs : List Value} {Q : Value → Prop} (h : ∀ id, Q (.array id vs)) :
    Silent Q (newArray vs) :=
  fun s => ⟨_, _, rfl, rfl, rfl, h s.nextId⟩

theorem newHash {entries : List (HashKey × Value × Value)} {Q : Value → Prop}
    (h : ∀ id, Q (.hash id entries)) : Silent Q (newHash entries) :=
  fun s => ⟨_, _, rfl, rfl, rfl, h s.nextId⟩

end Silent

end Eval

/-! ## Texts of values -/

namespace Value

/-- The text of the value is scanned as the tokens, which spell the expression, which is evaluated
    to a value of the same structure. -/
structure Inspected (v : Value) (e : Expr) (ts : List Token) : Prop where
  scans : Scans v.inspect.toList ts
  spells : SpellsExpr .unary ts e
  evaluates (apply : Value → List Value → Eval Value) (scope : ScopeId) :
    Silent (fun w => w.bare = v.bare) (e.eval apply scope)

/-- The same of values with commas between them, one expression for each. -/
structure InspectedList (vs : List Value) (es : List Expr) (ts : List Token) : Prop where
  scans : Scans (", ".intercalate (inspectList vs)).toList ts
  spells : SpellsExprs ts es
  evaluates (apply : Value → List Value → Eval Value) (scope : ScopeId) :
    Silent (fun ws => bareList ws = bareList vs) (Expr.evalList apply es scope)
  length_eq : es.length = vs.length

/-- The same of the entries of a hash, whose pairs are put in one after the other. -/
structure InspectedEntries (entries : List (HashKey × Value × Value)) (ps : List (Expr × Expr))
    (ts : List Token) : Prop where
  scans : Scans (", ".intercalate (inspectEntries entries)).toList ts
  spells : SpellsPairs ts ps
  evaluates (apply : Value → List Value → Eval Value) (scope : ScopeId)
    (before : List (HashKey × Value × Value)) :
    Silent (fun es => ∃ keyed, es = Assoc.putAll before keyed ∧
      bareEntries keyed = bareEntries entries) (Expr.evalPairs apply before ps scope)
  length_eq : ps.length = entries.length

/-- Digits that a token is written as may stand for the token. -/
theorem scans_int {m : Nat} (hm : m ≤ Token.maxInt) : Scans m.repr.toList [.int m] :=
  .write_end (t := .int m) hm (by simp)

/-- A number is in digits, after a minus sign if it is negative. -/
theorem exists_inspected_int {n : Int64} (hn : n ≠ Int64.minValue) :
    ∃ e ts, (int n).Inspected e ts := by
  have hlt := n.toInt_lt
  have hge := n.le_toInt
  have hne : n.toInt ≠ -2 ^ 63 := fun h => hn (Int64.toInt_inj.1 h)
  cases hm : n.toInt with
  | ofNat m =>
    have hbound : m ≤ Token.maxInt := by
      simp only [hm, Int.ofNat_eq_natCast] at hlt
      simp only [Token.maxInt]
      omega
    have hvalue : Int64.ofNat m = n := by
      rw [← Int64.ofInt_eq_ofNat, ← Int.ofNat_eq_natCast, ← hm, Int64.ofInt_toInt]
    refine ⟨.int m, [.int m], ?_, (SpellsExpr.atom rfl).of_rank_le (by decide), fun _ _ => ?_⟩
    · rw [inspect, hm]
      exact scans_int hbound
    · exact .pure (congrArg (bare ∘ int) hvalue)
  | negSucc m =>
    have hbound : m + 1 ≤ Token.maxInt := by
      rw [hm] at hge hne
      simp only [Token.maxInt]
      omega
    have hvalue : -Int64.ofNat (m + 1) = n := by
      rw [← Int64.ofInt_eq_ofNat, ← Int64.ofInt_neg]
      exact (congrArg Int64.ofInt hm).symm.trans n.ofInt_toInt
    refine ⟨.unary .negate (.int (m + 1)), [.minus, .int (m + 1)], ?_, ?_, fun _ _ => ?_⟩
    · have hsign := (scans_int hbound).sign (c := '-') rfl (by decide)
      rw [inspect, hm]
      simpa [Int.repr] using hsign
    · exact .unary (by decide) ((SpellsExpr.atom rfl).of_rank_le (by decide))
    · rw [Expr.eval_unary]
      refine Silent.bind (Q := (· = Value.int (.ofNat (m + 1)))) (.pure rfl) ?_
      rintro _ rfl
      exact .pure (congrArg (bare ∘ int) hvalue)

/-- A truth value is its keyword. -/
theorem exists_inspected_bool (b : Bool) : ∃ e ts, (bool b).Inspected e ts := by
  cases b with
  | true =>
    refine ⟨.bool true, [.kwTrue], ?_, ?_, fun _ _ => .pure rfl⟩
    · exact .write_end (t := .kwTrue) trivial (by decide)
    · exact (SpellsExpr.atom rfl).of_rank_le (by decide)
  | false =>
    refine ⟨.bool false, [.kwFalse], ?_, ?_, fun _ _ => .pure rfl⟩
    · exact .write_end (t := .kwFalse) trivial (by decide)
    · exact (SpellsExpr.atom rfl).of_rank_le (by decide)

theorem InspectedList.nil : InspectedList [] [] [] where
  scans := .nil
  spells := .nil
  evaluates _ _ := .pure rfl
  length_eq := rfl

/-- One more value comes before the others, with a comma between if there are any. -/
theorem Inspected.list_cons {v : Value} {vs : List Value} {e : Expr} {es : List Expr}
    {us ts : List Token} (hv : v.Inspected e us) (hvs : InspectedList vs es ts) :
    ∃ ts, InspectedList (v :: vs) (e :: es) ts := by
  have hevaluates (apply : Value → List Value → Eval Value) (scope : ScopeId) :
      Silent (fun ws => bareList ws = bareList (v :: vs))
        (Expr.evalList apply (e :: es) scope) := by
    refine (hv.evaluates apply scope).bind fun w hw => ?_
    refine (hvs.evaluates apply scope).bind fun ws hws => .pure ?_
    rw [bareList, bareList, hw, hws]
  have hlength : (e :: es).length = (v :: vs).length := congrArg (· + 1) hvs.length_eq
  -- A comma only stands before another value.
  cases vs with
  | nil =>
    obtain rfl := List.eq_nil_of_length_eq_zero hvs.length_eq
    exact ⟨us, hv.scans, .last hv.spells.whole, hevaluates, hlength⟩
  | cons w ws =>
    obtain ⟨f, es, rfl⟩ := List.exists_cons_of_length_eq_add_one hvs.length_eq
    exact ⟨_, hv.scans.comma hvs.scans, .cons hv.spells.whole hvs.spells, hevaluates, hlength⟩

theorem InspectedEntries.nil : InspectedEntries [] [] [] where
  scans := .nil
  spells := .nil
  evaluates _ _ _ := .pure ⟨[], rfl, rfl⟩
  length_eq := rfl

theorem Inspected.entries_cons {key : HashKey} {k v : Value}
    {entries : List (HashKey × Value × Value)} {d e : Expr} {ps : List (Expr × Expr)}
    {us vs ts : List Token} (hk : k.Inspected d us) (hkey : k.hashKey? = some key)
    (hv : v.Inspected e vs) (hentries : InspectedEntries entries ps ts) :
    ∃ ts, InspectedEntries ((key, k, v) :: entries) ((d, e) :: ps) ts := by
  have hevaluates (apply : Value → List Value → Eval Value) (scope : ScopeId)
      (before : List (HashKey × Value × Value)) :
      Silent (fun es => ∃ keyed, es = Assoc.putAll before keyed ∧
        bareEntries keyed = bareEntries ((key, k, v) :: entries))
        (Expr.evalPairs apply before ((d, e) :: ps) scope) := by
    refine (hk.evaluates apply scope).bind fun k' hk' => ?_
    -- The key that comes back has the hash key of the entry.
    have hkey' : k'.hashKey? = some key := by
      rw [← hashKey?_bare, hk', hashKey?_bare, hkey]
    rw [hkey']
    refine (hv.evaluates apply scope).bind fun v' hv' s => ?_
    obtain ⟨es, t, hrun, hscopes, hprinted, keyed, rfl, hkeyed⟩ :=
      hentries.evaluates apply scope (Assoc.put key (k', v') before) s
    refine ⟨_, t, hrun, hscopes, hprinted, (key, k', v') :: keyed, rfl, ?_⟩
    rw [bareEntries, bareEntries, hk', hv', hkeyed]
  have hlength : ((d, e) :: ps).length = ((key, k, v) :: entries).length :=
    congrArg (· + 1) hentries.length_eq
  have hpair := hk.scans.colon hv.scans
  cases entries with
  | nil =>
    obtain rfl := List.eq_nil_of_length_eq_zero hentries.length_eq
    exact ⟨_, hpair, .last hk.spells.whole hv.spells.whole, hevaluates, hlength⟩
  | cons e' es =>
    have hspells := SpellsPairs.cons hk.spells.whole hv.spells.whole hentries.spells
    exact ⟨_, hpair.comma hentries.scans, hspells, hevaluates, hlength⟩

/-- The texts of values are those of expressions, one by one. -/
theorem exists_inspectedList {vs : List Value} (h : ∀ v ∈ vs, ∃ e ts, v.Inspected e ts) :
    ∃ es ts, InspectedList vs es ts := by
  induction vs with
  | nil => exact ⟨[], [], .nil⟩
  | cons v vs ih =>
    obtain ⟨⟨e, us, hv⟩, hvs⟩ := List.forall_mem_cons.1 h
    obtain ⟨es, ts, hvs⟩ := ih hvs
    exact ⟨e :: es, hv.list_cons hvs⟩

theorem exists_inspectedEntries {entries : List (HashKey × Value × Value)}
    (hkey : ∀ e ∈ entries, e.2.1.hashKey? = some e.1)
    (hk : ∀ e ∈ entries, ∃ d us, e.2.1.Inspected d us)
    (hv : ∀ e ∈ entries, ∃ d us, e.2.2.Inspected d us) :
    ∃ ps ts, InspectedEntries entries ps ts := by
  induction entries with
  | nil => exact ⟨[], [], .nil⟩
  | cons entry entries ih =>
    obtain ⟨hkey, hkeys⟩ := List.forall_mem_cons.1 hkey
    obtain ⟨⟨d, us, hk⟩, hks⟩ := List.forall_mem_cons.1 hk
    obtain ⟨⟨e, vs, hv⟩, hvs⟩ := List.forall_mem_cons.1 hv
    obtain ⟨ps, ts, hentries⟩ := ih hkeys hks hvs
    exact ⟨(d, e) :: ps, hk.entries_cons hkey hv hentries⟩

/-- An array is its elements between brackets. -/
theorem InspectedList.array {vs : List Value} {es : List Expr} {ts : List Token}
    (h : InspectedList vs es ts) (id : ObjectId) :
    (Value.array id vs).Inspected (.array es) (brackets ts) where
  scans := by simpa [inspect] using h.scans.brackets
  spells := (SpellsExpr.array h.spells).of_rank_le (by decide)
  evaluates apply scope :=
    (h.evaluates apply scope).bind fun _ hws => .newArray fun _ => congrArg (Value.array 0) hws

/-- There is one entry for each hash key already, so putting the pairs in gives as many. -/
theorem InspectedEntries.hash {entries : List (HashKey × Value × Value)}
    {ps : List (Expr × Expr)} {ts : List Token} (h : InspectedEntries entries ps ts)
    (hnodup : (Assoc.keys entries).Nodup) (id : ObjectId) :
    (Value.hash id entries).Inspected (.hash ps) (braces ts) where
  scans := by simpa [inspect] using h.scans.braces
  spells := (SpellsExpr.hash h.spells).of_rank_le (by decide)
  evaluates apply scope := by
    refine (h.evaluates apply scope []).bind ?_
    rintro _ ⟨keyed, rfl, hkeyed⟩
    have hkeys : Assoc.keys keyed = Assoc.keys entries := by
      rw [← keys_bareEntries, hkeyed, keys_bareEntries]
    rw [Assoc.putAll_of_nodup (hkeys ▸ hnodup)]
    exact .newHash fun _ => congrArg (Value.hash 0) hkeyed

/-- Every plain value has such a text, by induction on how it is made. -/
theorem Plain.exists_inspected {v : Value} (h : v.Plain) : ∃ e ts, v.Inspected e ts := by
  induction h with
  | int hn => exact exists_inspected_int hn
  | bool b => exact exists_inspected_bool b
  | array _ ih =>
    obtain ⟨es, ts, h⟩ := exists_inspectedList ih
    exact ⟨_, _, h.array _⟩
  | hash _ _ hkey hnodup ihk ihv =>
    obtain ⟨ps, ts, h⟩ := exists_inspectedEntries hkey ihk ihv
    exact ⟨_, _, h.hash hnodup _⟩

/-- The text of a plain value is parsed without errors. Whatever the state and the scope are, the
    program is evaluated without printing and without binding a name, to a value of the same
    structure: only the numbers of arrays and hashes may be others. -/
theorem Plain.parse_inspect {v : Value} (h : v.Plain) :
    ∃ p, Program.parse v.inspect = .ok p ∧
      ∀ (depth : Nat) (scope : ScopeId) (s : State), ∃ w t,
        (p.eval depth scope).run s = (.value w, t) ∧ t.scopes = s.scopes ∧
        t.printed = s.printed ∧ w.bare = v.bare := by
  obtain ⟨e, ts, he⟩ := h.exists_inspected
  refine ⟨[.expr e], ?_, fun depth scope s => ?_⟩
  · have hsplits := he.scans (halts_nil _) .empty
    have hspells := SpellsStmts.cons (.expr he.spells.whole) (by simp) .nil
    simp only [List.append_nil] at hsplits hspells
    exact Program.parse_of_splits hsplits hspells
  · obtain ⟨w, t, hrun, h⟩ := he.evaluates (Value.apply depth) scope s
    refine ⟨w, t, ?_, h⟩
    have hblock : (Block.eval (Value.apply depth) [.expr e] scope).run s = (.value w, t) :=
      run_bind_eq_value_iff.2 ⟨w, t, hrun, rfl⟩
    rw [Program.eval_eq, run_catchReturn, hblock]

theorem Plain.parse_inspect_nested :
    let v : Value := .array 3 [.int (-7), .hash 2 [(⟨.boolean, 0⟩, .bool false, .array 1 []),
      (⟨.integer, 2⟩, .int 2, .bool true)]]
    v.Plain ∧ v.inspect = "[-7, \x7bfalse: [], 2: true\x7d]" ∧
    ∃ p, Program.parse "[-7, \x7bfalse: [], 2: true\x7d]" = .ok p ∧ ∃ w t,
      (p.eval 0 0).run (State.empty.newScope none).2 = (.value w, t) ∧ t.printed = "" ∧
      w.bare = v.bare := by
  intro v
  have hv : v.Plain := by
    refine .array (List.forall_mem_cons.2 ⟨.int (by decide), List.forall_mem_singleton.2 ?_⟩)
    refine .hash ?_ ?_ ?_ (by decide)
    · exact List.forall_mem_cons.2 ⟨.bool false, List.forall_mem_singleton.2 (.int (by decide))⟩
    · refine List.forall_mem_cons.2 ⟨.array ?_, List.forall_mem_singleton.2 (.bool true)⟩
      exact List.forall_mem_nil _
    · exact List.forall_mem_cons.2 ⟨rfl, List.forall_mem_singleton.2 rfl⟩
  have htext : v.inspect = "[-7, \x7bfalse: [], 2: true\x7d]" := by decide +kernel
  obtain ⟨p, hparse, heval⟩ := Plain.parse_inspect hv
  obtain ⟨w, t, hrun, -, hprinted, hbare⟩ := heval 0 0 (State.empty.newScope none).2
  exact ⟨hv, htext, p, htext ▸ hparse, w, t, hrun, hprinted, hbare⟩

end Value

end Monkey
