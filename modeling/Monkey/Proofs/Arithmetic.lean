import Monkey.Eval

/-!
# Arithmetic

An expression is *arithmetic* if it is built from integer literals with minus signs and the four
operators `+`, `-`, `*` and `/` (`Expr.Arithmetic`). It is evaluated in words of 64 bits, which
wrap around at every step.

What comes of it is the word of what unbounded numbers come to (`Expr.amount?`), where only the
operands of divisions are made words first. Sums, products and minus signs do not care when their
operands are made words (`residue_add`, `residue_mul`, `residue_neg`); quotients do, and whether
a divisor is zero is a matter of its word. The main statement is `Expr.eval_arithmetic`.
-/

namespace Monkey

open Eval

/-! ## Words of unbounded numbers -/

/-- The number of a signed word of 64 bits that is the same up to multiples of `2 ^ 64`. -/
def residue (x : Int) : Int :=
  x.bmod Int64.size

/-- A residue is its own. -/
theorem residue_residue (x : Int) : residue (residue x) = residue x :=
  Int.bmod_bmod

theorem residue_neg (x : Int) : residue (-residue x) = residue (-x) :=
  Int.bmod_neg_bmod

/-- The residue of a sum is that of the sum of the residues. -/
theorem residue_add (x y : Int) : residue (residue x + residue y) = residue (x + y) :=
  (Int.add_bmod x y _).symm

theorem residue_sub (x y : Int) : residue (residue x - residue y) = residue (x - y) :=
  (Int.sub_bmod x y _).symm

theorem residue_mul (x y : Int) : residue (residue x * residue y) = residue (x * y) :=
  (Int.mul_bmod x y _).symm

/-- A number in 64 bits is the residue of what was written. -/
theorem toInt_ofNat (n : Nat) : (Int64.ofNat n).toInt = residue n :=
  BitVec.toInt_ofNat n

/-- A word is zero if its number is. -/
theorem eq_zero_iff_residue {n : Int64} {x : Int} (h : n.toInt = residue x) :
    n = 0 ↔ residue x = 0 := by
  rw [← h, ← Int64.toInt_inj, Int64.toInt_zero]

/-! ## Arithmetic expressions -/

/-- The operators of arithmetic. -/
def BinaryOp.arithmetic : List BinaryOp :=
  [.add, .sub, .mul, .div]

/-- The expression is built from integer literals with minus signs and the operators of
    arithmetic. -/
inductive Expr.Arithmetic : Expr → Prop
  | int (n : Nat) : Arithmetic (.int n)
  | negate {e : Expr} : Arithmetic e → Arithmetic (.unary .negate e)
  | binary {op : BinaryOp} {l r : Expr} : op ∈ BinaryOp.arithmetic → Arithmetic l → Arithmetic r →
      Arithmetic (.binary op l r)

/-- What an operator makes of unbounded numbers. Only a division makes words of them first, and
    of the quotient, which is rounded toward zero; there is none if the word of the divisor is
    zero. -/
def BinaryOp.amount? : BinaryOp → Int → Int → Option Int
  | add, x, y => some (x + y)
  | sub, x, y => some (x - y)
  | mul, x, y => some (x * y)
  | div, x, y => if residue y = 0 then none else some (residue ((residue x).tdiv (residue y)))
  | _, _, _ => none

/-- What an arithmetic expression comes to with unbounded numbers, unless something in it is
    divided by zero. -/
def Expr.amount? : Expr → Option Int
  | .int n => some n
  | .unary .negate e => e.amount?.map (- ·)
  | .binary op l r => do op.amount? (← l.amount?) (← r.amount?)
  | _ => none

/-- The divisors of all the divisions in an arithmetic expression. -/
def Expr.divisors : Expr → List Expr
  | .unary _ e => e.divisors
  | .binary op l r => l.divisors ++ (r.divisors ++ if op = .div then [r] else [])
  | _ => []

/-- The divisor is a number whose word is zero. -/
def Expr.Vanishes (e : Expr) : Prop :=
  ∃ y, e.amount? = some y ∧ residue y = 0

/-! ## Evaluation -/

/-- Where there is a number this is its word, and where there is none a division by zero. -/
inductive Value.Reduces : Option Int → Except EvalError Value → Prop
  | some {x : Int} {n : Int64} : n.toInt = residue x → Reduces (some x) (.ok (.int n))
  | none : Reduces none (.error .divisionByZero)

/-- An operator on words makes the word of what it makes of unbounded numbers. -/
theorem BinaryOp.reduces {op : BinaryOp} (hop : op ∈ arithmetic) {m n : Int64} {x y : Int}
    (hm : m.toInt = residue x) (hn : n.toInt = residue y) :
    Value.Reduces (op.amount? x y) (Value.binary op (.int m) (.int n)) := by
  simp only [arithmetic, List.mem_cons, List.not_mem_nil, or_false] at hop
  rcases hop with rfl | rfl | rfl | rfl
  · refine .some ?_
    rw [Int64.toInt_add, hm, hn]
    exact residue_add x y
  · refine .some ?_
    rw [Int64.toInt_sub, hm, hn]
    exact residue_sub x y
  · refine .some ?_
    rw [Int64.toInt_mul, hm, hn]
    exact residue_mul x y
  · have hzero := eq_zero_iff_residue hn
    simp only [amount?, Value.binary, Value.binaryInt]
    by_cases h : n = 0
    · rw [if_pos (hzero.1 h), if_pos h]
      exact .none
    · rw [if_neg (mt hzero.2 h), if_neg h]
      refine .some ?_
      rw [Int64.toInt_div, hm, hn]
      exact (residue_residue _).symm

section

variable (apply : Value → List Value → Eval Value) (scope : ScopeId) (s : State)

/-- An arithmetic expression is evaluated to the word of what it comes to, and changes
    nothing. -/
theorem Expr.Arithmetic.run_eval {e : Expr} (he : e.Arithmetic) :
    ∃ r, Value.Reduces e.amount? r ∧ (e.eval apply scope).run s = (Eval.ofExcept r).run s := by
  induction he with
  | int n => exact ⟨_, .some (toInt_ofNat n), rfl⟩
  | @negate e _ ih =>
    obtain ⟨v, hv, hrun⟩ := ih
    rw [eval_unary, amount?, run_bind, hrun]
    generalize e.amount? = x? at hv ⊢
    cases hv with
    | none => exact ⟨_, .none, rfl⟩
    | @some x n hn =>
      refine ⟨_, .some ?_, rfl⟩
      rw [Int64.toInt_neg, hn]
      exact residue_neg x
  | @binary op l r hop _ _ ihl ihr =>
    obtain ⟨v, hv, hl⟩ := ihl
    obtain ⟨w, hw, hr⟩ := ihr
    rw [eval_binary, amount?, run_bind, hl]
    generalize l.amount? = x? at hv ⊢
    generalize r.amount? = y? at hw ⊢
    -- The left operand is evaluated first, so the right one only counts if the left one does.
    cases hv with
    | none => exact ⟨_, .none, rfl⟩
    | some hm =>
      simp only [Eval.ofExcept, run_pure, run_bind, hr]
      cases hw with
      | none => exact ⟨_, .none, rfl⟩
      | some hn => exact ⟨_, BinaryOp.reduces hop hm hn, rfl⟩

end

/-- There is no number exactly if there is a divisor of zero. -/
theorem Expr.Arithmetic.amount?_eq_none_iff {e : Expr} (he : e.Arithmetic) :
    e.amount? = none ↔ ∃ d ∈ e.divisors, d.Vanishes := by
  induction he with
  | int n => simp [amount?, divisors]
  | negate _ ih => rw [amount?, Option.map_eq_none_iff, ih, divisors]
  | @binary op l r hop _ _ ihl ihr =>
    have hdivisors : (∃ d ∈ (Expr.binary op l r).divisors, d.Vanishes) ↔
        l.amount? = none ∨ r.amount? = none ∨ op = .div ∧ r.Vanishes := by
      rw [ihl, ihr, divisors]
      by_cases h : op = .div <;> simp [h, or_and_right, exists_or]
    rw [hdivisors, amount?]
    cases hx : l.amount? with
    | none => simp
    | some x =>
      cases hy : r.amount? with
      | none => simp
      | some y =>
        simp only [BinaryOp.arithmetic, List.mem_cons, List.not_mem_nil, or_false] at hop
        rcases hop with rfl | rfl | rfl | rfl <;> simp [BinaryOp.amount?, Vanishes, hy]

/-- An arithmetic expression is evaluated to the word of what it comes to with unbounded numbers,
    where only the operands of divisions are words. It fails exactly if the word of the divisor of
    one of its divisions is zero, and then as a division by zero. Either way the evaluation
    changes nothing. -/
theorem Expr.eval_arithmetic {e : Expr} (he : e.Arithmetic)
    (apply : Value → List Value → Eval Value) (scope : ScopeId) (s : State) :
    (∀ x, e.amount? = some x →
      ∃ n : Int64, (e.eval apply scope).run s = (.value (.int n), s) ∧ n.toInt = residue x) ∧
    (e.amount? = none ↔ ∃ d ∈ e.divisors, d.Vanishes) ∧
    (∀ err, ((e.eval apply scope).run s).1 = .failed err ↔
      err = .divisionByZero ∧ ∃ d ∈ e.divisors, d.Vanishes) ∧
    ((e.eval apply scope).run s).2 = s := by
  obtain ⟨r, hr, hrun⟩ := he.run_eval apply scope s
  rw [hrun, ← he.amount?_eq_none_iff]
  generalize e.amount? = x? at hr ⊢
  cases hr with
  | none => exact ⟨nofun, .rfl, fun err => by simp [Eval.ofExcept, eq_comm], rfl⟩
  | some hn =>
    refine ⟨?_, .rfl, fun err => by simp [Eval.ofExcept], rfl⟩
    rintro _ ⟨⟩
    exact ⟨_, rfl, hn⟩

/-- The least word divided by minus one, which is the least word again, and a division by a
    product that is not zero, although its word is. -/
theorem Expr.eval_arithmetic_wrapped :
    let least : Expr := .binary .sub (.unary .negate (.int 9223372036854775807)) (.int 1)
    let quotient : Expr := .binary .div least (.unary .negate (.int 1))
    let product : Expr := .binary .mul (.int 4294967296) (.int 4294967296)
    let failing : Expr := .binary .div (.int 1) product
    (quotient.Arithmetic ∧ quotient.amount? = some (-9223372036854775808) ∧
      ∃ n : Int64, (quotient.eval (Value.apply 0) 0).run State.empty =
        (.value (.int n), State.empty) ∧ n.toInt = -9223372036854775808) ∧
    failing.Arithmetic ∧ product ∈ failing.divisors ∧
      product.amount? = some 18446744073709551616 ∧ product.Vanishes ∧
      ((failing.eval (Value.apply 0) 0).run State.empty).1 = .failed .divisionByZero := by
  intro least quotient product failing
  have hleast : least.Arithmetic := .binary (by decide) (.negate (.int _)) (.int 1)
  have hquotient : quotient.Arithmetic := .binary (by decide) hleast (.negate (.int 1))
  have hfailing : failing.Arithmetic :=
    .binary (by decide) (.int 1) (.binary (by decide) (.int _) (.int _))
  have hamount : quotient.amount? = some (-9223372036854775808) := by decide
  have hmem : product ∈ failing.divisors := by decide
  have hzero : product.Vanishes := ⟨18446744073709551616, rfl, by decide⟩
  refine ⟨⟨hquotient, hamount, ?_⟩, hfailing, hmem, rfl, hzero, ?_⟩
  · exact (Expr.eval_arithmetic hquotient (Value.apply 0) 0 State.empty).1 _ hamount
  · exact ((Expr.eval_arithmetic hfailing (Value.apply 0) 0 State.empty).2.2.1 _).2
      ⟨rfl, product, hmem, hzero⟩

end Monkey
