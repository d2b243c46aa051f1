import DynamicSql.Expr.Expression
import Mathlib.Algebra.Ring.Int.Defs

/-!
Sums and changes of sign over integers. Beside the evaluation, which keeps integers of 64 bits, stands the
exact integer that such an expression is, with every integer on the way to it. Main statement: the value is the
exact integer where all of these fit, and the evaluation fails for an overflow, and for nothing else, where one
does not.
-/
namespace DynamicSql

def Integer.Fits (i : Int) : Prop := least ≤ i ∧ i ≤ greatest

instance : DecidablePred Integer.Fits := fun _ => inferInstanceAs (Decidable (_ ∧ _))

open Integer (Fits)

theorem Integer.fits_toInt (n : Int64) : Fits n.toInt := ⟨least_le_toInt n, toInt_le_greatest n⟩

def AddOp.apply : AddOp → Int → Int → Int
  | .add, i, j => i + j
  | .sub, i, j => i - j

namespace Expr

/-- Integers and paths that are bound to integers, changed in sign and added up in any way. -/
inductive IsArithmetic (scope : Scope) : Expr → Prop where
  | literal (i : Int64) : IsArithmetic scope (.literal (.int i))
  | path {p : Text} {i : Int64} (h : scope p = some (.int i)) : IsArithmetic scope (.path p)
  | neg (count : Nat) {e : Expr} (h : IsArithmetic scope e) : IsArithmetic scope (.neg count e)
  | sum {first : Expr} {rest : List (AddOp × Expr)} (h : IsArithmetic scope first)
      (hs : ∀ addend ∈ rest, IsArithmetic scope addend.2) : IsArithmetic scope (.sum first rest)

mutual

/-- The exact integer that an arithmetic expression is. -/
def integer (scope : Scope) : Expr → Int
  | literal (.int i) => i.toInt
  | path p =>
    match scope p with
    | some (.int i) => i.toInt
    | _ => 0
  | neg count e => (-1) ^ count * integer scope e
  | sum first rest => integer scope first + integerOfAddends scope rest
  | _ => 0

def integerOfAddends (scope : Scope) : List (AddOp × Expr) → Int
  | [] => 0
  | (op, e) :: rest => op.apply 0 (integer scope e) + integerOfAddends scope rest

end

/-- What so many changes of sign give, one after the other. -/
def turns : Nat → Int → List Int
  | 0, _ => []
  | count + 1, i => -i :: turns count (-i)

mutual

/-- Every integer on the way, in the order of evaluation: each change of sign and each total of a sum. -/
def results (scope : Scope) : Expr → List Int
  | neg count e => results scope e ++ turns count (integer scope e)
  | sum first rest => results scope first ++ totals scope (integer scope first) rest
  | _ => []

/-- The totals of a sum from left to right, each behind what its addend took. -/
def totals (scope : Scope) (total : Int) : List (AddOp × Expr) → List Int
  | [] => []
  | (op, e) :: rest =>
    results scope e ++ op.apply total (integer scope e) ::
      totals scope (op.apply total (integer scope e)) rest

end

/-- Exact where all integers on the way fit, and an overflow where one does not. -/
structure Exact (out : Except EvalError Value) (results : List Int) (i : Int) : Prop where
  value : (∀ r ∈ results, Fits r) → ∃ n : Int64, n.toInt = i ∧ out = .ok (.int n)
  overflow : (∃ r ∈ results, ¬ Fits r) → out = .error .overflow

variable {scope : Scope} {e : Expr} {out : Except EvalError Value} {f : Value → Except EvalError Value}
  {rs ts : List Int} {i j : Int}

namespace Exact

theorem int (n : Int64) : Exact (.ok (.int n)) [] n.toInt where
  value _ := ⟨n, rfl, rfl⟩
  overflow h := by simp at h

/-- One step that keeps what fits. -/
theorem exact (i : Int) : Exact (Value.exact i) [i] i where
  value h := by
    have hi : Fits i := h i (List.mem_singleton_self i)
    cases hn : Integer.ofInt? i with
    | some n => exact ⟨n, Integer.ofInt?_eq_some_iff.mp hn, by rw [Value.exact, hn]⟩
    | none =>
      obtain ⟨low, high⟩ := hi
      have hout := Integer.ofInt?_eq_none_iff.mp hn
      omega
  overflow h := by
    have hi : ¬ Fits i := by simpa using h
    cases hn : Integer.ofInt? i with
    | some n => exact absurd (Integer.ofInt?_eq_some_iff.mp hn ▸ Integer.fits_toInt n) hi
    | none => rw [Value.exact, hn]

/-- What goes on from the exact integer goes on from the value. -/
theorem bind (h : Exact out rs i) (hf : ∀ n : Int64, n.toInt = i → Exact (f (.int n)) ts j) :
    Exact (out.bind f) (rs ++ ts) j := by
  by_cases hall : ∀ r ∈ rs, Fits r
  · obtain ⟨n, hn, rfl⟩ := h.value hall
    have hnext := hf n hn
    constructor
    · intro hfit
      exact hnext.value fun r hr => hfit r (List.mem_append_right rs hr)
    · rintro ⟨r, hr, hout⟩
      refine hnext.overflow ⟨r, ?_, hout⟩
      exact (List.mem_append.mp hr).resolve_left fun hm => hout (hall r hm)
  · -- the evaluation ends here, whatever comes behind
    have hout : out = .error .overflow := h.overflow (by simpa using hall)
    subst hout
    exact ⟨fun hfit => absurd (fun r hr => hfit r (List.mem_append_left ts hr)) hall, fun _ => rfl⟩

end Exact

/-! One step after the other. -/

theorem eval_neg (count : Nat) : eval scope (.neg count e) = (eval scope e).bind (Value.negateTimes count) := by
  rw [eval]
  cases eval scope e <;> rfl

theorem eval_sum (first : Expr) (rest : List (AddOp × Expr)) :
    eval scope (.sum first rest) = (eval scope first).bind fun v => evalSum scope v rest := by
  rw [eval]
  cases eval scope first <;> rfl

theorem evalSum_cons (total : Value) (op : AddOp) (rest : List (AddOp × Expr)) :
    evalSum scope total ((op, e) :: rest) =
      (eval scope e).bind fun v => (total.combine op v).bind fun w => evalSum scope w rest := by
  rw [evalSum]
  cases eval scope e with
  | error error => rfl
  | ok v =>
    simp only [Except.bind]
    cases total.combine op v <;> rfl

theorem negateTimes_succ (count : Nat) (v : Value) :
    v.negateTimes (count + 1) = v.negate.bind (Value.negateTimes count) := by
  rw [Value.negateTimes]
  cases v.negate <;> rfl

/-- Each change of sign fits, or the first one that does not overflows. -/
theorem exact_negateTimes (count : Nat) (n : Int64) :
    Exact ((Value.int n).negateTimes count) (turns count n.toInt) ((-1) ^ count * n.toInt) := by
  induction count generalizing n with
  | zero =>
    rw [pow_zero, one_mul]
    exact .int n
  | succ count ih =>
    have hstep : Exact (Value.negate (.int n)) [-n.toInt] (-n.toInt) := .exact (-n.toInt)
    have hpow : (-1) ^ (count + 1) * n.toInt = (-1) ^ count * -n.toInt := by
      rw [pow_succ, mul_assoc, neg_one_mul]
    rw [negateTimes_succ, hpow]
    exact hstep.bind fun m hm => hm ▸ ih m

/-- One addition overflows just where its exact result does not fit. -/
theorem exact_combine (op : AddOp) (n m : Int64) :
    Exact ((Value.int n).combine op (.int m)) [op.apply n.toInt m.toInt] (op.apply n.toInt m.toInt) := by
  cases op with
  | add => exact .exact (n.toInt + m.toInt)
  | sub => exact .exact (n.toInt - m.toInt)

/-- A subtraction adds the opposite. -/
theorem apply_eq_add (op : AddOp) (i j : Int) : op.apply i j = i + op.apply 0 j := by
  cases op <;> simp only [AddOp.apply] <;> omega

/-- A sum goes on from its total as the exact sum does, if each addend is evaluated exactly. -/
theorem exact_evalSum {rest : List (AddOp × Expr)}
    (h : ∀ addend ∈ rest, Exact (eval scope addend.2) (results scope addend.2) (integer scope addend.2))
    (n : Int64) :
    Exact (evalSum scope (.int n) rest) (totals scope n.toInt rest) (n.toInt + integerOfAddends scope rest) := by
  induction rest generalizing n with
  | nil =>
    rw [integerOfAddends, Int.add_zero]
    exact .int n
  | cons addend rest ih =>
    obtain ⟨op, e⟩ := addend
    obtain ⟨he, hrest⟩ := List.forall_mem_cons.mp h
    rw [evalSum_cons, totals, integerOfAddends, ← Int.add_assoc, ← apply_eq_add]
    refine he.bind fun m hm => ?_
    rw [← hm]
    exact (exact_combine op n m).bind fun k hk => hk ▸ ih hrest k

/-- An arithmetic expression is evaluated exactly, or not at all. -/
theorem IsArithmetic.exact (h : e.IsArithmetic scope) : Exact (eval scope e) (results scope e) (integer scope e) := by
  induction h with
  | literal i => exact .int i
  | @path p i hp =>
    have hvalue : eval scope (.path p) = .ok (.int i) := by rw [eval, hp]; rfl
    have hinteger : integer scope (.path p) = i.toInt := by rw [integer, hp]
    rw [hvalue, hinteger]
    exact .int i
  | neg count _ ih =>
    rw [eval_neg, results, integer]
    exact ih.bind fun n hn => hn ▸ exact_negateTimes count n
  | sum _ _ ih ihs =>
    rw [eval_sum, results, integer]
    exact ih.bind fun n hn => hn ▸ exact_evalSum ihs n

end Expr

open DynamicSql.Expr (IsArithmetic)

/--
An arithmetic expression has the exact value where every integer on the way to it fits 64 bits, in the order of
evaluation. Where one does not, the evaluation fails for an overflow, also where a later addend would undo it.
-/
theorem Expression.evaluate_arithmetic {x : Expression} {scope : Scope} (h : x.expr.IsArithmetic scope) :
    ((∀ r ∈ x.expr.results scope, Fits r) →
      ∃ n : Int64, n.toInt = x.expr.integer scope ∧ x.evaluate scope = .ok (.int n)) ∧
    ((∃ r ∈ x.expr.results scope, ¬ Fits r) →
      x.evaluate scope = .error (Fault.invalidExpression (String.ofList x.source) "integer overflow")) := by
  constructor
  · intro hfit
    obtain ⟨n, hn, hvalue⟩ := h.exact.value hfit
    exact ⟨n, hn, by rw [evaluate, hvalue]⟩
  · intro hout
    rw [evaluate, h.exact.overflow hout]
    rfl

/-- A sum that may leave the integers at its first total and come back at the second. -/
def overdraft : Expression where
  source := "- -(balance - 1 + fee)".toList
  expr := .neg 2 (.sum (.path "balance".toList) [(.sub, .literal (.int 1)), (.add, .path "fee".toList)])

def overdraftScope (balance fee : Int64) : Scope := fun path =>
  if path = "balance".toList then some (.int balance)
  else if path = "fee".toList then some (.int fee)
  else none

theorem isArithmetic_overdraft (balance fee : Int64) : overdraft.expr.IsArithmetic (overdraftScope balance fee) := by
  refine .neg 2 (.sum (.path (i := balance) rfl) fun addend hm => ?_)
  simp only [List.mem_cons, List.not_mem_nil, or_false] at hm
  rcases hm with rfl | rfl
  · exact .literal 1
  · exact .path (i := fee) rfl

/-- Below the least integer a fee does not help; at the least integer the first change of sign goes wrong. -/
theorem overdraft_exact :
    (∃ n : Int64, n.toInt = -9223372036854775807 ∧
      overdraft.evaluate (overdraftScope (-9223372036854775807) 1) = .ok (.int n)) ∧
    overdraft.evaluate (overdraftScope (-9223372036854775808) 5) =
      .error (Fault.invalidExpression "- -(balance - 1 + fee)" "integer overflow") ∧
    overdraft.evaluate (overdraftScope (-9223372036854775807) 0) =
      .error (Fault.invalidExpression "- -(balance - 1 + fee)" "integer overflow") := by
  refine ⟨?_, (Expression.evaluate_arithmetic (isArithmetic_overdraft _ _)).2 (by decide),
    (Expression.evaluate_arithmetic (isArithmetic_overdraft _ _)).2 (by decide)⟩
  obtain ⟨n, hn, hvalue⟩ :=
    (Expression.evaluate_arithmetic (isArithmetic_overdraft (-9223372036854775807) 1)).1 (by decide)
  exact ⟨n, hn.trans (by decide), hvalue⟩

end DynamicSql
