import DynamicSql.Proofs.Expr.Margins
import DynamicSql.Proofs.Template.ExpressionPlaceholders

/-!
The text that a descriptor records for an expression. Main statement: it is no mere label, but the expression once
more; read again, in the bindings that a query keeps, it comes to the value that was recorded with it.
-/
namespace DynamicSql.Placeholder

variable {content span : Text} {offset : Nat} {p : Placeholder} {x : Expression} {bindings : Bindings}
  {parameter : Parameter} {d : Descriptor}

/-- An expression of a placeholder was read from the text in its parentheses. -/
theorem exists_parse_of_target (hp : parse content offset span = .ok p) (ht : p.target = .expr x) :
    ∃ s, Expression.parse s = .ok x := by
  obtain ⟨-, htarget, -⟩ := parse_eq_ok_iff.mp hp
  rw [ht, readTarget_eq_expr_iff] at htarget
  obtain ⟨s, -, hx⟩ := htarget
  exact ⟨s, hx⟩

/-- What is recorded of an expression, and the value that it settles for. -/
theorem describe_expr (ht : p.target = .expr x) (hd : p.describe bindings parameter = .ok d) :
    d.expression = x.source ∧ ∃ v, x.evaluate (bindings.resolve? parameter) = .ok v ∧
      p.attributes.settle (some v) = some d.value := by
  simp only [describe, ht, Target.find] at hd
  cases hv : x.evaluate (bindings.resolve? parameter) with
  | error f => simp [hv, Except.map] at hd
  | ok v =>
    cases hs : p.attributes.settle (some v) with
    | none => simp [hv, hs, Except.map] at hd
    | some w =>
      simp only [hv, hs, Except.map, Except.ok.injEq] at hd
      subst hd
      exact ⟨rfl, v, rfl, hs⟩

/-- Every value stands for itself, but null for the default. -/
theorem settle_some {a : Attributes} {v w : Value} (h : a.settle (some v) = some w) :
    (v ≠ .null → w = v) ∧ (v = .null → w = a.default.getD .null) := by
  cases v with
  | null => exact ⟨fun hne => absurd rfl hne, fun _ => by simpa [Attributes.settle, eq_comm] using h⟩
  | _ =>
    refine ⟨fun _ => ?_, fun hnull => by cases hnull⟩
    simpa [Attributes.settle, eq_comm] using h

/--
The source of an expression is read as the same expression, from whatever text the expression was read first. So
what a descriptor records of an expression in a placeholder is read as the expression that stands in it; it has a
value in the bindings and the parameter that the descriptor was made in, and that is the value of the descriptor
unless a default takes the place of null.
-/
theorem parse_recorded :
    (∀ (s : Text) (x : Expression), Expression.parse s = .ok x → Expression.parse x.source = .ok x) ∧
    ∀ (content : Text) (offset : Nat) (span : Text) (p : Placeholder) (x : Expression) (bindings : Bindings)
      (parameter : Parameter) (d : Descriptor),
      parse content offset span = .ok p → p.target = .expr x → p.describe bindings parameter = .ok d →
      Expression.parse d.expression = .ok x ∧
        ∃ v, x.evaluate (bindings.resolve? parameter) = .ok v ∧ (v ≠ .null → d.value = v) ∧
          (v = .null → d.value = p.attributes.default.getD .null) := by
  refine ⟨fun s x hx => Expression.parse_source hx, fun content offset span p x bindings parameter d hp ht hd => ?_⟩
  obtain ⟨s, hx⟩ := exists_parse_of_target hp ht
  obtain ⟨hsource, v, hv, hs⟩ := describe_expr ht hd
  exact ⟨hsource ▸ Expression.parse_source hx, v, hv, settle_some hs⟩

/-! A sum with blanks of four kinds around it, in a placeholder with a default. -/

def paddedSum : Text := " \t price + fee\r\n ".toList

def sumExpression : Expression where
  source := "price + fee".toList
  expr := .sum (.path "price".toList) [(.add, .path "fee".toList)]

def sumPlaceholder : Placeholder := ⟨.expr sumExpression, { default := some (.int 0) }⟩

def sumBindings : Bindings := [("price".toList, .int 7), ("fee".toList, .int 2)]

def sumDescriptor : Descriptor where
  expression := "price + fee".toList
  type := .int
  value := .int 9

theorem paddedSum_recorded :
    Expression.parse paddedSum = .ok sumExpression ∧
    parse (contentOf paddedSum ["default=0".toList]) 0 [] = .ok sumPlaceholder ∧
    sumPlaceholder.describe sumBindings (.ofMap []) = .ok sumDescriptor ∧
    Expression.parse sumExpression.source = .ok sumExpression ∧
    Expression.parse sumDescriptor.expression = .ok sumExpression ∧
    sumExpression.evaluate (Bindings.resolve? sumBindings (.ofMap [])) = .ok sumDescriptor.value := by
  have hx : Expression.parse paddedSum = .ok sumExpression := by cbv
  have hdefault : Declares "default=0".toList (.default (.int 0)) :=
    @Declares.mk "default".toList "0".toList _ (by decide) rfl (by simp)
  have hp := (separable_of_escapesQuote hx (by decide)).parse_eq hx (.cons hdefault .nil) 0 []
  have hd : sumPlaceholder.describe sumBindings (.ofMap []) = .ok sumDescriptor := by cbv
  obtain ⟨hsource, hrecorded⟩ := parse_recorded
  obtain ⟨hread, v, hv, hvalue, -⟩ := hrecorded _ _ _ _ _ _ _ _ hp rfl hd
  have heval : sumExpression.evaluate (Bindings.resolve? sumBindings (.ofMap [])) = .ok (.int 9) := by cbv
  obtain rfl : v = .int 9 := Except.ok.inj (hv.symm.trans heval)
  exact ⟨hx, hp, hd, hsource _ _ hx, hread, by rw [hv, hvalue (by simp)]⟩

end DynamicSql.Placeholder
