import DynamicSql.Proofs.Expr.Attempts

/-!
The depth at which the machine stops. Two machines that stop at different depths are run on one text side by
side. Main statement: on a text that passes the check of its parentheses the machine does what it would do with
any more depth, down to the column where it finds fault, and its result is the one that the rules derive.
-/
namespace DynamicSql.Expr

open Peg (Place Reading Reads Run)
open Grammar

/-- A grammar without the recursive rule. -/
def closed : Grammar → Bool
  | .again => false
  | .empty | .one _ | .word _ | .ended => true
  | .seq first second | .alt first second => closed first && closed second
  | .star body | .unless body | .token _ body | .node _ body => closed body

/-- Where the text that is left is as told, both do the same, also in the failures that they report. -/
def Same (P : Text → Prop) (run run' : Run Rule) : Prop :=
  ∀ m p furthest, P p.rest → run m p furthest = run' m p furthest

variable {run run' : Run Rule} {reference : Reading Rule} {first second body : Grammar} {P Q : Text → Prop}
  {limit d : Nat}

/-- Without the recursive rule it makes no difference what that rule does. -/
theorem run_of_closed {g : Grammar} (h : closed g = true) : Peg.run run g = Peg.run run' g := by
  funext m p furthest
  induction g generalizing m p furthest with
  | again => cases h
  | empty | one | word | ended => rfl
  | seq first second ihf ihs =>
    simp only [closed, Bool.and_eq_true] at h
    rw [Peg.run, Peg.run, ihf h.1]
    simp only [ihs h.2]
  | alt first second ihf ihs =>
    simp only [closed, Bool.and_eq_true] at h
    rw [Peg.run, Peg.run, ihf h.1]
    simp only [ihs h.2]
  | star body ih =>
    have hbody : Peg.run run body m = Peg.run run' body m := funext fun p => funext fun f => ih h m p f
    rw [Peg.run, Peg.run, hbody]
  | «unless» body ih | token rule body ih | node rule body ih => rw [Peg.run, Peg.run, ih h]

namespace Same

theorem of_closed {g : Grammar} (h : closed g = true) : Same P (Peg.run run g) (Peg.run run' g) :=
  fun _ _ _ _ => by rw [run_of_closed h]

theorem alt (h : Same P (Peg.run run first) (Peg.run run' first))
    (h' : Same P (Peg.run run second) (Peg.run run' second)) :
    Same P (Peg.run run (.alt first second)) (Peg.run run' (.alt first second)) := by
  intro m p furthest hp
  rw [Peg.run, Peg.run, h m p furthest hp]
  simp only [h' m p _ hp]

theorem node {rule : Rule} (h : Same P (Peg.run run body) (Peg.run run' body)) :
    Same P (Peg.run run (.node rule body)) (Peg.run run' (.node rule body)) := by
  intro m p furthest hp
  rw [Peg.run, Peg.run, h m p furthest hp]

section

variable (hrun : ∀ m p furthest, (run m p furthest).result = reference p)
include hrun

/-- The second parts are run where the first one leads, and there they do the same. -/
theorem seq (h : Same P (Peg.run run first) (Peg.run run' first))
    (hl : Leads P (Peg.read reference first) Q) (h' : Same Q (Peg.run run second) (Peg.run run' second)) :
    Same P (Peg.run run (.seq first second)) (Peg.run run' (.seq first second)) := by
  intro m p furthest hp
  have hresult := Peg.run_result hrun first m p furthest
  rw [Peg.run, Peg.run, ← h m p furthest hp]
  rcases hf : Peg.run run first m p furthest with ⟨reported, _ | ⟨q, ts⟩⟩
  · rfl
  · rw [hf] at hresult
    simp only [h' m q reported (hl p q ts hp hresult.symm)]

/-- A repetition does the same because its body does, and leads where it may begin anew. -/
theorem star (h : Same P (Peg.run run body) (Peg.run run' body)) (hl : Leads P (Peg.read reference body) P) :
    Same P (Peg.run run (.star body)) (Peg.run run' (.star body)) := by
  have hturns : ∀ m fuel p furthest ts, P p.rest → Peg.iterate (Peg.run run body m) fuel p furthest ts =
      Peg.iterate (Peg.run run' body m) fuel p furthest ts := by
    intro m fuel
    induction fuel with
    | nil =>
      intro p furthest ts hp
      rw [Peg.iterate, Peg.iterate, h m p furthest hp]
    | cons c fuel ih =>
      intro p furthest ts hp
      have hresult := Peg.run_result hrun body m p furthest
      rw [Peg.iterate, Peg.iterate, ← h m p furthest hp]
      rcases hb : Peg.run run body m p furthest with ⟨reported, _ | ⟨q, more⟩⟩
      · rfl
      · rw [hb] at hresult
        exact ih q reported _ (hl p q more hp hresult.symm)
  intro m p furthest hp
  rw [Peg.run, Peg.run]
  exact hturns m p.rest p furthest [] hp

variable (hd : d ≤ limit)
include hd

theorem next (h : Same P (Peg.run run first) (Peg.run run' first))
    (hl : Leads P (Peg.read reference first) (Within limit d))
    (h' : Same (Within limit d) (Peg.run run second) (Peg.run run' second)) :
    Same P (Peg.run run (Grammar.next first second)) (Peg.run run' (Grammar.next first second)) :=
  seq hrun h hl (seq hrun (of_closed rfl) (leads_of_weighs hd (weighs_quiet (by decide))) h')

theorem many (h : Same (Within limit d) (Peg.run run body) (Peg.run run' body))
    (hw : Reads Weighs (Peg.read reference body)) :
    Same (Within limit d) (Peg.run run (Grammar.many body)) (Peg.run run' (Grammar.many body)) := by
  have hspaces : Reads Weighs (Peg.read reference spaces) := weighs_quiet (by decide)
  have hturn : Same (Within limit d) (Peg.run run (.seq spaces body)) (Peg.run run' (.seq spaces body)) :=
    seq hrun (of_closed rfl) (leads_of_weighs hd hspaces) h
  have hturns := star hrun hturn (leads_of_weighs hd (weighs_seq hspaces hw))
  exact (seq hrun h (leads_of_weighs hd hw) hturns).alt (of_closed rfl)

/-- Operands with one kind of operator between them. -/
theorem chain {operand operator : Grammar} (hc : closed operator = true) (hq : quiet operator = true)
    (h : Same (Within limit d) (Peg.run run operand) (Peg.run run' operand))
    (hw : Reads Weighs (Peg.read reference operand)) :
    Same (Within limit d) (Peg.run run (Grammar.next operand (Grammar.many (Grammar.next operator operand))))
      (Peg.run run' (Grammar.next operand (Grammar.many (Grammar.next operator operand)))) := by
  have hturn : Same (Within limit d) (Peg.run run (Grammar.next operator operand))
      (Peg.run run' (Grammar.next operator operand)) :=
    next hrun hd (of_closed hc) (leads_of_weighs hd (weighs_quiet hq)) h
  exact next hrun hd h (leads_of_weighs hd hw) (many hrun hd hturn (weighs_next (weighs_quiet hq) hw))

/-- Operators of one kind before an operand. -/
theorem prefixed {operand operator : Grammar} (hc : closed (Grammar.many operator) = true)
    (hq : quiet operator = true) (h : Same (Within limit d) (Peg.run run operand) (Peg.run run' operand)) :
    Same (Within limit d) (Peg.run run (Grammar.next (Grammar.many operator) operand))
      (Peg.run run' (Grammar.next (Grammar.many operator) operand)) :=
  next hrun hd (of_closed hc) (leads_of_weighs hd (weighs_many (weighs_quiet hq))) h

end

end Same

/-! The rules that parentheses lead back to. -/

section

variable (hrun : ∀ m p furthest, (run m p furthest).result = reference p) (hd : d ≤ limit)
  (hagain : d < limit → Same (Within limit (d + 1)) run run')
include hrun hagain

/-- Inside parentheses both refer to the rule of the next level. -/
theorem same_parentheses : Same (Within limit d) (Peg.run run (next (char '(') (next .again (char ')'))))
    (Peg.run run' (next (char '(') (next .again (char ')')))) := by
  have hinside : Same (Inside limit d) (Peg.run run (next .again (char ')')))
      (Peg.run run' (next .again (char ')'))) :=
    .seq hrun (fun m p furthest hp => hagain hp.1 m p furthest hp.2) (leads_everywhere _) (.of_closed rfl)
  have hspaces : Leads (Inside limit d) (Peg.read reference spaces) (Inside limit d) := fun p q ts hp hr =>
    ⟨hp.1, leads_of_weighs hp.1 (weighs_quiet (by decide)) p q ts hp.2 hr⟩
  exact .seq hrun (.of_closed rfl) leads_parenthesis (.seq hrun (.of_closed rfl) hspaces hinside)

theorem same_primary : Same (Within limit d) (Peg.run run primary) (Peg.run run' primary) :=
  have hparentheses := same_parentheses hrun hagain
  (Same.of_closed rfl).alt ((Same.of_closed rfl).alt ((Same.of_closed rfl).alt ((Same.of_closed rfl).alt
    ((Same.of_closed rfl).alt (hparentheses.alt (.of_closed rfl))))))

include hd

theorem same_unary : Same (Within limit d) (Peg.run run unary) (Peg.run run' unary) :=
  .node (.prefixed hrun hd rfl (by decide) (same_primary hrun hagain))

variable (henclosed : Reads Enclosed reference)
include henclosed

theorem same_additive : Same (Within limit d) (Peg.run run additive) (Peg.run run' additive) :=
  .node (.chain hrun hd rfl (by decide) (same_unary hrun hd hagain) (weighs_unary henclosed))

theorem same_comparison : Same (Within limit d) (Peg.run run comparison) (Peg.run run' comparison) := by
  have hadditive := same_additive hrun hd hagain henclosed
  have hright : Same (Within limit d) (Peg.run run (next Grammar.compareOp additive))
      (Peg.run run' (next Grammar.compareOp additive)) :=
    .next hrun hd (.of_closed rfl) (leads_of_weighs hd (weighs_quiet (by decide))) hadditive
  exact .node (.next hrun hd hadditive (leads_of_weighs hd (weighs_additive henclosed))
    (hright.alt (.of_closed rfl)))

theorem same_notExpr : Same (Within limit d) (Peg.run run notExpr) (Peg.run run' notExpr) :=
  .node (.prefixed hrun hd rfl (by decide) (same_comparison hrun hd hagain henclosed))

theorem same_andExpr : Same (Within limit d) (Peg.run run andExpr) (Peg.run run' andExpr) :=
  .node (.chain hrun hd rfl (by decide) (same_notExpr hrun hd hagain henclosed) (weighs_notExpr henclosed))

theorem same_orExpr : Same (Within limit d) (Peg.run run orExpr) (Peg.run run' orExpr) :=
  .node (.chain hrun hd rfl (by decide) (same_andExpr hrun hd hagain henclosed) (weighs_andExpr henclosed))

end

/-- A level more runs the recursive rule with the level below inside it. -/
theorem level_succ (recursive : Grammar) (depth : Nat) :
    Peg.level recursive (depth + 1) = Peg.run (Peg.level recursive depth) recursive := by
  funext m p furthest
  rw [Peg.level]

/-- Depth beyond what the parentheses take is never used. -/
theorem same_level (level more : Nat) (h : level + d = limit) :
    Same (Within limit d) (Peg.level orExpr (level + 1)) (Peg.level orExpr (level + more + 1)) := by
  induction level generalizing d with
  | zero =>
    -- The innermost level: as many parentheses are open as the limit admits.
    have hagain : d < limit → Same (Within limit (d + 1)) (Peg.level orExpr 0) (Peg.level orExpr (0 + more)) := by
      omega
    rw [level_succ, level_succ]
    exact same_orExpr (Peg.level_result orExpr 0) (by omega) hagain (enclosed_level 0)
  | succ level ih =>
    have hagain : d < limit →
        Same (Within limit (d + 1)) (Peg.level orExpr (level + 1)) (Peg.level orExpr (level + 1 + more)) := by
      intro hlt
      rw [Nat.add_right_comm]
      exact ih (by omega)
    rw [level_succ orExpr (level + 1), level_succ orExpr (level + 1 + more)]
    exact same_orExpr (Peg.level_result orExpr (level + 1)) (by omega) hagain (enclosed_level _)

/-- From the outermost rule on, both do the same. -/
theorem same_expression (hrun : ∀ m p furthest, (run m p furthest).result = reference p)
    (h : Same (Within limit 0) run run') :
    Same (Within limit 0) (Peg.run run expression) (Peg.run run' expression) := by
  have hbefore : Leads (Within limit 0) (Peg.read reference spaces) (Within limit 0) :=
    leads_of_weighs (Nat.zero_le limit) (weighs_quiet (by decide))
  have hexpr : Same (Within limit 0) (Peg.run run .again) (Peg.run run' .again) := h
  have hparts : Same (Within limit 0) (Peg.run run (next .again (.token .ending .ended)))
      (Peg.run run' (next .again (.token .ending .ended))) :=
    .seq hrun hexpr (leads_everywhere _) (.of_closed rfl)
  exact .node (.seq hrun (.of_closed rfl) hbefore hparts)

/-- Levels beyond the limit are never come to, so they change neither the tree nor the failures. -/
theorem parse_of_deeper {s : Text} (h : Within limit 0 s) (more : Nat) :
    Peg.parse expression orExpr (limit + more + 1) s = Peg.parse expression orExpr (limit + 1) s := by
  have hsame := same_expression (Peg.level_result orExpr (limit + 1)) (same_level limit more rfl)
  rw [Peg.parse, Peg.parse]
  exact (hsame .outer ⟨0, s⟩ 0 h).symm

/-- What the rules derive from a text is what the machine reads that stops at the limit. -/
theorem derives_iff_parse {s : Text} (h : Within limit 0 s) (x : Option (Place × List Tree)) :
    Derives true (.rule .expression) ⟨0, s⟩ x ↔ x = (Peg.parse expression orExpr (limit + 1) s).result := by
  have hread := derives_expression h
  rw [← Peg.parse_result] at hread
  constructor
  · intro hx
    exact hx.deterministic hread
  · rintro rfl
    exact hread

/--
The pass over the characters bounds the rules on every text that it admits: no attempt stands inside more
parentheses than the limit, so the machine that stops there reads what the rules derive, and it does what it
would do without stopping. The depth of the machine counts the outermost expression, too.
-/
theorem attempted_of_nestingOk {s : Text} (h : nestingOk s = true) :
    (∀ a, Attempted s a → a.opened ≤ maxNesting) ∧
    (∀ x, Derives true (.rule .expression) ⟨0, s⟩ x ↔
      x = (Peg.parse expression orExpr (maxNesting + 1) s).result) ∧
    ∀ more, Peg.parse expression orExpr (maxNesting + more + 1) s =
      Peg.parse expression orExpr (maxNesting + 1) s :=
  ⟨fun _ ha => (ha.bounded h).opened, derives_iff_parse h, parse_of_deeper h⟩

/-- Two parentheses, and forty more behind a quote that nothing closes. -/
def unclosedQuote : Text := "((a[\x27\\\x27".toList ++ List.replicate 40 '('

theorem attempted_unclosedQuote : nestingOk unclosedQuote = true ∧
    (∀ a, Attempted unclosedQuote a → a.opened ≤ maxNesting) ∧
    (∀ x, Derives true (.rule .expression) ⟨0, unclosedQuote⟩ x ↔
      x = (Peg.parse expression orExpr (maxNesting + 1) unclosedQuote).result) ∧
    ∀ more, Peg.parse expression orExpr (maxNesting + more + 1) unclosedQuote =
      Peg.parse expression orExpr (maxNesting + 1) unclosedQuote :=
  ⟨by decide, attempted_of_nestingOk (by decide)⟩

end DynamicSql.Expr
