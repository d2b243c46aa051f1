import DynamicSql.Proofs.Template.Noninterference

/-!
Texts that stand as they are. A text in which the quick check finds no expression becomes a node
that is written verbatim, without a scan. Main statement: that node renders as the one with splices
does exactly when the text has an expression or no opener in it is escaped; where all openers are
escaped, their backslashes stay in the text.
-/
namespace DynamicSql

namespace Token

def literal (opening : Text) : Token → Text
  | .text s => s
  | .escaped => opening
  | .expr _ _ => []

def literalAll (opening : Text) (tokens : List Token) : Text := tokens.flatMap (literal opening)

variable {d : Delimiters} {offset skip : Nat} {afterEscape : Bool} {pending s : Text} {tokens : List Token}

@[simp] theorem exprs_flush (pending : Text) (tokens : List Token) :
    exprs (flush pending tokens) = exprs tokens := by
  unfold flush
  split <;> simp

@[simp] theorem literalAll_cons (opening : Text) (t : Token) (tokens : List Token) :
    literalAll opening (t :: tokens) = literal opening t ++ literalAll opening tokens := rfl

@[simp] theorem literalAll_flush (opening pending : Text) (tokens : List Token) :
    literalAll opening (flush pending tokens) = pending.reverse ++ literalAll opening tokens := by
  unfold flush
  split
  · next h => simp [List.isEmpty_iff.mp h]
  · rfl

@[simp] theorem escaped_mem_flush : .escaped ∈ flush pending tokens ↔ .escaped ∈ tokens := by
  unfold flush
  split <;> simp

/-- Where the scan succeeds, the quick check tells whether there is an expression. -/
theorem hasExpressionsFrom_eq (hp : afterEscape = true → pending = [])
    (h : scanFrom d offset skip afterEscape pending s = .ok tokens) :
    hasExpressionsFrom d.opening skip afterEscape s = !(exprs tokens).isEmpty := by
  induction s generalizing offset skip afterEscape pending tokens with
  | nil =>
    rw [scanFrom, Except.ok.injEq] at h
    rw [hasExpressionsFrom, ← h, exprs_flush]
    rfl
  | cons c r ih =>
    cases skip with
    | succ skip =>
      rw [scanFrom] at h
      rw [hasExpressionsFrom]
      exact ih hp h
    | zero =>
      rw [scanFrom] at h
      rw [hasExpressionsFrom]
      by_cases ho : d.opening.isPrefixOf (c :: r) = true
      · cases afterEscape with
        | true =>
          simp only [ho, hp rfl, and_self, if_true, Except.map_eq_ok_iff] at h ⊢
          obtain ⟨rest, hr, rfl⟩ := h
          rw [exprs_escaped]
          exact ih (fun _ => rfl) hr
        | false =>
          simp only [ho, Bool.false_eq_true, false_and, if_false, if_true] at h ⊢
          cases hc : content d.closing 0 ((c :: r).drop d.opening.length) with
          | unclosed | overlapping => simp [hc] at h
          | closed content length =>
            simp only [hc, Except.map_eq_ok_iff] at h
            obtain ⟨rest, -, rfl⟩ := h
            simp
      · simp only [ho, Bool.false_eq_true, if_false] at h ⊢
        by_cases he : c = escape ∧ d.opening.isPrefixOf r = true
        · simp only [he, and_self, if_true, Except.map_eq_ok_iff] at h ⊢
          obtain ⟨rest, hr, rfl⟩ := h
          rw [exprs_flush, exprs_escaped]
          exact ih (fun _ => rfl) hr
        · simp only [he, if_false] at h ⊢
          exact ih (by simp) h

/-- Without expressions and escapes, the tokens are the text. -/
theorem literalAll_eq (h : scanFrom d offset skip afterEscape pending s = .ok tokens)
    (he : exprs tokens = []) (hescaped : .escaped ∉ tokens) :
    literalAll d.opening tokens = pending.reverse ++ s.drop skip := by
  induction s generalizing offset skip afterEscape pending tokens with
  | nil =>
    rw [scanFrom, Except.ok.injEq] at h
    rw [← h, literalAll_flush, List.drop_nil]
    rfl
  | cons c r ih =>
    cases skip with
    | succ skip =>
      rw [scanFrom] at h
      exact ih h he hescaped
    | zero =>
      rw [scanFrom] at h
      split at h
      · split at h
        · obtain ⟨rest, -, rfl⟩ := Except.map_eq_ok_iff.mp h
          simp at hescaped
        · split at h
          · obtain ⟨rest, -, rfl⟩ := Except.map_eq_ok_iff.mp h
            simp at he
          · cases h
          · cases h
      · split at h
        · obtain ⟨rest, -, rfl⟩ := Except.map_eq_ok_iff.mp h
          simp at hescaped
        · simpa using ih h he hescaped

/-- Without expressions, what the tokens stand for is no longer than the text. -/
theorem length_literalAll_le (hd : d.opening ≠ [])
    (h : scanFrom d offset skip afterEscape pending s = .ok tokens) (he : exprs tokens = []) :
    (literalAll d.opening tokens).length ≤ pending.length + (s.length - skip) := by
  have hpos : 0 < d.opening.length := List.length_pos_iff.mpr hd
  induction s generalizing offset skip afterEscape pending tokens with
  | nil =>
    rw [scanFrom, Except.ok.injEq] at h
    rw [← h, literalAll_flush]
    simp [literalAll]
  | cons c r ih =>
    cases skip with
    | succ skip =>
      rw [scanFrom] at h
      simpa using ih h he
    | zero =>
      rw [scanFrom] at h
      split at h
      · next hopen =>
        have hlen := (List.isPrefixOf_iff_prefix.mp hopen).length_le
        rw [List.length_cons] at hlen ⊢
        split at h
        · obtain ⟨rest, hr, rfl⟩ := Except.map_eq_ok_iff.mp h
          have hrest := ih hr (by simpa using he)
          simp only [literalAll_cons, literal, List.length_append, List.length_nil] at hrest ⊢
          omega
        · split at h
          · obtain ⟨rest, -, rfl⟩ := Except.map_eq_ok_iff.mp h
            simp at he
          · cases h
          · cases h
      · split at h
        · next hescape =>
          have hlen := (List.isPrefixOf_iff_prefix.mp hescape.2).length_le
          obtain ⟨rest, hr, rfl⟩ := Except.map_eq_ok_iff.mp h
          have hrest := ih hr (by simpa using he)
          simp only [literalAll_flush, literalAll_cons, literal, List.length_append, List.length_reverse,
            List.length_cons, List.length_nil] at hrest ⊢
          omega
        · have hrest := ih h he
          simp only [List.length_cons] at hrest ⊢
          omega

/-- An escaped opener loses its backslash. -/
theorem length_literalAll_lt (hd : d.opening ≠ []) (h : scanFrom d offset 0 false pending s = .ok tokens)
    (he : exprs tokens = []) (hescaped : .escaped ∈ tokens) :
    escape ∈ s ∧ (literalAll d.opening tokens).length < pending.length + s.length := by
  induction s generalizing offset pending tokens with
  | nil =>
    rw [scanFrom, Except.ok.injEq] at h
    simp [← h] at hescaped
  | cons c r ih =>
    rw [scanFrom] at h
    split at h
    · simp only [Bool.false_eq_true, false_and, if_false] at h
      split at h
      · obtain ⟨rest, -, rfl⟩ := Except.map_eq_ok_iff.mp h
        simp at he
      · cases h
      · cases h
    · split at h
      · next hescape =>
        have hlen := (List.isPrefixOf_iff_prefix.mp hescape.2).length_le
        obtain ⟨rest, hr, rfl⟩ := Except.map_eq_ok_iff.mp h
        have hrest := length_literalAll_le hd hr (by simpa using he)
        refine ⟨hescape.1 ▸ List.mem_cons_self, ?_⟩
        simp only [literalAll_flush, literalAll_cons, literal, List.length_append, List.length_reverse,
          List.length_cons, List.length_nil] at hrest ⊢
        omega
      · obtain ⟨hm, hlt⟩ := ih h he hescaped
        refine ⟨List.mem_cons_of_mem _ hm, ?_⟩
        simp only [List.length_cons] at hlt ⊢
        omega

end Token

open Token (exprs literalAll)

namespace InlineText

variable {config : Config} {s : Text} {t : InlineText} {tokens : List Token}

theorem render_pushLiteral (scope : Scope) (s : Text) (parts : List InlinePart) :
    render scope (pushLiteral s parts) = (render scope parts).map fun out => s ++ out := by
  unfold pushLiteral
  split
  · next t rest =>
    rw [render, render]
    cases render scope rest <;> simp [Except.map]
  · rw [render]

/-- Parts without splices are what the tokens stand for. -/
theorem render_partsOf {d : Delimiters} {source : Text} {parts : List InlinePart} (scope : Scope)
    (h : partsOf d source tokens = .ok parts) (he : exprs tokens = []) :
    render scope parts = .ok (literalAll d.opening tokens) := by
  induction tokens generalizing parts with
  | nil =>
    cases h
    rfl
  | cons token rest ih =>
    cases token with
    | text s =>
      rw [partsOf] at h
      obtain ⟨later, hl, rfl⟩ := Except.map_eq_ok_iff.mp h
      rw [render_pushLiteral, ih hl he]
      rfl
    | escaped =>
      rw [partsOf] at h
      obtain ⟨later, hl, rfl⟩ := Except.map_eq_ok_iff.mp h
      rw [render_pushLiteral, ih hl he]
      rfl
    | expr content offset => simp at he

theorem parse_eq_ok_iff : parse config s = .ok t ↔ ∃ tokens, Token.scan config.inlined s = .ok tokens ∧
    ∃ parts, partsOf config.inlined s tokens = .ok parts ∧ t = ⟨s, parts⟩ := by
  rw [parse]
  simp only [← Token.ofText_eq_ok_iff]
  cases Token.ofText config.inlined s with
  | error h => simp [bind, Except.bind]
  | ok tokens =>
    cases hp : partsOf config.inlined s tokens with
    | error f => simp [bind, Except.bind, hp]
    | ok parts => simp [bind, Except.bind, hp, pure, Except.pure, eq_comm]

end InlineText

namespace Token

variable {d : Delimiters} {s : Text} {tokens : List Token}

/-- Delimiters that are empty are refused before anything is scanned. -/
theorem scan_eq_ok_iff : scan d s = .ok tokens ↔
    d.opening ≠ [] ∧ d.closing ≠ [] ∧ scanFrom d 0 0 false [] s = .ok tokens := by
  unfold scan
  split
  · next h =>
    simp only [reduceCtorEq, false_iff, not_and]
    exact fun ho hc => absurd h (by simp [ho, hc])
  · next h =>
    rw [not_or] at h
    simp [h]

/-- The quick check finds an expression where the scan has one. -/
theorem hasExpressions_eq (h : scan d s = .ok tokens) : hasExpressions d s = !(exprs tokens).isEmpty := by
  obtain ⟨ho, -, hs⟩ := scan_eq_ok_iff.mp h
  simp only [hasExpressions, ho, if_false]
  exact hasExpressionsFrom_eq (fun _ => rfl) hs

end Token

namespace Context

theorem appendText_nil (s : Text) : appendText [] s = if Text.allBlank s then [] else s := by
  simp [appendText, needsSpace]

/-- What loses a character that is not blank is another text. -/
theorem appendText_nil_ne {s out : Text} (hs : Token.escape ∈ s) (hlt : out.length < s.length) :
    appendText [] s ≠ appendText [] out := by
  have hblank : Text.allBlank s = false := by
    simp only [Text.allBlank, List.all_eq_false, Bool.not_eq_true]
    exact ⟨Token.escape, hs, by decide⟩
  intro he
  have hlen := congrArg List.length he
  rw [appendText_nil, appendText_nil, hblank] at hlen
  simp only [Bool.false_eq_true, if_false] at hlen
  split at hlen
  · rw [List.length_nil] at hlen
    omega
  · omega

end Context

namespace Node

variable {c : Config} {s : Text} {t : InlineText} {p : Parameter}

/-- Two nodes that render alike resolve alike. -/
theorem resolve_congr {n m : Node} (h : n.render ⟨p, c⟩ = m.render ⟨p, c⟩) :
    n.renderText ⟨p, c⟩ = m.renderText ⟨p, c⟩ ∧ Template.resolve ⟨n, c⟩ p = Template.resolve ⟨m, c⟩ p := by
  have htext : n.renderText ⟨p, c⟩ = m.renderText ⟨p, c⟩ := by rw [renderText, renderText, h]
  refine ⟨htext, ?_⟩
  rw [Template.resolve_eq, Template.resolve_eq]
  simp only [htext]

/--
Every text that can be read as one with splices becomes a node. It resolves as the one with splices
does, in both stages and for every parameter, where the text has an expression or no escaped opener,
and there alone.
-/
theorem parseText_agrees_iff (h : InlineText.parse c s = .ok t) :
    ∃ n tokens, parseText c s = .ok n ∧ Token.scan c.inlined s = .ok tokens ∧
      ∀ p, (n.renderText ⟨p, c⟩ = (inlined t).renderText ⟨p, c⟩ ∧
          Template.resolve ⟨n, c⟩ p = Template.resolve ⟨inlined t, c⟩ p) ↔
        exprs tokens ≠ [] ∨ .escaped ∉ tokens := by
  obtain ⟨tokens, ht, parts, hparts, rfl⟩ := InlineText.parse_eq_ok_iff.mp h
  obtain ⟨hopening, -, hscan⟩ := Token.scan_eq_ok_iff.mp ht
  by_cases he : exprs tokens = []
  · have hquick : Token.hasExpressions c.inlined s = false := by simp [Token.hasExpressions_eq ht, he]
    have hrender : ∀ p, (inlined ⟨s, parts⟩).render ⟨p, c⟩ =
        Rendering.update (Context.append (literalAll c.inlined.opening tokens)) := by
      intro p
      funext ctx
      rw [render_inlined_apply, InlineText.render_partsOf _ hparts he]
      rfl
    -- The node is the raw text. It is longer than what the splices write as soon as one opener is escaped.
    refine ⟨.text s, tokens, by simp [parseText, hquick], ht, fun p => ⟨fun hall => .inr fun hm => ?_, ?_⟩⟩
    · obtain ⟨hin, hlt⟩ := Token.length_literalAll_lt hopening hscan he hm
      have htext := hall.1
      rw [renderText, renderText, hrender] at htext
      simp only [render, Rendering.update_apply, Except.ok.injEq, Prod.mk.injEq] at htext
      exact Context.appendText_nil_ne hin (by simpa using hlt) htext.1
    · rintro (hne | hno)
      · exact absurd he hne
      · refine resolve_congr ?_
        have hsame : literalAll c.inlined.opening tokens = s := Token.literalAll_eq hscan he hno
        rw [hrender, hsame, render]
  · have hquick : Token.hasExpressions c.inlined s = true := by
      simp [Token.hasExpressions_eq ht, he]
    exact ⟨inlined ⟨s, parts⟩, tokens, by simp [parseText, hquick, h, Except.map], ht,
      fun p => ⟨fun _ => .inl he, fun _ => ⟨rfl, rfl⟩⟩⟩

/-! A price in a text with a splice, and one in a text without. -/

def price : Text := "cost \\$\x7b5\x7d".toList

def pricedSort : Text := price ++ " by $\x7bname\x7d".toList

/-- Where there is a splice, the escaped opener is the same in both nodes. -/
theorem pricedSort_agrees : ∃ t, InlineText.parse {} pricedSort = .ok t ∧ ∃ n, parseText {} pricedSort = .ok n ∧
    ∀ p, n.renderText ⟨p, {}⟩ = (inlined t).renderText ⟨p, {}⟩ ∧
      Template.resolve ⟨n, {}⟩ p = Template.resolve ⟨inlined t, {}⟩ p := by
  have htokens : Token.scan Config.default.inlined pricedSort = .ok [.text "cost ".toList, .escaped,
      .text "5\x7d by ".toList, .expr "name".toList 14] := by decide
  have hexists : (InlineText.parse {} pricedSort).map (fun _ => ()) = .ok () := by decide +kernel
  obtain ⟨t, ht, -⟩ := Except.map_eq_ok_iff.mp hexists
  obtain ⟨n, tokens, hn, hscan, hall⟩ := parseText_agrees_iff ht
  obtain rfl := Except.ok.inj (htokens.symm.trans hscan)
  exact ⟨t, ht, n, hn, fun p => (hall p).mpr (.inl (by simp))⟩

/-- Where there is none, the backslash stays in the text of the one node and not in that of the other. -/
theorem price_differs : ∃ t, InlineText.parse {} price = .ok t ∧ ∃ n, parseText {} price = .ok n ∧
    n.renderText ⟨.ofFields fun _ => none, {}⟩ = .ok (price, []) ∧
    (inlined t).renderText ⟨.ofFields fun _ => none, {}⟩ = .ok ("cost $\x7b5\x7d".toList, []) := by
  have hexists : InlineText.parse {} price = .ok ⟨price, [.literal "cost $\x7b5\x7d".toList]⟩ := rfl
  exact ⟨_, hexists, .text price, rfl, rfl, rfl⟩

end Node

end DynamicSql
