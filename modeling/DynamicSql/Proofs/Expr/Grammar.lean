import DynamicSql.Proofs.Expr.Readings

/-!
The rules of the grammar of expressions, up to the whole. Main statement: whether a text is an
expression, and which tree it has, does not depend on the names in its slots, and every path in the
tree begins with a slot.
-/
namespace DynamicSql.Expr

open Peg (Place Reading)
open Shape (Fits Lexed Open Slotted Worded StartsName chars)
open Grammar

variable {reference : Reading Rule} {shape rest : Shape} {w r : Text} {k : Nat}

/-! Operators end where a word may begin. -/

/-- Signs of which no character can stand in a name are found whatever the names are. -/
theorem uniform_marks {ws : List String}
    (hws : ∀ v ∈ ws, v.toList ≠ [] ∧ v.toList.any isNameChar = false) :
    Uniform Open Lexed (Peg.read reference (Peg.words ws)) := by
  refine uniform_choice (fun _ h => h) (fun _ h => h) fun g hg => ?_
  obtain ⟨v, hv, rfl⟩ := List.mem_map.mp hg
  exact uniform_word (hws v hv).1 (hws v hv).2

theorem uniform_orOp : Uniform Open Lexed (Peg.read reference orOp) :=
  .token .orOp ((uniform_word (by decide) (by decide)).alt (uniform_wholeWord (by decide)))

theorem uniform_andOp : Uniform Open Lexed (Peg.read reference andOp) :=
  .token .andOp ((uniform_word (by decide) (by decide)).alt (uniform_wholeWord (by decide)))

theorem uniform_notOp : Uniform Open Lexed (Peg.read reference notOp) := by
  have hchar : Uniform Lexed Lexed (Peg.read reference (char '=')) :=
    (uniform_char (by decide)).strengthen fun _ h => h.isOpen
  exact .token .notOp (((uniform_char (by decide)).seq hchar.unless).alt (uniform_wholeWord (by decide)))

theorem uniform_compareOp : Uniform Open Lexed (Peg.read reference Grammar.compareOp) :=
  .token .compareOp ((uniform_marks (by decide)).alt (uniform_wholeWord (by decide)))

theorem uniform_addOp : Uniform Open Lexed (Peg.read reference Grammar.addOp) :=
  .token .addOp (uniform_marks (by decide))

theorem uniform_negOp : Uniform Open Lexed (Peg.read reference negOp) :=
  .token .negOp (uniform_char (by decide))

theorem uniform_ended : Uniform Open Open (Peg.read reference .ended) := by
  intro before shape hs
  cases shape with
  | nil =>
    refine .inr ⟨[], [], [], rfl, hs, trivial, trivial, fun σ _ => ?_⟩
    simp [Peg.read, place, ShapeTree.fillAll]
  | cons a rest =>
    refine .inl fun σ hσ => ?_
    cases a with
    | char c => simp [Peg.read, place]
    | slot i => simp [Peg.read, place, hσ.head.identifier.ne_nil]

theorem ready_open (h : Ready shape) : Open shape := h.1.isOpen

/-- The first character of a ready shape is no blank, whatever its names are. -/
theorem head_not_space (h : Ready shape) {σ : Nat → Text} (hσ : Fits σ shape) :
    ∀ c ∈ (shape.fill σ).head?, isSpace c = false := by
  intro c hc
  rcases open_cases (ready_open h) with ⟨d, rest, rfl, -, -⟩ | hname
  · simp only [Shape.fill_char, List.head?_cons, Option.mem_def, Option.some.injEq] at hc
    exact hc ▸ h.2 d rest rfl
  · exact isSpace_of_isNameChar (hname σ hσ c hc)

/-- The words that are read as literals before a path is tried. -/
theorem reserved_cases (hw : w ∈ reserved) :
    wholly ["and", "or", "not", "neq", "eq", "lte", "lt", "gte", "gt"] w = true ∨ wholly ["null"] w = true ∨
      wholly ["true", "false"] w = true := by
  revert w
  decide

/-- Where a reserved word is not found, the word that stands there is none. -/
theorem not_wholly_of_fails {ws : List String} {rule : Rule} (hws : ∀ v ∈ ws, v.toList ∈ reserved)
    (hw : ∀ c ∈ w, isNameChar c = true) (hs : ¬ StartsName rest)
    (h : ∃ before, Fails (Peg.read reference (.token rule (wholeWord ws))) before (chars w ++ rest)) :
    wholly ws w = false := by
  obtain ⟨before, hf⟩ := h
  obtain ⟨σ, hσ⟩ := Shape.exists_fits (chars w ++ rest)
  have hnone := hf σ hσ
  rw [place, Shape.fill_append, Shape.fill_chars, Peg.read_token, Option.map_eq_none_iff,
    read_wholeWord hws hw (Shape.endsWord_fill hs)] at hnone
  by_contra hin
  simp [hin] at hnone

def segments : Grammar := .seq spaces (many pathSegment)

section

variable (hpass : Peg.Passing reference)
include hpass

theorem uniform_float : Uniform Open Open (Peg.read reference float) := by
  have hdigits : Uniform Open Open (Peg.read reference digits) := uniform_digits hpass
  refine .token .float (hdigits.seq (Uniform.seq (uniform_char (by decide)) ?_))
  exact hdigits.strengthen fun _ h => h.isOpen

theorem uniform_pathSegment : Uniform Open Open (Peg.read reference pathSegment) := by
  have hindex : Uniform Ready Open (Peg.read reference index) :=
    (Uniform.token .index (uniform_digits hpass)).strengthen fun _ => ready_open
  have hident : Uniform Ready Open (Peg.read reference ident) :=
    (uniform_ident hpass).imp (fun _ => ready_open) fun _ h => h.isOpen
  have hstring : Uniform Ready Open (Peg.read reference string) :=
    (uniform_string hpass).imp (fun _ => ready_open) fun _ h => h.isOpen
  have hclose : Uniform Open Open (Peg.read reference (char ']')) :=
    (uniform_char (by decide)).weaken fun _ h => h.isOpen
  have hdot : Uniform Open Open (Peg.read reference (next (char '.') (.alt ident index))) :=
    next_ready hpass (uniform_char (by decide)) (hident.alt hindex)
  have hbracket : Uniform Open Open
      (Peg.read reference (next (char '[') (next (.alt index string) (char ']')))) :=
    next_ready hpass (uniform_char (by decide)) (next_open hpass (hindex.alt hstring) hclose)
  exact hdot.alt hbracket

/-- Where no blank stands, skipping blanks stays where it is. -/
theorem read_spaces_none {p : Place} (h : ∀ c ∈ p.rest.head?, isSpace c = false) :
    Peg.read reference spaces p = some (p, []) := by
  rw [spaces, Peg.read_star (Peg.read_passing hpass _ rfl), read_one_eq_none h]

theorem uniform_segments : Uniform Lexed Open (Peg.read reference segments) :=
  ((spaces_open hpass).seq (many_open hpass (uniform_pathSegment hpass) rfl)).strengthen fun _ h => h.isOpen

/-- How a path begins is told by the word that it begins with. -/
theorem read_path (hw : ∀ c ∈ w, isNameChar c = true) (hr : EndsWord r)
    (hs : ∀ c ∈ (w ++ r).head?, isSpace c = false) : Peg.read reference Grammar.path ⟨k, w ++ r⟩ =
      if wholly ["and", "or", "not", "neq", "eq", "lte", "lt", "gte", "gt"] w then none
      else if IsIdentifier w then
        (Peg.read reference segments ⟨k + w.length, r⟩).map fun next =>
          (next.1, [.node .path k (.leaf .ident k w :: next.2)])
      else none := by
  have hkeyword : Peg.read reference keyword ⟨k, w ++ r⟩ =
      (Peg.read reference (wholeWord ["and", "or", "not", "neq", "eq", "lte", "lt", "gte", "gt"])
        ⟨k, w ++ r⟩).map fun next => (next.1, [.leaf .keyword k ((w ++ r).take (next.1.passed - k))]) := by
    rw [keyword, Peg.read]
  have hident : Peg.read reference ident ⟨k, w ++ r⟩ =
      if IsIdentifier w then some (⟨k + w.length, r⟩, [.leaf .ident k w]) else none := by
    rw [ident, Peg.read, read_identifier hpass hw hr]
    split <;> simp
  have hpath : Grammar.path = .node .path (.seq (.unless keyword) (.seq spaces (.seq ident segments))) := rfl
  rw [hpath, Peg.read_node, Peg.read_seq, Peg.read_unless, hkeyword, read_wholeWord (by decide) hw hr]
  by_cases hword : wholly ["and", "or", "not", "neq", "eq", "lte", "lt", "gte", "gt"] w = true
  · simp [hword]
  · simp only [hword, Bool.false_eq_true, if_false, Option.map_none]
    rw [Peg.read_seq, read_spaces_none hpass hs]
    simp only
    rw [Peg.read_seq, hident]
    by_cases hid : IsIdentifier w
    · simp only [hid, if_true]
      cases Peg.read reference segments ⟨k + w.length, r⟩ <;> simp
    · simp [hid]

/-- A path is tried where no literal is, so its first name is a slot. -/
theorem uniform_path : Uniform (fun shape =>
      (Ready shape ∧ ∃ before, Fails (Peg.read reference nullLiteral) before shape) ∧
        ∃ before, Fails (Peg.read reference boolLiteral) before shape)
    Open (Peg.read reference Grammar.path) := by
  rintro before shape ⟨⟨hready, hnull⟩, hbool⟩
  rcases hready.1.cases with ⟨i, rest, rfl, hs, hr⟩ | ⟨w, rest, rfl, hname, hw, hs, hr⟩
  · have hread : ∀ σ, Fits σ (.slot i :: rest) →
        Peg.read reference Grammar.path (place σ before (.slot i :: rest)) =
        (Peg.read reference segments (place σ (before ++ [.slot i]) rest)).map fun next =>
          (next.1, [.node .path (before.fill σ).length
            (.leaf .ident (before.fill σ).length (σ i) :: next.2)]) := by
      intro σ hσ
      have hid := hσ.head
      have hspace := head_not_space hready hσ
      rw [Shape.fill_slot] at hspace
      rw [place, Shape.fill_slot, read_path hpass hid.identifier.isNameChar (Shape.endsWord_fill hs) hspace,
        wholly_eq_false (by decide) hid, if_pos hid.identifier]
      simp [place]
    rcases uniform_segments hpass (before ++ [.slot i]) rest hr with
      hf | ⟨stretch, last, trees, rfl, ho, hpasses⟩
    · refine .inl fun σ hσ => ?_
      have hnone := hf σ hσ.tail
      rw [hread σ hσ, hnone, Option.map_none]
    · refine .inr ⟨.slot i :: stretch, last,
        [.node .path before (.leaf .ident before [.slot i] :: trees)], rfl, ho, ?_, ?_, fun σ hσ => ?_⟩
      · refine ⟨[], .slot i :: stretch, [], by simp, ⟨by simp, ?_⟩, trivial⟩
        exact ⟨[], [.slot i], stretch, rfl, ⟨by simp, rfl⟩, by simpa using hpasses.cover⟩
      · exact ⟨⟨_, _, i, trees, rfl⟩, trivial⟩
      · have hsome := hpasses.reads σ hσ.tail
        rw [List.cons_append, hread σ hσ, hsome]
        simp [ShapeTree.fillAll, ShapeTree.fill]
  · refine .inl fun σ hσ => ?_
    have hspace := head_not_space hready hσ
    rw [Shape.fill_append, Shape.fill_chars] at hspace
    rw [place, Shape.fill_append, Shape.fill_chars, read_path hpass hw (Shape.endsWord_fill hs) hspace]
    by_cases hid : IsIdentifier w
    · have hin : w ∈ reserved := by
        by_contra hin
        exact hname ⟨hid, hin⟩
      have hn := not_wholly_of_fails (by decide) hw hs hnull
      have hb := not_wholly_of_fails (by decide) hw hs hbool
      rcases reserved_cases hin with h | h | h
      · simp [h]
      · simp [hn] at h
      · simp [hb] at h
    · simp [hid]

/-- Operators before an operand, whichever the rule. -/
theorem uniform_prefixed {outer : Rule} {op operand : Grammar} (hr : outer ≠ .path) (hp : op.passes = true)
    (hop : Uniform Open Lexed (Peg.read reference op)) (h : Uniform Ready Open (Peg.read reference operand)) :
    Uniform Ready Open (Peg.read reference (.node outer (next (many op) operand))) :=
  have hops := many_ready hpass (hop.strengthen fun _ => ready_open) hp
  .node hr (next_ready hpass hops h)

/-- Operands with operators between them, whichever the rule. -/
theorem uniform_chain {outer : Rule} {op operand : Grammar} (hr : outer ≠ .path)
    (hp : (next op operand).passes = true) (hop : Uniform Open Lexed (Peg.read reference op))
    (h : Uniform Ready Open (Peg.read reference operand)) :
    Uniform Ready Open (Peg.read reference (.node outer (next operand (many (next op operand))))) :=
  .node hr (next_open hpass h (many_open hpass (next_ready hpass hop h) hp))

variable (hunif : Uniform Ready Open reference)
include hunif

theorem uniform_primary : Uniform Ready Open (Peg.read reference primary) := by
  have hnull : Uniform Ready Open (Peg.read reference nullLiteral) :=
    (Uniform.token .null (uniform_wholeWord (by decide))).imp (fun _ => ready_open) fun _ h => h.isOpen
  have hbool : Uniform Ready Open (Peg.read reference boolLiteral) :=
    (Uniform.token .bool (uniform_wholeWord (by decide))).imp (fun _ => ready_open) fun _ h => h.isOpen
  have hfloat : Uniform Ready Open (Peg.read reference float) :=
    (uniform_float hpass).strengthen fun _ => ready_open
  have hint : Uniform Ready Open (Peg.read reference int) :=
    (Uniform.token .int (uniform_digits hpass)).strengthen fun _ => ready_open
  have hstring : Uniform Ready Open (Peg.read reference string) :=
    (uniform_string hpass).imp (fun _ => ready_open) fun _ h => h.isOpen
  have hagain : Uniform Ready Open (Peg.read reference .again) := hunif
  have hclose : Uniform Open Open (Peg.read reference (char ')')) :=
    (uniform_char (by decide)).weaken fun _ h => h.isOpen
  have hparen : Uniform Ready Open (Peg.read reference (next (char '(') (next .again (char ')')))) :=
    (next_ready hpass (uniform_char (by decide)) (next_open hpass hagain hclose)).strengthen fun _ => ready_open
  refine hnull.orElse ((hbool.strengthen fun _ h => h.1).orElse ?_)
  refine (hfloat.strengthen fun _ h => h.1.1).alt ((hint.strengthen fun _ h => h.1.1).alt ?_)
  refine (hstring.strengthen fun _ h => h.1.1).alt ((hparen.strengthen fun _ h => h.1.1).alt ?_)
  exact uniform_path hpass

theorem uniform_unary : Uniform Ready Open (Peg.read reference unary) :=
  uniform_prefixed hpass (by decide) rfl uniform_negOp (uniform_primary hpass hunif)

theorem uniform_additive : Uniform Ready Open (Peg.read reference additive) :=
  uniform_chain hpass (by decide) rfl uniform_addOp (uniform_unary hpass hunif)

theorem uniform_comparison : Uniform Ready Open (Peg.read reference comparison) :=
  have hadditive := uniform_additive hpass hunif
  .node (by decide) (next_open hpass hadditive ((next_ready hpass uniform_compareOp hadditive).alt .empty))

theorem uniform_notExpr : Uniform Ready Open (Peg.read reference notExpr) :=
  uniform_prefixed hpass (by decide) rfl uniform_notOp (uniform_comparison hpass hunif)

theorem uniform_andExpr : Uniform Ready Open (Peg.read reference andExpr) :=
  uniform_chain hpass (by decide) rfl uniform_andOp (uniform_notExpr hpass hunif)

theorem uniform_orExpr : Uniform Ready Open (Peg.read reference orExpr) :=
  uniform_chain hpass (by decide) rfl uniform_orOp (uniform_andExpr hpass hunif)

/-- An expression is read alike whatever names fill its slots. -/
theorem uniform_expression : Uniform Lexed Open (Peg.read reference expression) := by
  have hended : Uniform Open Open (Peg.read reference (.token .ending .ended)) := .token .ending uniform_ended
  exact .node (by decide) ((spaces_ready hpass).seq (next_open hpass hunif hended))

end

/-- At every level the recursive rule passes a character at least. -/
theorem passing_level (depth : Nat) : Peg.Passing (Peg.readLevel orExpr depth) :=
  Peg.readLevel_passing rfl depth

/-- Parentheses inside parentheses change nothing. -/
theorem uniform_level (depth : Nat) : Uniform Ready Open (Peg.readLevel orExpr depth) := by
  induction depth with
  | zero => exact fun _ _ _ => .inl fun _ _ => rfl
  | succ depth ih => exact uniform_orExpr (passing_level depth) ih

end DynamicSql.Expr
