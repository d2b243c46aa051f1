import DynamicSql.Proofs.Expr.Grammar

/-!
Texts that are read as expressions. Main statement: the text is the filling of a shape, every
filling is read as an expression, and the tree of each is the filling of one tree, in which every
path begins with a slot.
-/
namespace DynamicSql.Expr

open Shape (Fits Lexed Open)
open Grammar (isNameChar)

variable {s w r : Text} {shape : Shape} {σ τ : Nat → Text} {limit depth : Nat} {q : Quoting}

/-! Parentheses are counted alike in every filling. -/

def Quoting.Plain : Quoting → Prop
  | .outside => True
  | .inside c | .escaped c => isNameChar c = false

/-- After a name, nothing is escaped. -/
def Quoting.settle : Quoting → Quoting
  | .escaped c => .inside c
  | q => q

/-- Outside quotes a word opens and closes nothing. -/
theorem nestsWithin_word (hq : q.Plain) (hs : q.settle = q) (hw : ∀ c ∈ w, isNameChar c = true) :
    nestsWithin limit depth q (w ++ r) = nestsWithin limit depth q r := by
  induction w with
  | nil => rfl
  | cons c w ih =>
    have hc := hw c List.mem_cons_self
    have hrest := ih fun d hd => hw d (List.mem_cons_of_mem _ hd)
    have hne : ∀ d, isNameChar d = false → c ≠ d := by
      rintro d hd rfl
      simp [hc] at hd
    cases q with
    | outside =>
      rw [List.cons_append, nestsWithin]
      simp [hne '\x27' (by decide), hne '\x22' (by decide), hne '(' (by decide), hne ')' (by decide), hrest]
    | inside d =>
      rw [List.cons_append, nestsWithin]
      simp [hne d hq, hne '\\' (by decide), hrest]
    | escaped d => cases hs

/-- Behind a name a backslash has lost its effect, and the depth is the same. -/
theorem nestsWithin_name (hq : q.Plain) (hw : IsName w) :
    nestsWithin limit depth q (w ++ r) = nestsWithin limit depth q.settle r := by
  have hid := hw.identifier
  cases q with
  | outside => exact nestsWithin_word trivial rfl hid.isNameChar
  | inside d => exact nestsWithin_word hq rfl hid.isNameChar
  | escaped d =>
    cases w with
    | nil => exact absurd rfl hid.ne_nil
    | cons c w =>
      rw [List.cons_append, nestsWithin]
      exact nestsWithin_word (q := .inside d) hq rfl fun e he => hid.isNameChar e (List.mem_cons_of_mem _ he)

/-- The depth of a shape does not depend on the names in it. -/
theorem nestsWithin_fill (hq : q.Plain) (hσ : Fits σ shape) (hτ : Fits τ shape) :
    nestsWithin limit depth q (shape.fill σ) = nestsWithin limit depth q (shape.fill τ) := by
  induction shape generalizing q depth with
  | nil => rfl
  | cons a rest ih =>
    cases a with
    | slot i =>
      have hsettle : q.settle.Plain := by cases q <;> exact hq
      rw [Shape.fill_slot, Shape.fill_slot, nestsWithin_name hq hσ.head, nestsWithin_name hq hτ.head]
      exact ih hsettle hσ.tail hτ.tail
    | char c =>
      have hrest : ∀ {depth : Nat} {q : Quoting}, q.Plain →
          nestsWithin limit depth q (Shape.fill σ rest) = nestsWithin limit depth q (Shape.fill τ rest) :=
        fun h => ih h hσ.tail hτ.tail
      rw [Shape.fill_char, Shape.fill_char]
      cases q with
      | escaped d =>
        rw [nestsWithin, nestsWithin]
        exact hrest hq
      | inside d =>
        rw [nestsWithin, nestsWithin]
        refine hrest ?_
        split
        · exact hq
        · split
          · trivial
          · exact hq
      | outside =>
        rw [nestsWithin, nestsWithin]
        split
        · next hc =>
          refine hrest ?_
          change isNameChar c = false
          rcases hc with rfl | rfl <;> decide
        · split
          · split
            · exact hrest trivial
            · rfl
          · split
            · exact hrest trivial
            · exact hrest trivial

/-- The tree of an expression, by what the grammar reads. -/
theorem parseTree_eq_ok_iff {tree : Tree} : parseTree s = .ok tree ↔ nestingOk s = true ∧ ∃ last start more,
    Peg.read (Peg.readLevel Grammar.orExpr (maxNesting + 1)) Grammar.expression ⟨0, s⟩ =
      some (last, [.node .expression start (tree :: more)]) := by
  rw [← Peg.parse_result, parseTree]
  by_cases hn : nestingOk s = true
  · simp only [hn, if_true, true_and]
    rcases Peg.parse Grammar.expression Grammar.orExpr (maxNesting + 1) s with ⟨furthest, result⟩
    constructor
    · intro h
      split at h
      · next heq =>
        cases heq
        cases h
        exact ⟨_, _, _, rfl⟩
      · cases h
      · cases h
    · rintro ⟨last, start, more, rfl⟩
      rfl
  · simp [hn]

/-- Filling keeps the constructors, so a filled expression was one before. -/
theorem exists_of_fillAll {trees : List ShapeTree} {start : Nat} {tree : Tree} {more : List Tree}
    (h : ShapeTree.fillAll σ trees = [.node .expression start (tree :: more)]) :
    ∃ pre t others, trees = [.node .expression pre (t :: others)] ∧ t.fill σ = tree := by
  match trees with
  | [] => cases h
  | .leaf rule pre text :: rest => simp [ShapeTree.fillAll, ShapeTree.fill] at h
  | .node rule pre children :: rest =>
    simp only [ShapeTree.fillAll, ShapeTree.fill, List.cons.injEq, Peg.Tree.node.injEq] at h
    obtain ⟨⟨rfl, -, hc⟩, hr⟩ := h
    cases rest with
    | cons t rest => simp [ShapeTree.fillAll] at hr
    | nil =>
      cases children with
      | nil => simp [ShapeTree.fillAll] at hc
      | cons t others =>
        simp only [ShapeTree.fillAll, List.cons.injEq] at hc
        exact ⟨pre, t, others, rfl, hc.1⟩

/-- Every filling of the shape of an expression is an expression with the same tree but for its names. -/
theorem parseTree_fill {tree : Tree} (h : parseTree s = .ok tree) :
    ∃ (shape : Shape) (σ : Nat → Text) (t : ShapeTree),
    shape.fill σ = s ∧ Fits σ shape ∧ shape.slots.Nodup ∧ t.fill σ = tree ∧ ShapeTree.Cover [] shape [t] ∧
      t.Headed ∧ ∀ τ, Fits τ shape → parseTree (shape.fill τ) = .ok (t.fill τ) := by
  obtain ⟨shape, σ, hlexed, rfl, hσ, hnodup, -⟩ := Shape.exists_lexed s
  obtain ⟨hnest, last, start, more, hread⟩ := parseTree_eq_ok_iff.mp h
  rcases uniform_expression (passing_level _) (uniform_level (maxNesting + 1)) [] shape hlexed with
    hf | ⟨stretch, rest, trees, rfl, -, hpass⟩
  · have hnone := hf σ hσ
    rw [place, Shape.fill_nil, List.length_nil, hread] at hnone
    cases hnone
  · have hsome := hpass.reads σ hσ
    rw [place, Shape.fill_nil, List.length_nil, hread] at hsome
    obtain ⟨pre, t, others, rfl, rfl⟩ : ∃ pre t others, trees = [.node .expression pre (t :: others)] ∧
        t.fill σ = tree := by
      simp only [Option.some.injEq, Prod.mk.injEq] at hsome
      exact exists_of_fillAll hsome.2.symm
    obtain ⟨gap, inner, after, rfl, ⟨-, hspan⟩, -⟩ := hpass.cover
    obtain ⟨gap', inner', after', rfl, hspan', -⟩ := hspan
    refine ⟨_, σ, t, rfl, hσ, hnodup, rfl, ?_, ?_, fun τ hτ => ?_⟩
    · refine ⟨gap ++ gap', inner', after' ++ after ++ rest, by simp, by simpa using hspan', trivial⟩
    · exact hpass.headed.1.1
    · refine parseTree_eq_ok_iff.mpr ⟨?_, place τ _ rest, _, _, hpass.reads τ hτ⟩
      have hplain : Quoting.outside.Plain := trivial
      rw [nestingOk, nestsWithin_fill hplain hτ hσ]
      exact hnest

end DynamicSql.Expr
