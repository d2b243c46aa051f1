import DynamicSql.Proofs.Expr.Agreement
import DynamicSql.Proofs.Expr.Parsing

/-!
Which texts have a tree. Main statement: a text has the tree that the rules derive from it, as soon as the
parentheses in that tree nest within the limit.
-/
namespace DynamicSql.Expr

open Peg (Place Reading Reads Stretch)
open Grammar

variable {reference : Reading Rule} {s : Text} {tree : Tree} {S : Text → List Tree → Prop}

/-- How deep the parentheses of a tree nest; the outermost expression stands in none. -/
def parenthesisDepth (tree : Tree) : Nat := depth tree - 1

def Surrounded (S : Text → List Tree → Prop) (s : Text) (tree : Tree) : Prop :=
  ∃ before w after, s = before ++ (w ++ after) ∧ (∀ c ∈ before, isSpace c = true) ∧
    (∀ c ∈ after, isSpace c = true) ∧ S w [tree]

theorem read_ended {p q : Place} {ts : List Tree}
    (h : Peg.read reference (.token .ending .ended) p = some (q, ts)) :
    p.rest = [] ∧ q = p ∧ ts = [.leaf .ending p.passed []] := by
  rw [Peg.read_token, Peg.read] at h
  by_cases hr : p.rest = []
  · simp only [hr, if_true, Option.map_some, List.take_nil, Option.some.injEq, Prod.mk.injEq] at h
    exact ⟨hr, h.1.symm, h.2.symm⟩
  · simp [hr] at h

/-- A whole text is one expression, with blanks around it. -/
theorem read_expression (hone : ∀ w ts, S w ts → ∃ t, ts = [t]) (hs : Reads S reference) {last : Place}
    {ts : List Tree} (h : Peg.read reference expression ⟨0, s⟩ = some (last, ts)) :
    ∃ tree, last = ⟨s.length, []⟩ ∧ ts = [.node .expression 0 [tree, .leaf .ending s.length []]] ∧
      Surrounded S s tree := by
  rw [expression, Peg.read_node, Option.map_eq_some_iff] at h
  obtain ⟨⟨stop, parts⟩, hparts, heq⟩ := h
  cases heq
  obtain ⟨q, blanks, others, hbefore, hothers, rfl⟩ := Peg.read_seq_eq_some_iff.mp hparts
  obtain ⟨r, trees, behind, hagain, hbehind, rfl⟩ := Peg.read_seq_eq_some_iff.mp hothers
  obtain ⟨e, blanks', leaves, hafter, hended, rfl⟩ := Peg.read_seq_eq_some_iff.mp hbehind
  obtain ⟨before, hb, hblank, rfl⟩ := reads_spaces _ _ _ hbefore
  obtain ⟨w, hw, hsw⟩ := hs _ _ _ hagain
  obtain ⟨tree, rfl⟩ := hone w trees hsw
  obtain ⟨after, ha, hblank', rfl⟩ := reads_spaces _ _ _ hafter
  obtain ⟨hrest, rfl, rfl⟩ := read_ended hended
  have hall := (hb.append hw).append ha
  have hsplit : s = before ++ (w ++ after) := by simpa [hrest] using hall.rest
  have hpassed : stop.passed = s.length := by simpa [hsplit, Nat.add_assoc] using hall.passed
  refine ⟨tree, ?_, ?_, before, w, after, hsplit, hblank, hblank', hsw⟩
  · rw [← hpassed, ← hrest]
  · rw [← hpassed]
    rfl

theorem Enclosed.exists_eq {w : Text} {ts : List Tree} (h : Enclosed w ts) : ∃ t, ts = [t] := by
  obtain ⟨start, parts, rfl, -⟩ := h
  exact ⟨_, rfl⟩

/-- What the rules derive is what the machine reads, wherever its limit is no limit for the text. -/
theorem derived_iff_read {limit : Nat} (h : nestsWithin limit 0 .outside s = true) : Derived s tree ↔
    ∃ last start more, Peg.read (Peg.readLevel orExpr (limit + 1)) expression ⟨0, s⟩ =
      some (last, [.node .expression start (tree :: more)]) := by
  have hread := derives_expression h
  constructor
  · intro hd
    exact ⟨_, _, _, hread.deterministic hd⟩
  · rintro ⟨last, start, more, hsome⟩
    obtain ⟨t, hlast, hts, -⟩ :=
      read_expression (fun _ _ hw => hw.exists_eq) (enclosed_level (limit + 1)) hsome
    rw [hsome, hlast, hts] at hread
    simp only [List.cons.injEq, Peg.Tree.node.injEq, and_true, true_and] at hts
    rwa [← hts.2.1] at hread

/-- What holds of every expression that is read holds of the one that is derived. -/
theorem Derived.surrounded (hone : ∀ w ts, S w ts → ∃ t, ts = [t])
    (hs : ∀ level, Reads S (Peg.readLevel orExpr level)) (h : Derived s tree) : Surrounded S s tree := by
  -- A limit as high as the text is long excludes nothing, so what is derived is also read.
  have hwithin : nestsWithin s.length 0 .outside s = true := nestsWithin_of_length _ s (by omega)
  obtain ⟨last, start, more, hsome⟩ := (derived_iff_read hwithin).mp h
  obtain ⟨t, -, hts, hsur⟩ := read_expression hone (hs (s.length + 1)) hsome
  simp only [List.cons.injEq, Peg.Tree.node.injEq, and_true, true_and] at hts
  exact hts.2.1 ▸ hsur

/-- The blanks around an expression count for nothing. -/
theorem Derived.weighs (h : Derived s tree) : ∃ start parts, tree = .node .orExpr start parts ∧ Weighs s parts := by
  obtain ⟨before, w, after, rfl, hb, ha, start, parts, htree, hw⟩ :=
    h.surrounded (fun _ _ hw => hw.exists_eq) enclosed_level
  cases htree
  have hbefore : Weighs before [] := .of_plain (fun c hc => delimits_of_isSpace (hb c hc)) rfl
  have hafter : Weighs after [] := .of_plain (fun c hc => delimits_of_isSpace (ha c hc)) rfl
  exact ⟨start, parts, rfl, by simpa using hbefore.append (hw.append hafter)⟩

/-- The pass over the characters of a text that is derived finds the depth of its tree. -/
theorem Derived.nestsWithin_iff (h : Derived s tree) (limit : Nat) :
    nestsWithin limit 0 .outside s = true ↔ parenthesisDepth tree ≤ limit := by
  obtain ⟨start, parts, rfl, hs⟩ := h.weighs
  have hiff := hs limit 0 [] (Nat.zero_le limit)
  rw [List.append_nil] at hiff
  rw [hiff]
  simp [nestsWithin, parenthesisDepth, depth]

/-- The machine reads what the rules derive, up to the depth of parentheses. -/
theorem parseTree_eq_ok_iff_derived :
    parseTree s = .ok tree ↔ Derived s tree ∧ parenthesisDepth tree ≤ maxNesting := by
  rw [parseTree_eq_ok_iff]
  constructor
  · rintro ⟨hn, hread⟩
    have hd := (derived_iff_read hn).mpr hread
    exact ⟨hd, (hd.nestsWithin_iff maxNesting).mp hn⟩
  · rintro ⟨hd, hdepth⟩
    have hn := (hd.nestsWithin_iff maxNesting).mpr hdepth
    exact ⟨hn, (derived_iff_read hn).mp hd⟩

end DynamicSql.Expr
