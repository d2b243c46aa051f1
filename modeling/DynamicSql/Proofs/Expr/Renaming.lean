import DynamicSql.Expr.Expression
import DynamicSql.Proofs.Expr.Parsing

/-!
Renaming the names that paths begin with, in the source of an expression. Main statement: it fills
the slots of those names anew, and nothing else changes.
-/
namespace DynamicSql.Expr

open Shape (Fits Lexed Open slots)

variable {shape before stretch more : Shape} {σ τ : Nat → Text} {trees : List ShapeTree}

namespace ShapeTree

mutual

/-- The slots that paths begin with, with what comes before them. -/
def heads : ShapeTree → List (Shape × Nat)
  | leaf _ _ _ => []
  | node .path _ (leaf _ start [.slot i] :: _) => [(start, i)]
  | node .path _ _ => []
  | node _ _ children => headsOfAll children

def headsOfAll : List ShapeTree → List (Shape × Nat)
  | [] => []
  | t :: rest => heads t ++ headsOfAll rest

end

def headSlots (t : ShapeTree) : List Nat := t.heads.map Prod.snd

theorem heads_node {rule : Rule} (hr : rule ≠ .path) (start : Shape) (children : List ShapeTree) :
    heads (.node rule start children) = headsOfAll children := by
  cases rule <;> first | exact absurd rfl hr | simp [heads]

theorem allHeaded_of_node {rule : Rule} (hr : rule ≠ .path) {start : Shape} {children : List ShapeTree}
    (h : Headed (.node rule start children)) : AllHeaded children := by
  cases rule <;> first | exact absurd rfl hr | simpa [Headed] using h

/-- Slots of a stretch, from left to right, with what comes before them. -/
def Placed (before stretch : Shape) : List (Shape × Nat) → Prop
  | [] => True
  | (start, i) :: rest => ∃ gap after, stretch = gap ++ (.slot i :: after) ∧ start = before ++ gap ∧
      Placed (before ++ (gap ++ [.slot i])) after rest

variable {hs more' : List (Shape × Nat)}

/-- What is skipped moves the heads behind it, and has none itself. -/
theorem placed_skip (skipped : Shape) (h : Placed (before ++ skipped) stretch hs) :
    Placed before (skipped ++ stretch) hs := by
  cases hs with
  | nil => trivial
  | cons entry rest =>
    obtain ⟨start, i⟩ := entry
    obtain ⟨gap, after, rfl, rfl, hr⟩ := h
    exact ⟨skipped ++ gap, after, by simp, by simp, by simpa using hr⟩

theorem placed_append (h : Placed before stretch hs) (h' : Placed (before ++ stretch) more more') :
    Placed before (stretch ++ more) (hs ++ more') := by
  induction hs generalizing before stretch with
  | nil => exact placed_skip stretch h'
  | cons entry rest ih =>
    obtain ⟨start, i⟩ := entry
    obtain ⟨gap, after, rfl, rfl, hr⟩ := h
    exact ⟨gap, after ++ more, by simp, rfl, ih hr (by simpa using h')⟩

theorem placed_extend (more : Shape) (h : Placed before stretch hs) : Placed before (stretch ++ more) hs := by
  have hall : Placed before (stretch ++ more) (hs ++ []) := placed_append h trivial
  simpa using hall

theorem mem_slots_of_placed (h : Placed before stretch hs) : ∀ entry ∈ hs, entry.2 ∈ slots stretch := by
  induction hs generalizing before stretch with
  | nil => simp
  | cons entry rest ih =>
    obtain ⟨start, i⟩ := entry
    obtain ⟨gap, after, rfl, rfl, hr⟩ := h
    refine List.forall_mem_cons.mpr ⟨by simp, fun e he => ?_⟩
    have := ih hr e he
    simp [this]

mutual

/-- The heads of a tree are slots of its stretch, from left to right. -/
theorem placed_heads (t : ShapeTree) (before stretch : Shape) (hc : Spans before stretch t) (hh : Headed t) :
    Placed before stretch (heads t) := by
  match t with
  | leaf _ _ _ => trivial
  | node rule start children =>
    obtain ⟨-, hc⟩ := hc
    by_cases hrule : rule = .path
    · subst hrule
      obtain ⟨rule, start, i, rest, rfl⟩ := hh
      obtain ⟨gap, inner, after, rfl, ⟨rfl, rfl⟩, -⟩ := hc
      exact ⟨gap, after, by simp, rfl, trivial⟩
    · rw [heads_node hrule]
      exact placed_headsOfAll children before stretch hc (allHeaded_of_node hrule hh)

theorem placed_headsOfAll (ts : List ShapeTree) (before stretch : Shape) (hc : Cover before stretch ts)
    (hh : AllHeaded ts) : Placed before stretch (headsOfAll ts) := by
  match ts with
  | [] => trivial
  | t :: rest =>
    obtain ⟨gap, inner, after, rfl, ht, hr⟩ := hc
    rw [AllHeaded] at hh
    rw [headsOfAll]
    refine placed_skip gap (placed_append (placed_heads t _ inner ht hh.1) ?_)
    have := placed_headsOfAll rest _ after hr hh.2
    simpa using this

end

mutual

/-- Filled, each head begins where the filled text before it ends. -/
theorem heads_fill (t : ShapeTree) (hh : Headed t) :
    Expr.heads (t.fill σ) = t.heads.map fun entry => ((entry.1.fill σ).length, σ entry.2) := by
  match t with
  | leaf _ _ _ => rfl
  | node rule start children =>
    by_cases hrule : rule = .path
    · subst hrule
      obtain ⟨rule, start, i, rest, rfl⟩ := hh
      simp [fill, fillAll, Expr.heads, headOf, heads]
    · have hfilled : Expr.heads (fill σ (node rule start children)) =
          Expr.headsOfAll (fillAll σ children) := by
        cases rule <;> first | exact absurd rfl hrule | (rw [fill, Expr.heads]; simp)
      rw [heads_node hrule, hfilled]
      exact headsOfAll_fill children (allHeaded_of_node hrule hh)

theorem headsOfAll_fill (ts : List ShapeTree) (hh : AllHeaded ts) : Expr.headsOfAll (fillAll σ ts) =
    (headsOfAll ts).map fun entry => ((entry.1.fill σ).length, σ entry.2) := by
  match ts with
  | [] => rfl
  | t :: rest =>
    rw [AllHeaded] at hh
    rw [fillAll, Expr.headsOfAll, headsOfAll, heads_fill t hh.1, headsOfAll_fill rest hh.2, List.map_append]

end

end ShapeTree

/-! Edits of the source. -/

/-- The names after a renaming of those in some slots. -/
def renameAt (heads : List Nat) (ρ : Text → Text) (σ : Nat → Text) (i : Nat) : Text :=
  if i ∈ heads then ρ (σ i) else σ i

def Renames.apply (renames : Renames) (x : Text) : Text := (renames.lookup x).getD x

/-- Edits that begin further on leave what comes before them. -/
theorem applyEdits_append (done : Nat) (u r : Text) {es : List Edit}
    (h : ∀ e ∈ es, done + u.length ≤ e.start) :
    applyEdits done (u ++ r) es = u ++ applyEdits (done + u.length) r es := by
  cases es with
  | nil => rfl
  | cons e rest =>
    have he := h e List.mem_cons_self
    have hsub : e.start - done = u.length + (e.start - (done + u.length)) := by omega
    have hdrop : e.start - done + e.length = u.length + (e.start - (done + u.length) + e.length) := by omega
    rw [applyEdits, applyEdits, hdrop, hsub, List.take_length_add_append, List.drop_length_add_append]
    simp [List.append_assoc]

theorem edits_cons (renames : Renames) (start : Nat) (x : Text) (rest : List (Nat × Text)) :
    edits renames ((start, x) :: rest) =
      ((renames.lookup x).map fun replacement => ⟨start, x.length, replacement⟩).toList ++
        edits renames rest := by
  simp only [edits, List.filterMap_cons]
  cases h : renames.lookup x <;> simp

/-- No edit begins before the stretch does. -/
theorem le_start_of_placed (renames : Renames) (σ : Nat → Text) {hs : List (Shape × Nat)}
    (h : ShapeTree.Placed before stretch hs) :
    ∀ e ∈ edits renames (hs.map fun entry => ((entry.1.fill σ).length, σ entry.2)),
      (before.fill σ).length ≤ e.start := by
  induction hs generalizing before stretch with
  | nil => simp [edits]
  | cons entry rest ih =>
    obtain ⟨start, i⟩ := entry
    obtain ⟨gap, after, rfl, rfl, hr⟩ := h
    intro e he
    rw [List.map_cons, edits_cons] at he
    rcases List.mem_append.mp he with he | he
    · cases hl : renames.lookup (σ i) with
      | none => simp [hl] at he
      | some replacement =>
        simp only [hl, Option.map_some, Option.toList_some, List.mem_singleton] at he
        simp [he]
    · have := ih hr e he
      simp only [Shape.fill_append, List.length_append] at this
      omega

/-- Renaming at the heads leaves a stretch without heads as it was. -/
theorem fill_renameAt_of_not_mem {heads : List Nat} {ρ : Text → Text} (h : ∀ i ∈ slots shape, i ∉ heads) :
    shape.fill (renameAt heads ρ σ) = shape.fill σ :=
  Shape.fill_congr fun i hi => by simp [renameAt, h i hi]

/-- Editing the text where the slots are is filling the slots anew. -/
theorem applyEdits_fill (renames : Renames) (σ : Nat → Text) {hs : List (Shape × Nat)}
    (h : ShapeTree.Placed before stretch hs) (hnodup : (slots stretch).Nodup) :
    applyEdits (before.fill σ).length (stretch.fill σ)
        (edits renames (hs.map fun entry => ((entry.1.fill σ).length, σ entry.2))) =
      stretch.fill (renameAt (hs.map Prod.snd) (Renames.apply renames) σ) := by
  induction hs generalizing before stretch with
  | nil =>
    rw [fill_renameAt_of_not_mem (by simp)]
    rfl
  | cons entry rest ih =>
    obtain ⟨start, i⟩ := entry
    obtain ⟨gap, after, rfl, rfl, hr⟩ := h
    simp only [Shape.slots_append, Shape.slots_slot, List.nodup_append, List.nodup_cons] at hnodup
    obtain ⟨-, ⟨hi, hafter⟩, hdisjoint⟩ := hnodup
    have hmem : ∀ j ∈ rest.map Prod.snd, j ∈ slots after := by
      intro j hj
      obtain ⟨entry, he, rfl⟩ := List.mem_map.mp hj
      exact ShapeTree.mem_slots_of_placed hr entry he
    have hgap : gap.fill (renameAt (i :: rest.map Prod.snd) (Renames.apply renames) σ) = gap.fill σ := by
      refine fill_renameAt_of_not_mem fun j hj hm => ?_
      rcases List.mem_cons.mp hm with rfl | hm
      · exact hdisjoint j hj j List.mem_cons_self rfl
      · exact hdisjoint j hj j (List.mem_cons_of_mem _ (hmem j hm)) rfl
    have hafter' : Shape.fill (renameAt (i :: rest.map Prod.snd) (Renames.apply renames) σ) after =
        Shape.fill (renameAt (rest.map Prod.snd) (Renames.apply renames) σ) after := by
      refine Shape.fill_congr fun j hj => ?_
      have hne : j ≠ i := fun he => hi (he ▸ hj)
      have hiff : j ∈ i :: rest.map Prod.snd ↔ j ∈ rest.map Prod.snd := by simp [hne]
      simp only [renameAt, hiff]
    have hslot : renameAt (i :: rest.map Prod.snd) (Renames.apply renames) σ i =
        Renames.apply renames (σ i) := by
      simp [renameAt]
    have hih := ih hr hafter
    simp only [Shape.fill_append, Shape.fill_slot, Shape.fill_nil, List.append_nil, List.length_append] at hih
    simp only [List.map_cons, edits_cons, Shape.fill_append, Shape.fill_slot, hgap, hslot, hafter', ← hih]
    cases hl : renames.lookup (σ i) with
    | none =>
      -- No edit begins before the end of the slot.
      have hstart := le_start_of_placed renames σ hr
      have happend := applyEdits_append (before.fill σ).length (gap.fill σ ++ σ i) (Shape.fill σ after)
        fun e he => by simpa using hstart e he
      simp only [List.append_assoc, List.length_append] at happend
      simpa [Renames.apply, hl] using happend
    | some replacement =>
      have htake : (gap.fill σ ++ (σ i ++ Shape.fill σ after)).take (gap.fill σ).length =
          gap.fill σ := by simp
      have hdrop : (gap.fill σ ++ (σ i ++ Shape.fill σ after)).drop ((gap.fill σ).length + (σ i).length) =
          Shape.fill σ after := by simp [← List.append_assoc, ← List.length_append]
      simp [applyEdits, Renames.apply, hl, htake, hdrop, Nat.add_assoc]

/--
Renaming roots fills the slots of the first names anew; where there is none to rename, the text
stays.
-/
theorem renameRoots_fill {t : ShapeTree} (hparse : parseTree (shape.fill σ) = .ok (t.fill σ))
    (hc : ShapeTree.Cover [] shape [t]) (hh : t.Headed) (hnodup : shape.slots.Nodup) (renames : Renames) :
    ∃ r, renameRoots (shape.fill σ) renames = .ok r ∧
      r.getD (shape.fill σ) = shape.fill (renameAt t.headSlots (Renames.apply renames) σ) := by
  obtain ⟨gap, inner, after, rfl, hspan, -⟩ := hc
  have hplaced : ShapeTree.Placed [] (gap ++ (inner ++ after)) t.heads :=
    ShapeTree.placed_skip gap (ShapeTree.placed_extend after (ShapeTree.placed_heads t _ inner hspan hh))
  have hfill := applyEdits_fill renames σ hplaced hnodup
  rw [← ShapeTree.heads_fill t hh] at hfill
  simp only [renameRoots, hparse]
  cases hedits : edits renames (heads (t.fill σ)) with
  | nil =>
    rw [hedits] at hfill
    exact ⟨none, rfl, hfill⟩
  | cons e es =>
    rw [hedits] at hfill
    exact ⟨_, rfl, hfill⟩

end DynamicSql.Expr
