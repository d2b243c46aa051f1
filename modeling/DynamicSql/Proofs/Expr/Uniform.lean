import DynamicSql.Expr.Parsing
import DynamicSql.Proofs.Expr.Shape
import DynamicSql.Proofs.Peg

/-!
Readings that do the same whatever names stand in the slots of a shape: they fail for all names, or
reach the same place of the shape and leave one tree, in which the slots are filled. The parts of a
grammar pass this on to the whole.
-/
namespace DynamicSql.Expr

open Peg (Place Reading)
open Shape (Fits Lexed Open)

/-- A tree whose places and texts are parts of a shape. -/
inductive ShapeTree where
  | leaf (rule : Rule) (start text : Shape)
  | node (rule : Rule) (start : Shape) (children : List ShapeTree)

namespace ShapeTree

mutual

def fill (σ : Nat → Text) : ShapeTree → Tree
  | leaf rule start text => .leaf rule (start.fill σ).length (text.fill σ)
  | node rule start children => .node rule (start.fill σ).length (fillAll σ children)

def fillAll (σ : Nat → Text) : List ShapeTree → List Tree
  | [] => []
  | t :: rest => fill σ t :: fillAll σ rest

end

mutual

/-- The tree is what was read of a stretch behind what came before it. -/
def Spans (before stretch : Shape) : ShapeTree → Prop
  | leaf _ start text => start = before ∧ text = stretch
  | node _ start children => start = before ∧ Cover before stretch children

/-- The trees lie in the stretch one behind the other. -/
def Cover (before stretch : Shape) : List ShapeTree → Prop
  | [] => True
  | t :: rest => ∃ skipped inner after, stretch = skipped ++ (inner ++ after) ∧
      Spans (before ++ skipped) inner t ∧ Cover (before ++ (skipped ++ inner)) after rest

end

mutual

def Headed : ShapeTree → Prop
  | leaf _ _ _ => True
  | node .path _ children => ∃ rule start i rest, children = .leaf rule start [.slot i] :: rest
  | node _ _ children => AllHeaded children

def AllHeaded : List ShapeTree → Prop
  | [] => True
  | t :: rest => Headed t ∧ AllHeaded rest

end

variable {σ : Nat → Text} {before stretch more : Shape} {trees others : List ShapeTree}

@[simp] theorem fillAll_append : fillAll σ (trees ++ others) = fillAll σ trees ++ fillAll σ others := by
  induction trees with
  | nil => rfl
  | cons t rest ih => rw [List.cons_append, fillAll, ih, fillAll, List.cons_append]

/-- Paths with their heads stay so in a longer list. -/
theorem allHeaded_append (h : AllHeaded trees) (h' : AllHeaded others) : AllHeaded (trees ++ others) := by
  induction trees with
  | nil => exact h'
  | cons t rest ih =>
    rw [AllHeaded] at h
    rw [List.cons_append, AllHeaded]
    exact ⟨h.1, ih h.2⟩

theorem headed_node {rule : Rule} (hr : rule ≠ .path) {start : Shape} (h : AllHeaded trees) :
    Headed (.node rule start trees) := by
  cases rule <;> first | exact absurd rfl hr | simpa [Headed] using h

theorem cover_skip (skipped : Shape) (h : Cover (before ++ skipped) stretch trees) :
    Cover before (skipped ++ stretch) trees := by
  cases trees with
  | nil => trivial
  | cons t rest =>
    obtain ⟨gap, inner, after, rfl, ht, hr⟩ := h
    refine ⟨skipped ++ gap, inner, after, by simp, ?_, ?_⟩
    · simpa using ht
    · simpa using hr

/-- Trees that cover two stretches cover them put together. -/
theorem cover_append (h : Cover before stretch trees) (h' : Cover (before ++ stretch) more others) :
    Cover before (stretch ++ more) (trees ++ others) := by
  induction trees generalizing before stretch with
  | nil => exact cover_skip stretch h'
  | cons t rest ih =>
    obtain ⟨gap, inner, after, rfl, ht, hr⟩ := h
    refine ⟨gap, inner, after ++ more, by simp, ht, ih hr (by simpa using h')⟩

end ShapeTree

open ShapeTree (fillAll Cover AllHeaded)

/-- The place behind the part of a shape that was read already. -/
def place (σ : Nat → Text) (before rest : Shape) : Place := ⟨(before.fill σ).length, rest.fill σ⟩

def Fails (reading : Reading Rule) (before rest : Shape) : Prop :=
  ∀ σ, Fits σ rest → reading (place σ before rest) = none

/-- Passes a stretch and leaves trees, for all names. -/
structure Passes (reading : Reading Rule) (before stretch rest : Shape) (trees : List ShapeTree) : Prop where
  cover : Cover before stretch trees
  headed : AllHeaded trees
  reads : ∀ σ, Fits σ (stretch ++ rest) →
    reading (place σ before (stretch ++ rest)) = some (place σ (before ++ stretch) rest, fillAll σ trees)

/--
From where `P` holds, the reading does not depend on the names, and where it succeeds `Q` holds
behind it.
-/
def Uniform (P Q : Shape → Prop) (reading : Reading Rule) : Prop :=
  ∀ before shape, P shape → Fails reading before shape ∨
    ∃ stretch rest trees, shape = stretch ++ rest ∧ Q rest ∧ Passes reading before stretch rest trees

namespace Uniform

variable {P P' Q Q' R : Shape → Prop} {reference : Reading Rule} {reading : Reading Rule}
  {first second body : Grammar}

theorem imp (hp : ∀ shape, P' shape → P shape) (hq : ∀ shape, Q shape → Q' shape)
    (h : Uniform P Q reading) : Uniform P' Q' reading := by
  intro before shape hs
  rcases h before shape (hp shape hs) with hf | ⟨stretch, rest, trees, he, hr, hpass⟩
  · exact .inl hf
  · exact .inr ⟨stretch, rest, trees, he, hq rest hr, hpass⟩

theorem strengthen (hp : ∀ shape, P' shape → P shape) (h : Uniform P Q reading) :
    Uniform P' Q reading := h.imp hp fun _ hq => hq

theorem weaken (hq : ∀ shape, Q shape → Q' shape) (h : Uniform P Q reading) :
    Uniform P Q' reading := h.imp (fun _ hp => hp) hq

theorem empty : Uniform P P (Peg.read reference .empty) := fun _ shape hs =>
  .inr ⟨[], shape, [], rfl, hs, trivial, trivial, fun σ _ => by simp [Peg.read, place, fillAll]⟩

/-- The first part leaves a place that suits the second. -/
theorem seq (h : Uniform P Q (Peg.read reference first)) (h' : Uniform Q R (Peg.read reference second)) :
    Uniform P R (Peg.read reference (.seq first second)) := by
  intro before shape hs
  rcases h before shape hs with hf | ⟨stretch, rest, trees, rfl, hq, hpass⟩
  · exact .inl fun σ hσ => by rw [Peg.read, hf σ hσ]
  rcases h' (before ++ stretch) rest hq with hf | ⟨more, last, others, rfl, hr, hpass'⟩
  · refine .inl fun σ hσ => ?_
    rw [Peg.read, hpass.reads σ hσ]
    simp only [hf σ hσ.right, Option.map_none]
  · refine .inr ⟨stretch ++ more, last, trees ++ others, by simp, hr, ?_, ?_, fun σ hσ => ?_⟩
    · exact ShapeTree.cover_append hpass.cover hpass'.cover
    · exact ShapeTree.allHeaded_append hpass.headed hpass'.headed
    · rw [List.append_assoc] at hσ ⊢
      rw [Peg.read, hpass.reads σ hσ]
      simp [hpass'.reads σ hσ.right]

/-- The second choice begins where the first has failed. -/
theorem orElse (h : Uniform P Q (Peg.read reference first))
    (h' : Uniform (fun shape => P shape ∧ ∃ before, Fails (Peg.read reference first) before shape) Q
      (Peg.read reference second)) : Uniform P Q (Peg.read reference (.alt first second)) := by
  intro before shape hs
  rcases h before shape hs with hf | ⟨stretch, rest, trees, rfl, hq, hpass⟩
  · rcases h' before shape ⟨hs, before, hf⟩ with hf' | ⟨stretch, rest, trees, rfl, hq, hpass⟩
    · exact .inl fun σ hσ => by rw [Peg.read, hf σ hσ, hf' σ hσ]
    · refine .inr ⟨stretch, rest, trees, rfl, hq, hpass.cover, hpass.headed, fun σ hσ => ?_⟩
      rw [Peg.read, hf σ hσ, hpass.reads σ hσ]
  · refine .inr ⟨stretch, rest, trees, rfl, hq, hpass.cover, hpass.headed, fun σ hσ => ?_⟩
    rw [Peg.read, hpass.reads σ hσ]

theorem alt (h : Uniform P Q (Peg.read reference first)) (h' : Uniform P Q (Peg.read reference second)) :
    Uniform P Q (Peg.read reference (.alt first second)) :=
  h.orElse (h'.strengthen fun _ hs => hs.1)

theorem «unless» (h : Uniform P Q (Peg.read reference body)) :
    Uniform P P (Peg.read reference (.unless body)) := by
  intro before shape hs
  rcases h before shape hs with hf | ⟨stretch, rest, trees, rfl, -, hpass⟩
  · refine .inr ⟨[], shape, [], rfl, hs, trivial, trivial, fun σ hσ => ?_⟩
    rw [Peg.read, List.nil_append, hf σ hσ]
    simp [fillAll]
  · exact .inl fun σ hσ => by rw [Peg.read, hpass.reads σ hσ]

/-- A repetition ends where its body fails. -/
theorem star (hbody : Peg.Passing (Peg.read reference body)) (h : Uniform P P (Peg.read reference body)) :
    Uniform P (fun shape => P shape ∧ ∃ before, Fails (Peg.read reference body) before shape)
      (Peg.read reference (.star body)) := by
  intro before shape hs
  right
  induction hn : shape.length using Nat.strongRecOn generalizing before shape with
  | _ n ih =>
    subst hn
    rcases h before shape hs with hf | ⟨stretch, rest, trees, rfl, hq, hpass⟩
    · refine ⟨[], shape, [], rfl, ⟨hs, before, hf⟩, trivial, trivial, fun σ hσ => ?_⟩
      rw [Peg.read_star hbody, List.nil_append, hf σ hσ]
      simp [fillAll]
    · have hne : stretch ≠ [] := by
        rintro rfl
        obtain ⟨σ, hσ⟩ := Shape.exists_fits rest
        have := hbody _ _ _ (hpass.reads σ hσ)
        simp [place] at this
      have hlt : rest.length < (stretch ++ rest).length := by
        have := List.length_pos_iff.mpr hne
        simp only [List.length_append]
        omega
      obtain ⟨more, last, others, rfl, hl, hpass'⟩ := ih rest.length hlt (before ++ stretch) rest hq rfl
      refine ⟨stretch ++ more, last, trees ++ others, by simp, hl, ?_, ?_, fun σ hσ => ?_⟩
      · exact ShapeTree.cover_append hpass.cover hpass'.cover
      · exact ShapeTree.allHeaded_append hpass.headed hpass'.headed
      · rw [List.append_assoc] at hσ ⊢
        rw [Peg.read_star hbody, hpass.reads σ hσ]
        simp [hpass'.reads σ hσ.right]

theorem token (rule : Rule) (h : Uniform P Q (Peg.read reference body)) :
    Uniform P Q (Peg.read reference (.token rule body)) := by
  intro before shape hs
  rcases h before shape hs with hf | ⟨stretch, rest, trees, rfl, hq, hpass⟩
  · exact .inl fun σ hσ => by rw [Peg.read, hf σ hσ, Option.map_none]
  · refine .inr ⟨stretch, rest, [.leaf rule before stretch], rfl, hq, ?_, ?_, fun σ hσ => ?_⟩
    · exact ⟨[], stretch, [], by simp, ⟨by simp, rfl⟩, trivial⟩
    · exact ⟨trivial, trivial⟩
    · rw [Peg.read, hpass.reads σ hσ]
      simp [place, fillAll, ShapeTree.fill]

/-- A node adds no head, but for a path. -/
theorem node {rule : Rule} (hrule : rule ≠ .path) (h : Uniform P Q (Peg.read reference body)) :
    Uniform P Q (Peg.read reference (.node rule body)) := by
  intro before shape hs
  rcases h before shape hs with hf | ⟨stretch, rest, trees, rfl, hq, hpass⟩
  · exact .inl fun σ hσ => by rw [Peg.read, hf σ hσ, Option.map_none]
  · refine .inr ⟨stretch, rest, [.node rule before trees], rfl, hq, ?_, ?_, fun σ hσ => ?_⟩
    · exact ⟨[], stretch, [], by simp, ⟨by simp, by simpa using hpass.cover⟩, trivial⟩
    · exact ⟨ShapeTree.headed_node hrule hpass.headed, trivial⟩
    · rw [Peg.read, hpass.reads σ hσ]
      simp [place, fillAll, ShapeTree.fill]

end Uniform

end DynamicSql.Expr
