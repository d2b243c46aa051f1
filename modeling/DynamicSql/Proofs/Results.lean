import Mathlib.Data.List.Forall2

/-!
Results that may be errors, and lists that are related member by member.
-/

namespace Except

variable {ε ε' α β γ : Type} {x : Except ε α}

/-- A mapped result is there just where the result is. -/
theorem map_eq_ok_iff {f : α → β} {b : β} : x.map f = .ok b ↔ ∃ a, x = .ok a ∧ f a = b := by
  cases x <;> simp [Except.map]

/-- Mapping a result leaves its error. -/
theorem map_eq_error_iff {f : α → β} {e : ε} : x.map f = .error e ↔ x = .error e := by
  cases x <;> simp [Except.map]

theorem map_map (x : Except ε α) (f : α → β) (g : β → γ) : (x.map f).map g = x.map fun a => g (f a) := by
  cases x <;> rfl

/-- Mapping an error leaves the result. -/
theorem mapError_eq_ok_iff {f : ε → ε'} {a : α} : x.mapError f = .ok a ↔ x = .ok a := by
  cases x <;> simp [Except.mapError]

theorem mapError_eq_error_iff {f : ε → ε'} {e : ε'} : x.mapError f = .error e ↔ ∃ e', x = .error e' ∧ f e' = e := by
  cases x <;> simp [Except.mapError]

theorem bind_eq_ok_iff {f : α → Except ε β} {b : β} : (x >>= f) = .ok b ↔ ∃ a, x = .ok a ∧ f a = .ok b := by
  cases x <;> simp [bind, Except.bind]

end Except

namespace List

variable {α β γ : Type} {R : α → β → Prop} {Q : β → γ → Prop} {S : α → γ → Prop}

/-- A list has related members just where each of its members has one. -/
theorem exists_forall₂_iff {as : List α} : (∃ bs, Forall₂ R as bs) ↔ ∀ a ∈ as, ∃ b, R a b := by
  induction as with
  | nil => simp
  | cons a as ih =>
    simp only [forall₂_cons_left_iff, forall_mem_cons, ← ih]
    constructor
    · rintro ⟨_, b, bs, hb, hbs, rfl⟩
      exact ⟨⟨b, hb⟩, bs, hbs⟩
    · rintro ⟨⟨b, hb⟩, bs, hbs⟩
      exact ⟨_, b, bs, hb, hbs, rfl⟩

/-- Relations compose member by member. -/
theorem Forall₂.comp {as : List α} {bs : List β} {cs : List γ} (h : Forall₂ R as bs) (h' : Forall₂ Q bs cs)
    (hc : ∀ a b c, R a b → Q b c → S a c) : Forall₂ S as cs := by
  induction h generalizing cs with
  | nil =>
    cases h'
    exact .nil
  | cons hr _ ih =>
    cases h' with
    | cons hq hrest => exact .cons (hc _ _ _ hr hq) (ih hrest)

end List
