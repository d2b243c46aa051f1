import DynamicSql.Proofs.Peg

/-!
What a reading passes: the stretch of text between two places, with its trees. Main statement: what holds of
every stretch that the recursive rule passes, as soon as it holds of those inside it, holds at any depth.
-/
namespace DynamicSql.Peg

variable {Rule : Type} {reference : Reading Rule} {first second body : Peg Rule}
  {S T U : Text → List (Tree Rule) → Prop}

theorem read_seq_eq_some_iff {p r : Place} {us : List (Tree Rule)} :
    read reference (.seq first second) p = some (r, us) ↔ ∃ q ts vs,
      read reference first p = some (q, ts) ∧ read reference second q = some (r, vs) ∧ us = ts ++ vs := by
  rw [read_seq]
  constructor
  · intro h
    split at h
    · cases h
    · next q ts hq =>
      obtain ⟨⟨_, vs⟩, hs, heq⟩ := Option.map_eq_some_iff.mp h
      cases heq
      exact ⟨q, ts, vs, hq, hs, rfl⟩
  · rintro ⟨q, ts, vs, hf, hs, rfl⟩
    simp only [hf, hs, Option.map_some]

/-- From one place to the other over a stretch of text. -/
structure Stretch (p : Place) (w : Text) (q : Place) : Prop where
  rest : p.rest = w ++ q.rest
  passed : q.passed = p.passed + w.length

namespace Stretch

variable {p q r : Place} {w v : Text}

theorem nil (p : Place) : Stretch p [] p := ⟨rfl, rfl⟩

theorem append (h : Stretch p w q) (h' : Stretch q v r) : Stretch p (w ++ v) r where
  rest := by rw [h.rest, h'.rest, List.append_assoc]
  passed := by rw [h'.passed, h.passed, List.length_append, Nat.add_assoc]

theorem eq_of_nil (h : Stretch p [] q) : q = p := by
  obtain ⟨hr, hp⟩ := h
  cases p
  cases q
  simp_all

/-- The text of a token. -/
theorem take (h : Stretch p w q) : p.rest.take (q.passed - p.passed) = w := by
  simp [h.rest, h.passed]

end Stretch

/-- Every stretch that is passed, and its trees, are as told. -/
def Reads (S : Text → List (Tree Rule) → Prop) (reading : Reading Rule) : Prop :=
  ∀ p q ts, reading p = some (q, ts) → ∃ w, Stretch p w q ∧ S w ts

namespace Reads

theorem imp {reading : Reading Rule} (h : Reads S reading) (hst : ∀ w ts, S w ts → T w ts) :
    Reads T reading := by
  intro p q ts hp
  obtain ⟨w, hw, hs⟩ := h p q ts hp
  exact ⟨w, hw, hst w ts hs⟩

theorem empty (h : S [] []) : Reads S (read reference .empty) := by
  intro p q ts hp
  cases hp
  exact ⟨[], .nil p, h⟩

theorem one {accepts : Char → Bool} (h : ∀ c, accepts c = true → S [c] []) :
    Reads S (read reference (.one accepts)) := by
  intro p q ts hp
  rw [read] at hp
  split at hp
  · next c rest hr =>
    split at hp
    · next hc =>
      cases hp
      exact ⟨[c], ⟨hr, rfl⟩, h c hc⟩
    · cases hp
  · cases hp

theorem word {w : Text} (h : S w []) : Reads S (read reference (.word w)) := by
  intro p q ts hp
  simp only [read, Option.map_eq_some_iff, Text.after?_eq_some_iff, Prod.mk.injEq] at hp
  obtain ⟨rest, hr, rfl, rfl⟩ := hp
  exact ⟨w, ⟨hr, rfl⟩, h⟩

theorem seq (hf : Reads S (read reference first)) (hs : Reads T (read reference second))
    (h : ∀ w ts v us, S w ts → T v us → U (w ++ v) (ts ++ us)) :
    Reads U (read reference (.seq first second)) := by
  intro p r us hp
  obtain ⟨q, ts, vs, hq, hr, rfl⟩ := read_seq_eq_some_iff.mp hp
  obtain ⟨w, hw, hsw⟩ := hf p q ts hq
  obtain ⟨v, hv, htv⟩ := hs q r vs hr
  exact ⟨w ++ v, hw.append hv, h w ts v vs hsw htv⟩

theorem alt (hf : Reads S (read reference first)) (hs : Reads S (read reference second)) :
    Reads S (read reference (.alt first second)) := by
  intro p q ts hp
  rw [read] at hp
  split at hp
  · exact hs p q ts hp
  · next r hr =>
    cases hp
    exact hf p q ts hr

theorem star (hb : Reads S (read reference body)) (hnil : T [] [])
    (hcons : ∀ w ts v us, S w ts → T v us → T (w ++ v) (ts ++ us)) :
    Reads T (read reference (.star body)) := by
  have hrep : ∀ fuel, Reads T (repeated (read reference body) fuel) := by
    intro fuel
    induction fuel with
    | nil =>
      intro p q ts hp
      cases hp
      exact ⟨[], .nil p, hnil⟩
    | cons c fuel ih =>
      intro p q ts hp
      rw [repeated] at hp
      split at hp
      · cases hp
        exact ⟨[], .nil p, hnil⟩
      · next mid more hm =>
        simp only [Option.map_eq_some_iff, Prod.exists, Prod.mk.injEq] at hp
        obtain ⟨last, rest, hl, rfl, rfl⟩ := hp
        obtain ⟨w, hw, hsw⟩ := hb p mid more hm
        obtain ⟨v, hv, htv⟩ := ih mid last rest hl
        exact ⟨w ++ v, hw.append hv, hcons w more v rest hsw htv⟩
  exact fun p => hrep p.rest p

theorem «unless» (h : S [] []) : Reads S (read reference (.unless body)) := by
  intro p q ts hp
  rw [read_unless] at hp
  split at hp
  · cases hp
    exact ⟨[], .nil p, h⟩
  · cases hp

theorem ended (h : S [] []) : Reads S (read reference .ended) := by
  intro p q ts hp
  rw [read] at hp
  split at hp
  · cases hp
    exact ⟨[], .nil p, h⟩
  · cases hp

/-- A token leaves what its body passed, and none of its trees. -/
theorem token {rule : Rule} (hb : Reads S (read reference body))
    (h : ∀ w ts start, S w ts → T w [.leaf rule start w]) : Reads T (read reference (.token rule body)) := by
  intro p q ts hp
  simp only [read_token, Option.map_eq_some_iff, Prod.exists, Prod.mk.injEq] at hp
  obtain ⟨mid, more, hm, rfl, rfl⟩ := hp
  obtain ⟨w, hw, hsw⟩ := hb p mid more hm
  exact ⟨w, hw, hw.take ▸ h w more p.passed hsw⟩

/-- A node holds the trees that its body leaves. -/
theorem node {rule : Rule} (hb : Reads S (read reference body))
    (h : ∀ w ts start, S w ts → T w [.node rule start ts]) : Reads T (read reference (.node rule body)) := by
  intro p q ts hp
  simp only [read_node, Option.map_eq_some_iff, Prod.exists, Prod.mk.injEq] at hp
  obtain ⟨mid, more, hm, rfl, rfl⟩ := hp
  obtain ⟨w, hw, hsw⟩ := hb p mid more hm
  exact ⟨w, hw, h w more p.passed hsw⟩

end Reads

/-- The induction over the depth at which the recursive rule stands in itself. -/
theorem readLevel_reads {recursive : Peg Rule}
    (h : ∀ reference : Reading Rule, Reads S reference → Reads S (read reference recursive)) (depth : Nat) :
    Reads S (readLevel recursive depth) := by
  induction depth with
  | zero =>
    intro p q ts hp
    cases hp
  | succ depth ih => exact h (readLevel recursive depth) ih

end DynamicSql.Peg
