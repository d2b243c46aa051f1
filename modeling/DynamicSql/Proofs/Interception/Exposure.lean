import DynamicSql.Proofs.Interception.History

/-!
What a wrapped component exposes. A wrapper has the kinds that its interceptor and the component behind it have
in common, and there is none where they have no kind in common. So a kind stays as long as each interceptor that
gets a wrapper declares it.
-/
namespace DynamicSql

variable {World : Type} {base c : Component World} {i : Interceptor World} {index : SignatureIndex}
  {interceptors later : List (Interceptor World)} {kind : ComponentKind}

def Interceptor.Matches (i : Interceptor World) (c : Component World) : Prop :=
  ∃ kind, c.kinds.contains kind = true ∧ i.DeclaresKind kind

theorem Interceptor.Declares.matches {op : Operation} (h : i.Declares op) (hk : c.kinds.contains op.kind = true) :
    i.Matches c :=
  ⟨op.kind, hk, h.declaresKind⟩

/-- The kinds have nothing in common exactly when the interceptor does not match. -/
theorem Interceptor.isEmpty_kinds_iff (h : i.index = .ok index) :
    (c.kinds.inter index.kinds).isEmpty = true ↔ ¬ i.Matches c := by
  rw [KindSet.isEmpty_iff, Matches, not_exists]
  refine forall_congr' fun kind => ?_
  rw [KindSet.contains_inter, ← contains_kinds_of_index h, ← Bool.and_eq_true, Bool.not_eq_true]

/-- Wrapping leaves a component as it is, or makes a wrapper for the kinds in common. -/
theorem Interceptor.wrapWith_cases (h : i.index = .ok index) (c : Component World) :
    (¬ i.Matches c ∧ (i.wrapWith index c).component = c) ∨
      i.Matches c ∧ ∃ kinds, (i.wrapWith index c).component = .wrapper c i index kinds ∧
        ∀ kind, kinds.contains kind = true ↔ c.kinds.contains kind = true ∧ i.DeclaresKind kind := by
  by_cases hm : i.Matches c
  · have hempty : ¬ (c.kinds.inter index.kinds).isEmpty = true := fun he => (isEmpty_kinds_iff h).mp he hm
    refine .inr ⟨hm, c.kinds.inter index.kinds, ?_, fun kind => ?_⟩
    · rw [wrapWith, if_neg hempty]
      rfl
    · rw [KindSet.contains_inter, Bool.and_eq_true, contains_kinds_of_index h]
  · refine .inl ⟨hm, ?_⟩
    rw [wrapWith, if_pos ((isEmpty_kinds_iff h).mpr hm)]
    rfl

namespace Chain

/-- What holds of the component at the core, and of a wrapper as of what is inside, holds of what wrapping makes. -/
theorem wrapAll_induction {P : Component World → Prop} (h : wrapAll interceptors base = .ok c) (hbase : P base)
    (hwrapper : ∀ inner i index kinds, P inner → P (.wrapper inner i index kinds)) : P c := by
  induction interceptors generalizing c with
  | nil =>
    obtain rfl := Except.ok.inj h
    exact hbase
  | cons i later ih =>
    obtain ⟨inner, index, hinner, hindex, rfl⟩ := wrapAll_cons_eq_ok_iff.mp h
    cases i.wrapWith_cases hindex inner with
    | inl hnone =>
      rw [hnone.2]
      exact ih hinner
    | inr hsome =>
      obtain ⟨-, kinds, hc, -⟩ := hsome
      rw [hc]
      exact hwrapper inner i index kinds (ih hinner)

/-- Wrapping leaves the target alone, or makes something that exposes what it says. -/
theorem eq_or_exposed_of_wrapAll (h : wrapAll interceptors base = .ok c) : c = base ∨ c.kinds = c.exposed :=
  wrapAll_induction (P := fun c => c = base ∨ c.kinds = c.exposed) h (.inl rfl) fun _ _ _ _ _ => .inr rfl

/-- Around a component that exposes all its kinds, wrapping narrows both alike. -/
theorem exposed_of_wrapAll (hb : base.kinds = base.exposed) (h : wrapAll interceptors base = .ok c) :
    c.kinds = c.exposed :=
  wrapAll_induction (P := fun c => c.kinds = c.exposed) h hb fun _ _ _ _ _ => rfl

/--
Around a component that exposes what it says, an interceptor is left out where it does not declare an operation
that stays exposed, or has a wrapper that knows what it declares.
-/
theorem wrapAll_cons_cases {op : Operation} (hb : base.kinds = base.exposed)
    (h : wrapAll (i :: later) base = .ok c) (he : c.exposed.contains op.kind = true) :
    ∃ inner, wrapAll later base = .ok inner ∧ inner.exposed.contains op.kind = true ∧
      ((¬ i.Declares op ∧ c = inner) ∨
        ∃ index kinds, c = .wrapper inner i index kinds ∧ (index.contains op = true ↔ i.Declares op)) := by
  obtain ⟨inner, index, hinner, hindex, rfl⟩ := wrapAll_cons_eq_ok_iff.mp h
  have hagree : inner.kinds = inner.exposed := exposed_of_wrapAll hb hinner
  refine ⟨inner, hinner, ?_⟩
  cases i.wrapWith_cases hindex inner with
  | inl hnone =>
    obtain ⟨hm, hc⟩ := hnone
    rw [hc] at he
    exact ⟨he, .inl ⟨fun hd => hm (hd.matches (hagree ▸ he)), hc⟩⟩
  | inr hsome =>
    obtain ⟨-, kinds, hc, hkinds⟩ := hsome
    rw [hc] at he
    exact ⟨hagree ▸ ((hkinds op.kind).mp he).1, .inr ⟨index, kinds, hc, Interceptor.contains_of_index hindex⟩⟩

/--
Each interceptor that matches the component, as those registered after it leave it, declares an operation of
the kind.
-/
def Keeps (kind : ComponentKind) (base : Component World) (interceptors : List (Interceptor World)) : Prop :=
  ∀ earlier i later c, interceptors = earlier ++ i :: later → wrapAll later base = .ok c → i.Matches c →
    i.DeclaresKind kind

/-- The outermost interceptor narrows what those behind it have kept. -/
theorem keeps_cons_iff {inner : Component World} (hinner : wrapAll later base = .ok inner) :
    Keeps kind base (i :: later) ↔ (i.Matches inner → i.DeclaresKind kind) ∧ Keeps kind base later := by
  constructor
  · intro h
    refine ⟨h [] i later inner rfl hinner, fun earlier j rest c hsplit => ?_⟩
    exact h (i :: earlier) j rest c (hsplit ▸ rfl)
  · rintro ⟨hhead, htail⟩ earlier j rest c hsplit hc hm
    cases earlier with
    | nil =>
      obtain ⟨rfl, rfl⟩ := List.cons.inj hsplit
      obtain rfl := Except.ok.inj (hinner.symm.trans hc)
      exact hhead hm
    | cons first earlier =>
      obtain ⟨-, rfl⟩ := List.cons.inj hsplit
      exact htail earlier j rest c rfl hc hm

/-- The kinds of a wrapped component are those of the target that are kept. -/
theorem contains_kinds_of_wrapAll (h : wrapAll interceptors base = .ok c) :
    c.kinds.contains kind = true ↔ base.kinds.contains kind = true ∧ Keeps kind base interceptors := by
  induction interceptors generalizing c with
  | nil =>
    obtain rfl := Except.ok.inj h
    refine (and_iff_left ?_).symm
    intro earlier i later c hsplit
    exact absurd hsplit (by simp)
  | cons i later ih =>
    obtain ⟨inner, index, hinner, hindex, rfl⟩ := wrapAll_cons_eq_ok_iff.mp h
    rw [keeps_cons_iff hinner, and_left_comm, ← ih hinner]
    cases i.wrapWith_cases hindex inner with
    | inl hnone =>
      rw [hnone.2]
      exact (and_iff_right fun hm => absurd hm hnone.1).symm
    | inr hsome =>
      obtain ⟨hm, kinds, hc, hkinds⟩ := hsome
      rw [hc, and_comm]
      change kinds.contains kind = true ↔ _
      rw [hkinds]
      exact and_congr_right fun _ => ⟨fun hd _ => hd, fun hd => hd hm⟩

end Chain

end DynamicSql
