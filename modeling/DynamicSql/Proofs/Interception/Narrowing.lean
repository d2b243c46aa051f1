import DynamicSql.Proofs.Interception.Reach

/-!
The kinds of a wrapped component. From the last interceptor to the first, each declaration narrows what is
exposed to the kinds in common, and counts for nothing where there are none. Main statement: wrapping exposes
exactly the kinds that are left so, and gives the component itself exactly when no interceptor declares a kind of
it.
-/
namespace DynamicSql

namespace KindSet

/-- What stays of a set beside a declaration: the kinds in common, or all where there are none. -/
def narrow (running declared : KindSet) : KindSet :=
  if (running.inter declared).isEmpty then running else running.inter declared

variable {running declared : KindSet} {kind : ComponentKind}

theorem contains_of_narrow (h : (running.narrow declared).contains kind = true) : running.contains kind = true := by
  unfold narrow at h
  split at h
  · exact h
  · rw [contains_inter, Bool.and_eq_true] at h
    exact h.1

end KindSet

variable {World : Type} {base c layer inner : Component World} {i : Interceptor World} {index : SignatureIndex}
  {interceptors later : List (Interceptor World)} {chain : Chain World} {kind : ComponentKind} {kinds : KindSet}

namespace Interceptor

def declaredKinds (i : Interceptor World) : KindSet :=
  .ofList ((i.signatures.filterMap Signature.operation?).map Operation.kind)

theorem contains_declaredKinds : i.declaredKinds.contains kind = true ↔ i.DeclaresKind kind := by
  rw [declaredKinds, KindSet.contains_ofList]
  simp [DeclaresKind, Declares, SignatureIndex.Names]

theorem kinds_of_index (h : i.index = .ok index) : index.kinds = i.declaredKinds := by
  refine KindSet.ext_contains fun kind => Bool.eq_iff_iff.mpr ?_
  rw [contains_kinds_of_index h, contains_declaredKinds]

/-- A wrapper exposes the declared kinds among those inside, or all of them when there are none. -/
theorem exposed_wrapWith (h : i.index = .ok index) (hagree : inner.kinds = inner.exposed) :
    (i.wrapWith index inner).component.exposed = inner.exposed.narrow i.declaredKinds := by
  rw [wrapWith, kinds_of_index h, hagree, KindSet.narrow]
  split <;> rfl

end Interceptor

namespace Component

/-- The second component is the first, or has wrappers around it. -/
inductive Around (base : Component World) : Component World → Prop where
  | itself : Around base base
  | wrapper {inner : Component World} {i : Interceptor World} {index : SignatureIndex} {kinds : KindSet} :
      Around base inner → Around base (.wrapper inner i index kinds)

theorem Around.trans (h : Around base layer) (h' : Around layer c) : Around base c := by
  induction h' with
  | itself => exact h
  | wrapper _ ih => exact .wrapper ih

/-- What is around a component has as many layers at least. -/
theorem Around.layers_le (h : Around base c) : base.layers ≤ c.layers := by
  induction h with
  | itself => exact Nat.le_refl _
  | wrapper _ ih => exact Nat.le_succ_of_le ih

theorem Around.wrapper_ne (h : Around base inner) : Component.wrapper inner i index kinds ≠ base := by
  rintro rfl
  exact Nat.not_succ_le_self _ h.layers_le

/--
The component exposes what it says it has; a wrapper around the base has the kinds that its interceptor declares
and the component behind it exposes, and there are some.
-/
def Fits (base layer : Component World) : Prop :=
  layer.kinds = layer.exposed ∧ ∀ inner i index kinds, layer = .wrapper inner i index kinds → Around base inner →
    kinds = inner.exposed.inter i.declaredKinds ∧ kinds.isEmpty = false

end Component

namespace Chain

open Component (Around Fits)

/-- One wrapping narrows what is exposed, and leaves alone a component that has no kind in common. -/
theorem wrapWith_cases_of_agree (h : i.index = .ok index) (hagree : inner.kinds = inner.exposed) :
    ((inner.exposed.inter i.declaredKinds).isEmpty = true ∧ (i.wrapWith index inner).component = inner) ∨
      (inner.exposed.inter i.declaredKinds).isEmpty = false ∧ (i.wrapWith index inner).component =
        .wrapper inner i index (inner.exposed.inter i.declaredKinds) := by
  rw [Interceptor.wrapWith, Interceptor.kinds_of_index h, hagree]
  cases hempty : (inner.exposed.inter i.declaredKinds).isEmpty with
  | true => exact .inl ⟨rfl, rfl⟩
  | false => exact .inr ⟨rfl, rfl⟩

/-- The kinds are narrowed once for each interceptor, from the innermost on. -/
theorem exposed_eq_foldr (hb : base.kinds = base.exposed) (h : wrapAll interceptors base = .ok c) :
    c.exposed = interceptors.foldr (fun i running => running.narrow i.declaredKinds) base.exposed := by
  induction interceptors generalizing c with
  | nil =>
    obtain rfl := Except.ok.inj h
    rfl
  | cons i later ih =>
    obtain ⟨inner, index, hinner, hindex, rfl⟩ := wrapAll_cons_eq_ok_iff.mp h
    rw [Interceptor.exposed_wrapWith hindex (exposed_of_wrapAll hb hinner), List.foldr_cons, ih hinner]

/-- What the declarations leave is part of what was there. -/
theorem contains_of_foldr {running : KindSet}
    (h : (interceptors.foldr (fun i running => running.narrow i.declaredKinds) running).contains kind = true) :
    running.contains kind = true := by
  induction interceptors with
  | nil => exact h
  | cons i later ih => exact ih (KindSet.contains_of_narrow h)

theorem around_of_wrapAll (h : wrapAll interceptors base = .ok c) : Around base c :=
  wrapAll_induction h .itself fun _ _ _ _ => .wrapper

/-- Every layer of a wrapped component exposes kinds of the layer inside it. -/
theorem fits_of_wrapAll (hb : base.kinds = base.exposed) (h : wrapAll interceptors base = .ok c)
    (hbase : Around base layer) (hlayer : Around layer c) : Fits base layer := by
  induction interceptors generalizing c with
  | nil =>
    obtain rfl := Except.ok.inj h
    cases hlayer with
    | itself => exact ⟨hb, fun inner i index kinds heq hin => absurd heq.symm hin.wrapper_ne⟩
    | wrapper hin => exact absurd rfl (hbase.trans hin).wrapper_ne
  | cons i later ih =>
    obtain ⟨inner, index, hinner, hindex, rfl⟩ := wrapAll_cons_eq_ok_iff.mp h
    cases wrapWith_cases_of_agree hindex (exposed_of_wrapAll hb hinner) with
    | inl hnone => exact ih hinner (hnone.2 ▸ hlayer)
    | inr hsome =>
      obtain ⟨hsome, hc⟩ := hsome
      rw [hc] at hlayer
      -- Only the outermost layer is new; the ones behind it were there for the later interceptors.
      cases hlayer with
      | wrapper hin => exact ih hinner hin
      | itself =>
        refine ⟨rfl, fun inner' i' index' kinds' heq _ => ?_⟩
        cases heq
        exact ⟨rfl, hsome⟩

/-- Wrapping gives the component itself exactly where no declaration has a kind in common with it. -/
theorem eq_base_iff (hb : base.kinds = base.exposed) (h : wrapAll interceptors base = .ok c) :
    c = base ↔ ∀ i ∈ interceptors, (base.exposed.inter i.declaredKinds).isEmpty = true := by
  induction interceptors generalizing c with
  | nil =>
    obtain rfl := Except.ok.inj h
    simp
  | cons i later ih =>
    obtain ⟨inner, index, hinner, hindex, rfl⟩ := wrapAll_cons_eq_ok_iff.mp h
    rw [List.forall_mem_cons, ← ih hinner]
    cases wrapWith_cases_of_agree hindex (exposed_of_wrapAll hb hinner) with
    | inl hnone =>
      obtain ⟨hempty, hc⟩ := hnone
      rw [hc]
      constructor
      · rintro rfl
        exact ⟨hempty, rfl⟩
      · exact And.right
    | inr hsome =>
      obtain ⟨hsome, hc⟩ := hsome
      rw [hc]
      refine iff_of_false (around_of_wrapAll hinner).wrapper_ne ?_
      rintro ⟨hempty, rfl⟩
      rw [hempty] at hsome
      cases hsome

/-- What wrapping makes of a component exposes something, unless it is the component itself. -/
theorem isEmpty_exposed (hb : base.kinds = base.exposed) (h : wrapAll interceptors base = .ok c) (hne : c ≠ base) :
    c.exposed.isEmpty = false := by
  have hfits : Fits base c := fits_of_wrapAll hb h (around_of_wrapAll h) .itself
  cases around_of_wrapAll h with
  | itself => exact absurd rfl hne
  | wrapper hin => exact (hfits.2 _ _ _ _ rfl hin).2

/--
Where all declarations are valid and the component exposes what it says, the wrapped component is the component
itself exactly when no interceptor declares a kind that it exposes, and otherwise exposes some of its kinds. These
are what the declarations leave, from the last registered to the first, where one without a kind in common counts
for nothing. Each layer exposes what it says, which is what its interceptor and the layer behind it have in
common.
-/
theorem applyAll_narrows (hc : chain.Reachable) (hv : ∀ i ∈ chain.interceptors, i.Valid)
    (hb : base.kinds = base.exposed) :
    ∃ c, (chain.applyAll base).1 = .ok c ∧
      (c = base ↔ ∀ i ∈ chain.interceptors, ∀ kind, i.DeclaresKind kind → base.exposed.contains kind = false) ∧
      (c ≠ base → c.exposed.isEmpty = false ∧
        ∀ kind, c.exposed.contains kind = true → base.exposed.contains kind = true) ∧
      c.exposed =
        chain.interceptors.foldr (fun i running => running.narrow i.declaredKinds) base.exposed ∧
      ∀ layer, Around base layer → Around layer c → Fits base layer := by
  obtain ⟨c, h⟩ := (exists_wrapAll_iff base).mpr hv
  have hfold := exposed_eq_foldr hb h
  refine ⟨c, (hc.applyAll base).trans h, ?_, fun hne => ⟨isEmpty_exposed hb h hne, fun kind hk => ?_⟩, hfold,
    fun layer => fits_of_wrapAll hb h⟩
  · rw [eq_base_iff hb h]
    refine forall₂_congr fun i _ => ?_
    rw [KindSet.isEmpty_iff]
    refine forall_congr' fun kind => ?_
    rw [KindSet.contains_inter, ← Interceptor.contains_declaredKinds]
    cases base.exposed.contains kind <;> simp
  · exact contains_of_foldr (hfold ▸ hk)

end Chain

/-! The office, whose statements are left alone: a binder is declared, but the office has none. -/

def officeChain : Chain (List Text) :=
  Chain.ofList [tenant, observer [⟨.parameterBinder, "setParameters"⟩], steward]

theorem officeChain_narrows : ∃ c, (officeChain.applyAll office).1 = .ok c ∧ c ≠ office ∧
    c.exposed = .ofList [.executor] ∧ ∀ layer, Component.Around office layer → Component.Around layer c →
      Component.Fits office layer := by
  have hvalid : ∀ i ∈ officeChain.interceptors, i.Valid := by decide
  have hagree : office.kinds = office.exposed := rfl
  obtain ⟨c, h, hsame, -, hfold, hlayers⟩ := Chain.applyAll_narrows (Chain.reachable_ofList _) hvalid hagree
  refine ⟨c, h, fun he => ?_, hfold.trans rfl, hlayers⟩
  have hexecutor := hsame.mp he tenant List.mem_cons_self .executor ⟨.query, by decide, rfl⟩
  cases hexecutor

end DynamicSql
