import DynamicSql.Interception.Chain
import DynamicSql.Proofs.Interception.Declaration

/-!
Chains over time. Main statement: whatever has been registered and applied before, applying a chain comes to
wrapping with one interceptor after the other, from the last to the first, with indices built anew; so an
index that was kept, also one that an application kept which then failed, is never that of another interceptor.
-/
namespace DynamicSql.Chain

variable {World : Type} {chain : Chain World} {slots : List (Slot World)} {target : Component World}

/-! What can be done with a chain. -/

inductive Step (World : Type) where
  | register (i : Interceptor World)
  | registerIf (on : Bool) (i : Interceptor World)
  | apply (target : Component World)

def Step.interceptors : Step World → List (Interceptor World)
  | register i => [i]
  | registerIf on i => if on then [i] else []
  | apply _ => []

def step (chain : Chain World) : Step World → Chain World
  | .register i => chain.register i
  | .registerIf on i => chain.registerIf on i
  | .apply target => (chain.applyAll target).2

def after (chain : Chain World) (history : List (Step World)) : Chain World := history.foldl step chain

def registered (history : List (Step World)) : List (Interceptor World) := history.flatMap Step.interceptors

/-- Some history leaves the chain, from whatever list it was made. -/
def Reachable (chain : Chain World) : Prop :=
  ∃ initial history, chain = (ofList initial).after history

/-! Kept indices. -/

/-- An index that was kept is the one that would be built. -/
def Kept (slots : List (Slot World)) : Prop :=
  ∀ slot ∈ slots, ∀ index ∈ slot.index, slot.interceptor.index = .ok index

theorem Kept.indexed {slot : Slot World} (h : Kept (slot :: slots)) : slot.indexed = slot.interceptor.index := by
  unfold Slot.indexed
  cases hindex : slot.index with
  | none => rfl
  | some index => exact (h slot List.mem_cons_self index hindex).symm

theorem Kept.tail {slot : Slot World} (h : Kept (slot :: slots)) : Kept slots :=
  fun other ho => h other (List.mem_cons_of_mem slot ho)

/-- A slot whose index is the interceptor's may be put before those that are kept. -/
theorem Kept.cons {slot : Slot World} (hs : ∀ index ∈ slot.index, slot.interceptor.index = .ok index)
    (h : Kept slots) : Kept (slot :: slots) := by
  intro other ho
  cases List.mem_cons.mp ho with
  | inl he => exact he ▸ hs
  | inr hm => exact h other hm

theorem kept_ofList (interceptors : List (Interceptor World)) : Kept (ofList interceptors).slots := by
  intro slot hs index hi
  obtain ⟨i, -, rfl⟩ := List.mem_map.mp hs
  cases hi

/-- Registering an interceptor leaves the cached indices as they are. -/
theorem Kept.register (h : Kept chain.slots) (i : Interceptor World) : Kept (chain.register i).slots := by
  intro slot hs
  cases List.mem_append.mp hs with
  | inl hm => exact h slot hm
  | inr hm =>
    obtain rfl := List.mem_singleton.mp hm
    intro index hi
    cases hi

/-- Applying keeps the slots in their places, each with its own index. -/
theorem Kept.applySlots (h : Kept slots) (target : Component World) :
    Kept (applySlots slots target).2 ∧
      (Chain.applySlots slots target).2.map Slot.interceptor = slots.map Slot.interceptor ∧
      (Chain.applySlots slots target).1 = wrapAll (slots.map Slot.interceptor) target := by
  induction slots with
  | nil => exact ⟨h, rfl, rfl⟩
  | cons slot rest ih =>
    obtain ⟨hkept, hsame, hwrap⟩ := ih h.tail
    have hhead := h slot List.mem_cons_self
    simp only [Chain.applySlots, List.map_cons, wrapAll, ← hwrap]
    cases hrest : Chain.applySlots rest target with
    | mk outcome slots =>
      rw [hrest] at hkept hsame
      cases outcome with
      | error f => exact ⟨hkept.cons hhead, by rw [List.map_cons, hsame], rfl⟩
      | ok inner =>
        rw [h.indexed]
        simp only [Interceptor.wrap]
        cases hindex : slot.interceptor.index with
        | error f => exact ⟨hkept.cons hhead, by rw [List.map_cons, hsame], rfl⟩
        | ok index =>
          refine ⟨hkept.cons ?_, by rw [List.map_cons, hsame], rfl⟩
          intro other ho
          exact Option.some.inj ho ▸ hindex

theorem Kept.step (h : Kept chain.slots) (s : Step World) : Kept (chain.step s).slots := by
  cases s with
  | register i => exact h.register i
  | registerIf on i =>
    cases on with
    | false => exact h
    | true => exact h.register i
  | apply target => exact (h.applySlots target).1

/-- A step adds the interceptor that it registers, and changes none. -/
theorem Kept.interceptors_step (h : Kept chain.slots) (s : Step World) :
    (chain.step s).interceptors = chain.interceptors ++ s.interceptors := by
  cases s with
  | register i => simp [Chain.step, Step.interceptors, Chain.register, interceptors]
  | registerIf on i =>
    cases on with
    | false => simp [Chain.step, Step.interceptors, registerIf]
    | true => simp [Chain.step, Step.interceptors, registerIf, Chain.register, interceptors]
  | apply target =>
    rw [Step.interceptors, List.append_nil]
    exact (h.applySlots target).2.1

theorem Kept.after (h : Kept chain.slots) (history : List (Step World)) :
    Kept (chain.after history).slots ∧
      (chain.after history).interceptors = chain.interceptors ++ registered history := by
  induction history generalizing chain with
  | nil => exact ⟨h, (List.append_nil _).symm⟩
  | cons s rest ih =>
    obtain ⟨hkept, hsame⟩ := ih (h.step s)
    refine ⟨hkept, hsame.trans ?_⟩
    rw [h.interceptors_step, List.append_assoc]
    rfl

/-- Whatever has happened to a chain, its cached indices are those of its interceptors. -/
theorem Reachable.kept (h : chain.Reachable) : Kept chain.slots := by
  obtain ⟨initial, history, rfl⟩ := h
  exact ((kept_ofList initial).after history).1

theorem Reachable.applyAll (h : chain.Reachable) (target : Component World) :
    (chain.applyAll target).1 = wrapAll chain.interceptors target :=
  (h.kept.applySlots target).2.2

theorem interceptors_ofList (interceptors : List (Interceptor World)) :
    (ofList interceptors).interceptors = interceptors := by
  simp [ofList, Chain.interceptors, Function.comp_def]

theorem reachable_ofList (interceptors : List (Interceptor World)) : (ofList interceptors).Reachable :=
  ⟨interceptors, [], rfl⟩

/-! Wrapping with one interceptor after the other. -/

/-- The first interceptor is wrapped around what the later ones made. -/
theorem wrapAll_cons_eq_ok_iff {i : Interceptor World} {later : List (Interceptor World)} {c : Component World} :
    wrapAll (i :: later) target = .ok c ↔ ∃ inner index, wrapAll later target = .ok inner ∧
      i.index = .ok index ∧ c = (i.wrapWith index inner).component := by
  simp only [wrapAll, Interceptor.wrap]
  cases wrapAll later target with
  | error f => simp
  | ok inner =>
    cases i.index with
    | error f => simp
    | ok index => simp [eq_comm]

theorem wrapAll_eq_foldrM (interceptors : List (Interceptor World)) (target : Component World) :
    wrapAll interceptors target =
      interceptors.foldrM (fun i c => Wrapping.component <$> i.wrap c) target := by
  induction interceptors with
  | nil => rfl
  | cons i later ih =>
    rw [List.foldrM_cons, ← ih, wrapAll]
    cases wrapAll later target with
    | error f => rfl
    | ok inner =>
      change _ = Wrapping.component <$> i.wrap inner
      dsimp only
      cases i.wrap inner <;> rfl

/-- A target is wrapped exactly when every interceptor is valid. -/
theorem exists_wrapAll_iff (target : Component World) {interceptors : List (Interceptor World)} :
    (∃ c, wrapAll interceptors target = .ok c) ↔ ∀ i ∈ interceptors, i.Valid := by
  induction interceptors with
  | nil => simp [wrapAll]
  | cons i later ih =>
    rw [List.forall_mem_cons, ← ih, ← Interceptor.exists_index_iff]
    constructor
    · rintro ⟨c, h⟩
      obtain ⟨inner, index, hinner, hindex, -⟩ := wrapAll_cons_eq_ok_iff.mp h
      exact ⟨⟨index, hindex⟩, inner, hinner⟩
    · rintro ⟨⟨index, hindex⟩, inner, hinner⟩
      exact ⟨_, wrapAll_cons_eq_ok_iff.mpr ⟨inner, index, hinner, hindex, rfl⟩⟩

/-- Wrapping fails with the fault of the last declaration that is not valid. -/
theorem wrapAll_eq_error_iff {interceptors : List (Interceptor World)} {f : Fault} :
    wrapAll interceptors target = .error f ↔ ∃ earlier i later, interceptors = earlier ++ i :: later ∧
      i.index = .error f ∧ ∀ j ∈ later, j.Valid := by
  induction interceptors with
  | nil => simp [wrapAll]
  | cons i later ih =>
    simp only [wrapAll, Interceptor.wrap]
    cases hlater : wrapAll later target with
    | error g =>
      rw [hlater] at ih
      simp only
      rw [ih]
      constructor
      · rintro ⟨earlier, j, rest, rfl, hj, hall⟩
        exact ⟨i :: earlier, j, rest, rfl, hj, hall⟩
      · rintro ⟨earlier, j, rest, hsplit, hj, hall⟩
        cases earlier with
        | nil =>
          -- Then all the later ones are valid, and they wrapped.
          obtain ⟨-, rfl⟩ := List.cons.inj hsplit
          obtain ⟨c, hc⟩ := (exists_wrapAll_iff target).mpr hall
          rw [hlater] at hc
          cases hc
        | cons first earlier =>
          obtain ⟨-, rfl⟩ := List.cons.inj hsplit
          exact ⟨earlier, j, rest, rfl, hj, hall⟩
    | ok inner =>
      have hvalid : ∀ j ∈ later, j.Valid := (exists_wrapAll_iff target).mp ⟨inner, hlater⟩
      simp only
      constructor
      · intro h
        refine ⟨[], i, later, rfl, ?_, hvalid⟩
        cases hindex : i.index with
        | error g => simpa [hindex] using h
        | ok index => simp [hindex] at h
      · rintro ⟨earlier, j, rest, hsplit, hj, hall⟩
        cases earlier with
        | nil =>
          obtain ⟨rfl, rfl⟩ := List.cons.inj hsplit
          rw [hj]
        | cons first earlier =>
          obtain ⟨-, rfl⟩ := List.cons.inj hsplit
          obtain ⟨index, hindex⟩ := Interceptor.exists_index_iff.mpr
            (hvalid j (List.mem_append_right _ List.mem_cons_self))
          rw [hj] at hindex
          cases hindex

/--
After every history, applying the chain has the outcome of wrapping with what is registered, from the last to
the first and with new indices: the same component, or the fault of the last declaration that is not valid. It
changes nothing in what is registered.
-/
theorem applyAll_after (initial : List (Interceptor World)) (history : List (Step World))
    (target : Component World) :
    let chain := (ofList initial).after history
    chain.interceptors = initial ++ registered history ∧
    (chain.applyAll target).1 =
      chain.interceptors.foldrM (fun i c => Wrapping.component <$> i.wrap c) target ∧
    (∀ f, (chain.applyAll target).1 = .error f ↔
      ∃ earlier i later, chain.interceptors = earlier ++ i :: later ∧ i.index = .error f ∧ ∀ j ∈ later, j.Valid) ∧
    (chain.applyAll target).2.interceptors = chain.interceptors := by
  intro chain
  have hreach : chain.Reachable := ⟨initial, history, rfl⟩
  have hsame := ((kept_ofList initial).after history).2
  rw [interceptors_ofList] at hsame
  refine ⟨hsame, ?_, fun f => ?_, (hreach.kept.applySlots target).2.1⟩
  · rw [hreach.applyAll, wrapAll_eq_foldrM]
  · rw [hreach.applyAll]
    exact wrapAll_eq_error_iff

end DynamicSql.Chain
