import DynamicSql.Interception.Component

/-!
What an interceptor declares. A declaration is accepted exactly when it is not empty and each of its
signatures names an operation. Its index then contains the operations that are named, and its kinds are
those of these operations.
-/
namespace DynamicSql

theorem KindSet.contains_foldl_insert (kinds : List ComponentKind) (s : KindSet) (k : ComponentKind) :
    (kinds.foldl KindSet.insert s).contains k = true ↔ s.contains k = true ∨ k ∈ kinds := by
  induction kinds generalizing s with
  | nil => simp
  | cons l rest ih =>
    rw [List.foldl_cons, ih, KindSet.contains_insert, Bool.or_eq_true, decide_eq_true_eq, List.mem_cons, or_assoc,
      @eq_comm _ l k]

/-- A set made from a list holds what the list does. -/
theorem KindSet.contains_ofList (kinds : List ComponentKind) (k : ComponentKind) :
    (KindSet.ofList kinds).contains k = true ↔ k ∈ kinds := by
  rw [KindSet.ofList, KindSet.contains_foldl_insert]
  simp

namespace SignatureIndex

variable {entries : List (ComponentKind × List Operation)} {op other : Operation} {kind : ComponentKind}

theorem mem_addOperation {ops : List Operation} : other ∈ addOperation op ops ↔ other = op ∨ other ∈ ops := by
  unfold addOperation
  split <;> rename_i h
  · constructor
    · exact Or.inr
    · intro ho
      cases ho with
      | inl he => exact he ▸ h
      | inr hm => exact hm
  · simp [or_comm]

/-- An operation is added to the entry of its kind; the others stay. -/
theorem lookup_addEntry (op : Operation) (entries : List (ComponentKind × List Operation)) (kind : ComponentKind) :
    (addEntry op entries).lookup kind =
      if kind = op.kind then some (addOperation op ((entries.lookup kind).getD [])) else entries.lookup kind := by
  induction entries with
  | nil =>
    by_cases h : kind = op.kind
    · simp [addEntry, addOperation, h]
    · have hne : (kind == op.kind) = false := by simp [h]
      simp [addEntry, List.lookup_cons, h, hne]
  | cons entry rest ih =>
    obtain ⟨key, ops⟩ := entry
    by_cases hkey : key = op.kind
    · by_cases h : kind = op.kind
      · simp [addEntry, hkey, h]
      · have hne : (kind == op.kind) = false := by simp [h]
        simp [addEntry, List.lookup_cons, hkey, h, hne]
    · by_cases h : kind = key
      · subst h
        simp [addEntry, hkey]
      · have hne : (kind == key) = false := by simp [h]
        simp [addEntry, hkey, List.lookup_cons, hne, ih]

theorem contains_iff {index : SignatureIndex} :
    index.contains op = true ↔ op ∈ (index.entries.lookup op.kind).getD [] := by
  unfold contains operations?
  cases index.entries.lookup op.kind <;> simp

/-- An index with one operation more contains that one and those before. -/
theorem contains_addEntry :
    contains ⟨addEntry op entries⟩ other = true ↔ other = op ∨ contains ⟨entries⟩ other = true := by
  rw [contains_iff, contains_iff, lookup_addEntry]
  split <;> rename_i h
  · rw [Option.getD_some, mem_addOperation]
  · have hne : other ≠ op := fun he => h (he ▸ rfl)
    simp [hne]

theorem contains_kinds {index : SignatureIndex} :
    index.kinds.contains kind = true ↔ kind ∈ index.entries.map Prod.fst :=
  KindSet.contains_ofList _ _

theorem mem_keys_addEntry : kind ∈ (addEntry op entries).map Prod.fst ↔
    kind = op.kind ∨ kind ∈ entries.map Prod.fst := by
  induction entries with
  | nil => simp [addEntry]
  | cons entry rest ih =>
    obtain ⟨key, ops⟩ := entry
    by_cases hkey : key = op.kind
    · simp [addEntry, hkey]
    · simp only [addEntry, hkey, if_false, List.map_cons, List.mem_cons, ih]
      exact or_left_comm

/-- The kinds grow by that of the operation. -/
theorem contains_kinds_addEntry : (kinds ⟨addEntry op entries⟩).contains kind = true ↔
    kind = op.kind ∨ (kinds ⟨entries⟩).contains kind = true := by
  rw [contains_kinds, contains_kinds, mem_keys_addEntry]

def Names (signatures : List Signature) (op : Operation) : Prop :=
  ∃ s ∈ signatures, s.operation? = some op

theorem names_cons {s : Signature} {rest : List Signature} (h : s.operation? = some op) :
    Names (s :: rest) other ↔ other = op ∨ Names rest other := by
  simp [Names, h, eq_comm]

/-- Collecting adds what the signatures name, and nothing else. -/
theorem collect_eq_ok {name : String} {signatures : List Signature}
    {result : List (ComponentKind × List Operation)} (h : collect name entries signatures = .ok result) :
    (∀ op, contains ⟨result⟩ op = true ↔ contains ⟨entries⟩ op = true ∨ Names signatures op) ∧
      ∀ kind, (kinds ⟨result⟩).contains kind = true ↔
        (kinds ⟨entries⟩).contains kind = true ∨ ∃ op, Names signatures op ∧ op.kind = kind := by
  induction signatures generalizing entries with
  | nil =>
    obtain rfl := Except.ok.inj h
    simp [Names]
  | cons s rest ih =>
    rw [collect] at h
    cases hs : s.operation? with
    | none => simp [hs] at h
    | some found =>
      rw [hs] at h
      obtain ⟨hops, hkinds⟩ := ih h
      constructor
      · intro op
        rw [hops, contains_addEntry, names_cons hs, or_assoc]
        exact or_left_comm
      · intro kind
        rw [hkinds, contains_kinds_addEntry]
        constructor
        · rintro ((rfl | hk) | ⟨op, hn, rfl⟩)
          · exact .inr ⟨found, (names_cons hs).mpr (.inl rfl), rfl⟩
          · exact .inl hk
          · exact .inr ⟨op, (names_cons hs).mpr (.inr hn), rfl⟩
        · rintro (hk | ⟨op, hn, rfl⟩)
          · exact .inl (.inr hk)
          · cases (names_cons hs).mp hn with
            | inl he => exact .inl (.inl (he ▸ rfl))
            | inr hr => exact .inr ⟨op, hr, rfl⟩

/-- Signatures are collected exactly when each names an operation. -/
theorem exists_collect_iff {name : String} {signatures : List Signature} :
    (∃ result, collect name entries signatures = .ok result) ↔ ∀ s ∈ signatures, s.operation?.isSome := by
  induction signatures generalizing entries with
  | nil => simp [collect]
  | cons s rest ih =>
    rw [collect]
    cases hs : s.operation? with
    | none => simp [hs]
    | some found => simp [hs, ih]

/-- Signatures have an index where collecting them gives something. -/
theorem ofSignatures_eq_ok_iff {name : String} {signatures : List Signature} {index : SignatureIndex} :
    ofSignatures name signatures = .ok index ↔
      index.entries ≠ [] ∧ collect name [] signatures = .ok index.entries := by
  unfold ofSignatures
  split
  · next h => simp [h]
  · next h =>
    simp only [h, Except.ok.injEq, reduceCtorEq, false_iff, not_and]
    exact fun hne he => hne he.symm
  · next entries hne h =>
    rw [h, Except.ok.injEq, Except.ok.injEq]
    constructor
    · rintro rfl
      exact ⟨hne, rfl⟩
    · rintro ⟨-, rfl⟩
      rfl

end SignatureIndex

namespace Interceptor

variable {World : Type} {i : Interceptor World} {index : SignatureIndex} {op : Operation} {kind : ComponentKind}

def Declares (i : Interceptor World) (op : Operation) : Prop := SignatureIndex.Names i.signatures op

instance (i : Interceptor World) : DecidablePred i.Declares :=
  fun op => inferInstanceAs (Decidable (∃ s ∈ i.signatures, s.operation? = some op))

def DeclaresKind (i : Interceptor World) (kind : ComponentKind) : Prop := ∃ op, i.Declares op ∧ op.kind = kind

def Valid (i : Interceptor World) : Prop :=
  i.signatures ≠ [] ∧ ∀ s ∈ i.signatures, s.operation?.isSome

instance (i : Interceptor World) : Decidable i.Valid :=
  inferInstanceAs (Decidable (i.signatures ≠ [] ∧ ∀ s ∈ i.signatures, s.operation?.isSome))

/-- An interceptor has an index when its signatures are collected and there are any. -/
theorem index_eq_ok_iff : i.index = .ok index ↔
    index.entries ≠ [] ∧ SignatureIndex.collect i.name [] i.signatures = .ok index.entries :=
  SignatureIndex.ofSignatures_eq_ok_iff

/-- The index contains what the interceptor declares. -/
theorem contains_of_index (h : i.index = .ok index) : index.contains op = true ↔ i.Declares op := by
  obtain ⟨-, hcollect⟩ := index_eq_ok_iff.mp h
  rw [(SignatureIndex.collect_eq_ok hcollect).1 op]
  simp [SignatureIndex.contains, SignatureIndex.operations?, Declares]

theorem contains_kinds_of_index (h : i.index = .ok index) :
    index.kinds.contains kind = true ↔ i.DeclaresKind kind := by
  obtain ⟨-, hcollect⟩ := index_eq_ok_iff.mp h
  rw [(SignatureIndex.collect_eq_ok hcollect).2 kind]
  simp [SignatureIndex.contains_kinds, DeclaresKind, Declares]

theorem Declares.declaresKind (h : i.Declares op) : i.DeclaresKind op.kind := ⟨op, h, rfl⟩

/-- A declaration has an index exactly when it is valid. -/
theorem exists_index_iff : (∃ index, i.index = .ok index) ↔ i.Valid := by
  constructor
  · rintro ⟨index, h⟩
    obtain ⟨hne, hcollect⟩ := index_eq_ok_iff.mp h
    refine ⟨fun he => hne ?_, SignatureIndex.exists_collect_iff.mp ⟨_, hcollect⟩⟩
    rw [he] at hcollect
    exact (Except.ok.inj hcollect).symm
  · rintro ⟨hne, hall⟩
    obtain ⟨entries, hcollect⟩ := SignatureIndex.exists_collect_iff.mpr hall
    refine ⟨⟨entries⟩, index_eq_ok_iff.mpr ⟨?_, hcollect⟩⟩
    rintro rfl
    -- The first signature names an operation, which the empty index would have to contain.
    obtain ⟨s, rest, hs⟩ := List.exists_cons_of_ne_nil hne
    have hmem : s ∈ i.signatures := hs ▸ List.mem_cons_self
    obtain ⟨op, hop⟩ := Option.isSome_iff_exists.mp (hall s hmem)
    have hcontains := ((SignatureIndex.collect_eq_ok hcollect).1 op).mpr (.inr ⟨s, hmem, hop⟩)
    simp [SignatureIndex.contains_iff] at hcontains

end Interceptor

end DynamicSql
