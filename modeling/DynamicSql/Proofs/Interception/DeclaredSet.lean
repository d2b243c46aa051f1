import DynamicSql.Proofs.Interception.Declaration
import Mathlib.Data.Finset.Card
import Mathlib.Data.Finset.Dedup
import Mathlib.Data.List.Nodup

/-!
The index of a declaration as the set of operations that its signatures name. Main statement: the first
signature that names nothing is the fault, an empty declaration is another, and the index of any other contains
what is named, kind by kind in the order of the first naming; the order of the signatures and repeated ones
change nothing but that order.
-/
namespace DynamicSql

namespace Signature

/-- The method is a name of the operation, its own or another one, on the kind of the signature. -/
def Declares (s : Signature) (op : Operation) : Prop := op.kind = s.kind ∧ s.method ∈ op.names

instance (s : Signature) : DecidablePred s.Declares := fun _ => inferInstanceAs (Decidable (_ ∧ _))

def Known (s : Signature) : Prop := ∃ op, s.Declares op

variable {s : Signature} {op : Operation}

/-- On one kind no two operations share a name. -/
theorem names_disjoint : ∀ op ∈ Operation.all, ∀ other ∈ Operation.all, op.kind = other.kind →
    ∀ method ∈ op.names, method ∈ other.names → op = other := by decide

/-- A signature is looked up to the operation that it declares. -/
theorem operation?_eq_some_iff : s.operation? = some op ↔ s.Declares op := by
  have hsome : ∀ {found}, s.operation? = some found → s.Declares found := by
    intro found h
    have hfound := List.find?_some h
    simpa [Declares] using hfound
  refine ⟨hsome, fun h => ?_⟩
  cases hs : s.operation? with
  | none =>
    have hnone := List.find?_eq_none.mp hs op (Operation.mem_all op)
    simp [h.1, h.2] at hnone
  | some found =>
    have hf := hsome hs
    rw [names_disjoint found (Operation.mem_all _) op (Operation.mem_all _) (hf.1.trans h.1.symm) s.method hf.2 h.2]

theorem isSome_operation?_iff : s.operation?.isSome ↔ s.Known := by
  simp only [Option.isSome_iff_exists, operation?_eq_some_iff, Known]

theorem operation?_eq_none_iff : s.operation? = none ↔ ¬ s.Known := by
  rw [← isSome_operation?_iff, Option.not_isSome_iff_eq_none]

instance : DecidablePred Known := fun _ => decidable_of_iff _ isSome_operation?_iff

end Signature

namespace SignatureIndex

open Signature (operation?_eq_some_iff operation?_eq_none_iff isSome_operation?_iff)

variable {entries result : List (ComponentKind × List Operation)} {ops : List Operation} {op : Operation}
  {kind : ComponentKind} {name : String} {signatures others : List Signature} {s : Signature}
  {index index' : SignatureIndex}

def declared (signatures : List Signature) : List Operation := signatures.filterMap Signature.operation?

/-- The different operations of a kind in the order in which they first come. -/
def firsts (kind : ComponentKind) (ops : List Operation) : List Operation :=
  (ops.filter fun op => op.kind = kind).eraseDups

theorem mem_declared : op ∈ declared signatures ↔ ∃ s ∈ signatures, s.Declares op := by
  simp only [declared, List.mem_filterMap, operation?_eq_some_iff]

theorem mem_firsts : op ∈ firsts kind ops ↔ op ∈ ops ∧ op.kind = kind := by
  simp [firsts]

/-- An operation met again is not listed again. -/
theorem eraseDups_concat (op : Operation) (ops : List Operation) :
    (ops ++ [op]).eraseDups = addOperation op ops.eraseDups := by
  rw [List.eraseDups_append, addOperation]
  by_cases h : op ∈ ops
  · simp [List.removeAll, h]
  · simp [List.removeAll, h, List.eraseDups_cons]

/-- The operations of a kind are listed as they are met for the first time. -/
theorem firsts_concat (op : Operation) (ops : List Operation) (kind : ComponentKind) :
    firsts kind (ops ++ [op]) = if kind = op.kind then addOperation op (firsts kind ops) else firsts kind ops := by
  by_cases h : kind = op.kind
  · simp [firsts, List.filter_append, h, eraseDups_concat]
  · simp [firsts, List.filter_append, h, Ne.symm h]

theorem nodup_addOperation (h : ops.Nodup) (op : Operation) : (addOperation op ops).Nodup := by
  unfold addOperation
  split
  · exact h
  · next hn =>
    refine List.nodup_append.mpr ⟨h, List.nodup_singleton op, fun other ho new hm => ?_⟩
    rintro rfl
    exact hn (List.mem_singleton.mp hm ▸ ho)

theorem nodup_firsts (kind : ComponentKind) (ops : List Operation) : (firsts kind ops).Nodup := by
  induction ops using List.reverseRecOn with
  | nil => exact List.nodup_nil
  | append_singleton ops op ih =>
    rw [firsts_concat]
    split
    · exact nodup_addOperation ih op
    · exact ih

theorem firsts_eq_nil_iff : firsts kind ops = [] ↔ ¬ ∃ op ∈ ops, op.kind = kind := by
  simp only [List.eq_nil_iff_forall_not_mem, mem_firsts, not_exists]

/-- The entries list the operations kind by kind, each once, and no kind twice. -/
structure Lists (entries : List (ComponentKind × List Operation)) (ops : List Operation) : Prop where
  keys : (entries.map Prod.fst).Nodup
  lookup : ∀ kind, entries.lookup kind =
    if ∃ op ∈ ops, op.kind = kind then some (firsts kind ops) else none

theorem lists_nil : Lists [] [] where
  keys := List.nodup_nil
  lookup kind := by simp

theorem nodup_keys_addEntry (h : (entries.map Prod.fst).Nodup) (op : Operation) :
    ((addEntry op entries).map Prod.fst).Nodup := by
  induction entries with
  | nil => simp [addEntry]
  | cons entry rest ih =>
    obtain ⟨key, ops⟩ := entry
    obtain ⟨hkey, hrest⟩ := List.nodup_cons.mp h
    by_cases he : key = op.kind
    · simpa [addEntry, he] using h
    · simp only [addEntry, he, if_false, List.map_cons, List.nodup_cons, mem_keys_addEntry, false_or]
      exact ⟨hkey, ih hrest⟩

/-- One more operation. -/
theorem Lists.addEntry (h : Lists entries ops) (op : Operation) : Lists (addEntry op entries) (ops ++ [op]) where
  keys := nodup_keys_addEntry h.keys op
  lookup kind := by
    have hold : (entries.lookup kind).getD [] = firsts kind ops := by
      rw [h.lookup kind]
      split
      · rfl
      · next hn => exact (firsts_eq_nil_iff.mpr hn).symm
    rw [lookup_addEntry, firsts_concat, hold]
    by_cases hk : kind = op.kind
    · simp [hk]
    · simp [hk, Ne.symm hk, h.lookup kind]

/-- All signatures, the one after the other. -/
theorem Lists.collect (h : Lists entries ops) (hc : collect name entries signatures = .ok result) :
    Lists result (ops ++ declared signatures) := by
  induction signatures generalizing entries ops with
  | nil =>
    obtain rfl := Except.ok.inj hc
    simpa [declared] using h
  | cons s rest ih =>
    rw [SignatureIndex.collect] at hc
    cases hs : s.operation? with
    | none => simp [hs] at hc
    | some op =>
      rw [hs] at hc
      have hrest := ih (h.addEntry op) hc
      simpa [declared, hs] using hrest

/-- The first signature that names nothing ends the collection. -/
theorem collect_of_unknown {before after : List Signature} (hb : ∀ r ∈ before, r.Known) (hs : ¬ s.Known) :
    collect name entries (before ++ s :: after) = .error (unknown name s) := by
  induction before generalizing entries with
  | nil => rw [List.nil_append, collect, operation?_eq_none_iff.mpr hs]
  | cons r before ih =>
    obtain ⟨hr, hrest⟩ := List.forall_mem_cons.mp hb
    obtain ⟨op, hop⟩ := hr
    rw [List.cons_append, collect, operation?_eq_some_iff.mpr hop]
    exact ih hrest

structure Indexes (index : SignatureIndex) (signatures : List Signature) : Prop where
  contains : ∀ op, index.contains op = true ↔ ∃ s ∈ signatures, s.Declares op
  kinds : ∀ kind, index.kinds.contains kind = true ↔ ∃ s ∈ signatures, s.kind = kind
  operations : ∀ kind, index.operations? kind =
    if ∃ s ∈ signatures, s.kind = kind then some (firsts kind (declared signatures)) else none
  size : index.size = (declared signatures).toFinset.card

theorem exists_declared_of_kind (h : ∀ s ∈ signatures, s.Known) :
    (∃ op ∈ declared signatures, op.kind = kind) ↔ ∃ s ∈ signatures, s.kind = kind := by
  constructor
  · rintro ⟨op, hop, rfl⟩
    obtain ⟨s, hs, hdeclares⟩ := mem_declared.mp hop
    exact ⟨s, hs, hdeclares.1.symm⟩
  · rintro ⟨s, hs, rfl⟩
    obtain ⟨op, hop⟩ := h s hs
    exact ⟨op, mem_declared.mpr ⟨s, hs, hop⟩, hop.1⟩

/-- Where no kind comes twice, looking a kind up finds the entry. -/
theorem mem_iff_lookup {listed : List Operation} (h : (entries.map Prod.fst).Nodup) :
    (kind, listed) ∈ entries ↔ entries.lookup kind = some listed := by
  induction entries with
  | nil => simp
  | cons entry rest ih =>
    obtain ⟨key, ops⟩ := entry
    obtain ⟨hkey, hrest⟩ := List.nodup_cons.mp h
    by_cases he : kind = key
    · subst he
      have hnot : (kind, listed) ∉ rest := fun hm => hkey (List.mem_map.mpr ⟨_, hm, rfl⟩)
      simp [hnot, eq_comm]
    · have hne : (kind == key) = false := by simp [he]
      simp [List.lookup_cons, he, hne, ih hrest]

/-- A kind has an entry when an operation of it was met, and the entry lists them all. -/
theorem Lists.mem_iff (h : Lists entries ops) {listed : List Operation} :
    (kind, listed) ∈ entries ↔ (∃ op ∈ ops, op.kind = kind) ∧ listed = firsts kind ops := by
  rw [mem_iff_lookup h.keys, h.lookup]
  split
  · next he => rw [Option.some.injEq, eq_comm, and_iff_right he]
  · next he => simp only [he, reduceCtorEq, false_and]

theorem Lists.mem_operations (h : Lists entries ops) : op ∈ operations ⟨entries⟩ ↔ op ∈ ops := by
  simp only [operations, List.mem_flatMap, Prod.exists, h.mem_iff]
  constructor
  · rintro ⟨kind, _, ⟨-, rfl⟩, hop⟩
    exact (mem_firsts.mp hop).1
  · intro hop
    exact ⟨op.kind, _, ⟨⟨op, hop, rfl⟩, rfl⟩, mem_firsts.mpr ⟨hop, rfl⟩⟩

/-- No operation is listed twice: a kind has one entry, and an operation one kind. -/
theorem Lists.nodup_operations (h : Lists entries ops) : (operations ⟨entries⟩).Nodup := by
  rw [operations, List.nodup_flatMap]
  constructor
  · rintro ⟨kind, listed⟩ hm
    obtain ⟨-, rfl⟩ := h.mem_iff.mp hm
    exact nodup_firsts _ _
  · have hkeys : entries.Pairwise fun a b => a.1 ≠ b.1 := List.pairwise_map.mp h.keys
    refine hkeys.imp_of_mem ?_
    rintro ⟨kind, listed⟩ ⟨other, listed'⟩ hm hm' hne op hop hop'
    obtain ⟨-, rfl⟩ := h.mem_iff.mp hm
    obtain ⟨-, rfl⟩ := h.mem_iff.mp hm'
    exact hne ((mem_firsts.mp hop).2.symm.trans (mem_firsts.mp hop').2)

/-- The size counts the operations that are declared, each once. -/
theorem Lists.size_eq (h : Lists entries ops) : size ⟨entries⟩ = ops.toFinset.card := by
  have hset : (operations ⟨entries⟩).toFinset = ops.toFinset := by
    ext op
    simp only [List.mem_toFinset, h.mem_operations]
  rw [size, ← List.toFinset_card_of_nodup h.nodup_operations, hset]

theorem known_of_ofSignatures (h : ofSignatures name signatures = .ok index) : ∀ s ∈ signatures, s.Known := by
  have hall := exists_collect_iff.mp ⟨_, (ofSignatures_eq_ok_iff.mp h).2⟩
  exact fun s hs => isSome_operation?_iff.mp (hall s hs)

/-- What is collected from signatures indexes just them. -/
theorem indexes_of_ofSignatures (h : ofSignatures name signatures = .ok index) : Indexes index signatures := by
  obtain ⟨-, hcollect⟩ := ofSignatures_eq_ok_iff.mp h
  have hknown := known_of_ofSignatures h
  have hlists : Lists index.entries (declared signatures) := by simpa using lists_nil.collect hcollect
  constructor
  · intro op
    simp [(collect_eq_ok hcollect).1 op, contains_iff, Names, operation?_eq_some_iff]
  · intro kind
    rw [contains_kinds, ← exists_declared_of_kind hknown, List.mem_map]
    simp [hlists.mem_iff]
  · intro kind
    rw [operations?, hlists.lookup]
    simp only [exists_declared_of_kind hknown]
  · exact hlists.size_eq

/-- Signatures that all name something have an index, if there is one at all. -/
theorem exists_ofSignatures (name : String) (h : ∀ s ∈ signatures, s.Known) (hne : signatures ≠ []) :
    ∃ index, ofSignatures name signatures = .ok index := by
  obtain ⟨entries, hcollect⟩ : ∃ entries, collect name [] signatures = .ok entries :=
    exists_collect_iff.mpr fun s hs => isSome_operation?_iff.mpr (h s hs)
  refine ⟨⟨entries⟩, ofSignatures_eq_ok_iff.mpr ⟨?_, hcollect⟩⟩
  rintro rfl
  -- the first signature names an operation, which has no entry here
  obtain ⟨s, rest, rfl⟩ := List.exists_cons_of_ne_nil hne
  obtain ⟨op, hop⟩ := h s List.mem_cons_self
  have hlists : Lists [] (declared (s :: rest)) := by simpa using lists_nil.collect hcollect
  have hmem := hlists.mem_operations.mpr (mem_declared.mpr ⟨s, List.mem_cons_self, hop⟩)
  cases hmem

/-- What is told of an index is told of the set of its signatures, but for the order of the operations. -/
theorem Indexes.same (h : Indexes index signatures) (h' : Indexes index' others)
    (hsame : ∀ s, s ∈ others ↔ s ∈ signatures) :
    (∀ op, index'.contains op = index.contains op) ∧ index'.kinds = index.kinds ∧ index'.size = index.size := by
  refine ⟨fun op => ?_, KindSet.ext_contains fun kind => ?_, ?_⟩
  · simp only [Bool.eq_iff_iff, h.contains, h'.contains, hsame]
  · simp only [Bool.eq_iff_iff, h.kinds, h'.kinds, hsame]
  · have hset : (declared others).toFinset = (declared signatures).toFinset := by
      ext op
      simp only [List.mem_toFinset, mem_declared, hsame]
    rw [h.size, h'.size, hset]

/--
The first signature that names no operation of its kind is the fault of a declaration. Without such a one the
declaration is refused only where it is empty, and else its index lists what it names. The order of the
signatures, and how often each is repeated, show in the order of the operations alone.
-/
theorem ofSignatures_declared (name : String) (signatures : List Signature) :
    (∀ before s after, signatures = before ++ s :: after → (∀ r ∈ before, r.Known) → ¬ s.Known →
      ofSignatures name signatures = .error (unknown name s)) ∧
    ((∀ s ∈ signatures, s.Known) →
      (ofSignatures name signatures = .error (Fault.noSignatures name) ↔ signatures = []) ∧
      (signatures ≠ [] → ∃ index, ofSignatures name signatures = .ok index)) ∧
    ∀ index, ofSignatures name signatures = .ok index → Indexes index signatures ∧
      ∀ others, (∀ s, s ∈ others ↔ s ∈ signatures) → ∃ index', ofSignatures name others = .ok index' ∧
        (∀ op, index'.contains op = index.contains op) ∧ index'.kinds = index.kinds ∧ index'.size = index.size := by
  refine ⟨?_, fun hknown => ⟨⟨?_, ?_⟩, exists_ofSignatures name hknown⟩, fun index h => ⟨indexes_of_ofSignatures h, ?_⟩⟩
  · rintro before s after rfl hb hs
    rw [ofSignatures, collect_of_unknown hb hs]
  · intro h
    by_contra hne
    obtain ⟨index, hindex⟩ := exists_ofSignatures name hknown hne
    rw [hindex] at h
    cases h
  · rintro rfl
    rfl
  · intro others hsame
    have hne : others ≠ [] := by
      rintro rfl
      obtain rfl : signatures = [] := List.eq_nil_iff_forall_not_mem.mpr fun s hs => by simpa using (hsame s).mpr hs
      cases h
    have hknown : ∀ s ∈ others, s.Known := fun s hs => known_of_ofSignatures h s ((hsame s).mp hs)
    obtain ⟨index', h'⟩ := exists_ofSignatures name hknown hne
    exact ⟨index', h', (indexes_of_ofSignatures h).same (indexes_of_ofSignatures h') hsame⟩

/-- Two spellings of one kind, one name on two kinds, and a repetition. -/
def auditSignatures : List Signature :=
  [⟨.parameterBinder, "setParameters"⟩, ⟨.executor, "query"⟩, ⟨.parameterBinder, "getParameterObject"⟩,
    ⟨.statementHandler, "query"⟩, ⟨.parameterBinder, "set_parameters"⟩, ⟨.parameterBinder, "parameterObject"⟩]

theorem auditSignatures_declared :
    (∃ index index', ofSignatures "Audit" auditSignatures = .ok index ∧
      ofSignatures "Audit" auditSignatures.reverse = .ok index' ∧
      index.operations? .parameterBinder = some [.setParameters, .parameterObject] ∧
      index'.operations? .parameterBinder = some [.parameterObject, .setParameters] ∧
      index.operations? .resultMaterializer = none ∧
      index.contains .statementQuery = true ∧ index.contains .update = false ∧
      index'.kinds = index.kinds ∧ index.size = 4 ∧ index'.size = 4) ∧
    ofSignatures "Audit" (auditSignatures ++ [⟨.executor, "prepare"⟩, ⟨.executor, "select"⟩]) =
      .error (unknown "Audit" ⟨.executor, "prepare"⟩) ∧
    ofSignatures "Audit" [] = .error (Fault.noSignatures "Audit") := by
  refine ⟨?_, (ofSignatures_declared "Audit" _).1 auditSignatures _ [⟨.executor, "select"⟩] rfl (by decide)
    (by decide), ((ofSignatures_declared "Audit" []).2.1 (by decide)).1.mpr rfl⟩
  obtain ⟨index, h⟩ := ((ofSignatures_declared "Audit" auditSignatures).2.1 (by decide)).2 (by decide)
  obtain ⟨hindexes, hothers⟩ := (ofSignatures_declared "Audit" auditSignatures).2.2 index h
  obtain ⟨index', h', -, hkinds, hsize⟩ := hothers auditSignatures.reverse fun s => List.mem_reverse
  have hindexes' := ((ofSignatures_declared "Audit" auditSignatures.reverse).2.2 index' h').1
  have hfour : index.size = 4 := hindexes.size.trans (by decide)
  have hquery : index.contains .statementQuery = true := (hindexes.contains _).mpr (by decide)
  have hupdate : index.contains .update = false :=
    Bool.eq_false_iff.mpr fun hc => absurd ((hindexes.contains _).mp hc) (by decide)
  exact ⟨index, index', h, h', (hindexes.operations _).trans (by decide), (hindexes'.operations _).trans (by decide),
    (hindexes.operations _).trans (by decide), hquery, hupdate, hkinds, hfour, hsize.trans hfour⟩

end SignatureIndex

end DynamicSql
