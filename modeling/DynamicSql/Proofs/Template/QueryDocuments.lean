import DynamicSql.Proofs.Value.Documents
import DynamicSql.Template.QueryDocument

/-!
Resolved queries read back from what is stored of them. Main statement: a query without floating-point numbers,
whose document nests no deeper than the reader allows, is what its compact text is read as.
-/
namespace DynamicSql

theorem ValueType.ofName?_name (t : ValueType) : ofName? t.name.toList = some t := by cases t <;> decide

theorem ParameterMode.ofName?_name (m : ParameterMode) : ofName? m.name.toList = some m := by
  cases m <;> decide

namespace Descriptor

/-- A scale has 32 bits, and maps in the value have each key once. -/
structure WellFormed (d : Descriptor) : Prop where
  scale : ∀ n ∈ d.numericScale, n < Integer.bound32
  value : d.value.Keyed

variable {d : Descriptor} {limit : Nat}

def fields (d : Descriptor) : List (Option Json) :=
  [some (.text d.expression), some (.text d.type.name.toList), d.sqlType.map .text,
    d.numericScale.map fun n : Nat => .number (.integer n), some (.text d.mode.name.toList), some d.value.toJson]

/-- Whichever declarations are left out, each field is found under its name. -/
theorem record?_toJson (d : Descriptor) : d.toJson.record? fieldNames = some d.fields := by
  obtain ⟨expression, type, sqlType, scale, mode, value⟩ := d
  cases sqlType <;> cases scale <;> rfl

theorem exact_toJson (hw : d.WellFormed) (hf : d.value.FloatFree) : d.toJson.Exact := by
  obtain ⟨expression, type, sqlType, scale, mode, value⟩ := d
  have hvalue := Value.exact_toJson value hf
  have hscale : ∀ n ∈ scale, (Json.number (.integer n)).Exact := by
    intro n hn
    have := hw.scale n hn
    simp only [Integer.bound32] at this
    simp only [Json.Exact, Integer.least, Integer.bound64]
    omega
  cases sqlType <;> cases scale
  · exact ⟨trivial, trivial, trivial, hvalue, trivial⟩
  · exact ⟨trivial, trivial, hscale _ rfl, trivial, hvalue, trivial⟩
  · exact ⟨trivial, trivial, trivial, trivial, hvalue, trivial⟩
  · exact ⟨trivial, trivial, trivial, hscale _ rfl, trivial, hvalue, trivial⟩

theorem asOptionalNat?_integer {n : Nat} (h : n < Integer.bound32) :
    Json.asOptionalNat? Integer.bound32 (.number (.integer n)) = some (some n) := by
  have hn : 0 ≤ (n : Int) ∧ (n : Int) < Integer.bound32 := by omega
  rw [Json.asOptionalNat?, if_pos hn, Int.toNat_natCast]

theorem ofJson?_toJson (hw : d.WellFormed) (hf : d.value.FloatFree)
    (hn : d.value.toJson.readable (limit - 1) = true) : ofJson? limit d.toJson = some d := by
  obtain ⟨expression, type, sqlType, scale, mode, value⟩ := d
  have hvalue := Value.ofContent?_toJson value hf hw.value
  have hsql : optional Json.asOptionalText? (sqlType.map .text) = some sqlType := by cases sqlType <;> rfl
  have hscale : optional (Json.asOptionalNat? Integer.bound32)
      (scale.map fun n : Nat => .number (.integer n)) = some scale := by
    cases scale with
    | none => rfl
    | some n => rw [Option.map_some, optional, asOptionalNat?_integer (hw.scale n rfl)]
  rw [ofJson?, record?_toJson]
  simp [fields, Json.asText?, Json.asChoice?, ValueType.ofName?_name, ParameterMode.ofName?_name, hsql, hscale,
    hn, hvalue]

end Descriptor

namespace Json

variable {limit : Nat}

/-- A list takes one level of nesting, and leaves the others to its items. -/
theorem readable_list_iff {items : List Json} :
    (list items).readable limit = true ↔ 0 < limit ∧ ∀ j ∈ items, j.readable (limit - 1) = true := by
  have hitems : ∀ n, readableItems n items = true ↔ ∀ j ∈ items, j.readable n = true := by
    intro n
    induction items with
    | nil => simp [readableItems]
    | cons j rest ih => simp [readableItems, ih]
  simp [readable, hitems]

theorem readable_object_iff {members : List (Text × Json)} :
    (object members).readable limit = true ↔ 0 < limit ∧ ∀ m ∈ members, m.2.readable (limit - 1) = true := by
  have hmembers : ∀ n, readableMembers n members = true ↔ ∀ m ∈ members, m.2.readable n = true := by
    intro n
    induction members with
    | nil => simp [readableMembers]
    | cons m rest ih =>
      obtain ⟨name, j⟩ := m
      rw [readableMembers, Bool.and_eq_true, ih, List.forall_mem_cons]
  rw [readable, Bool.and_eq_true, hmembers, decide_eq_true_eq]

end Json

namespace Query

/-- No name is bound twice, and what holds of values by their form holds of all values in the query. -/
structure WellFormed (q : Query) : Prop where
  parameters : ∀ d ∈ q.parameters, d.WellFormed
  names : q.bindings.keys.Nodup
  bindings : ∀ entry ∈ q.bindings, entry.2.Keyed

structure FloatFree (q : Query) : Prop where
  parameters : ∀ d ∈ q.parameters, d.value.FloatFree
  bindings : ∀ entry ∈ q.bindings, entry.2.FloatFree

variable {q : Query}

theorem exact_toJson (hw : q.WellFormed) (hf : q.FloatFree) : q.toJson.Exact := by
  have hbindings := Value.exactMembers_toJson q.bindings (Value.throughoutEntries_iff.mpr hf.bindings)
  have hparameters : ∀ ds : List Descriptor, (∀ d ∈ ds, d.toJson.Exact) →
      Json.ExactItems (ds.map Descriptor.toJson) := by
    intro ds
    induction ds with
    | nil => exact fun _ => trivial
    | cons d ds ih =>
      rw [List.forall_mem_cons]
      exact fun h => ⟨h.1, ih h.2⟩
  exact ⟨trivial, hparameters _ fun d hd => Descriptor.exact_toJson (hw.parameters d hd) (hf.parameters d hd),
    hbindings, trivial⟩

/-- The values nest as deep as the reader allows at their place as soon as the document does. -/
theorem readable_values (h : q.toJson.readable Json.nestingLimit = true) :
    (∀ d ∈ q.parameters, d.value.toJson.readable (Json.nestingLimit - 2 - 1) = true) ∧
      (Json.object (Value.toJsonMembers q.bindings)).readable (Json.nestingLimit - 1) = true := by
  rw [toJson, Json.readable_object_iff] at h
  have hmembers := h.2
  have hlist := hmembers ("parameters".toList, .list (q.parameters.map Descriptor.toJson)) (by simp)
  rw [Json.readable_list_iff] at hlist
  refine ⟨fun d hd => ?_, hmembers ("extra_bindings".toList, .object (Value.toJsonMembers q.bindings)) (by simp)⟩
  have hd' := hlist.2 d.toJson (List.mem_map_of_mem hd)
  rw [Descriptor.toJson, Json.readable_object_iff] at hd'
  exact hd'.2 ("value".toList, d.value.toJson) (by simp)

theorem mapM_toJson {ds : List Descriptor} {limit : Nat} (h : ∀ d ∈ ds, Descriptor.ofJson? limit d.toJson = some d) :
    (ds.map Descriptor.toJson).mapM (Descriptor.ofJson? limit) = some ds := by
  induction ds with
  | nil => rfl
  | cons d ds ih =>
    rw [List.forall_mem_cons] at h
    rw [List.map_cons, List.mapM_cons, h.1, ih h.2]
    rfl

/--
What is stored of a query is read as that query: the same text, the same descriptors in their order, the same
bindings in their order, and every value of the kind it had.
-/
theorem ofJsonText?_toJsonText (hw : q.WellFormed) (hf : q.FloatFree)
    (hn : q.toJson.readable Json.nestingLimit = true) : ofJsonText? q.toJsonText = some q := by
  obtain ⟨hvalues, hbindings⟩ := readable_values hn
  have hrecord : q.toJson.record? fieldNames = some [some (.text q.text),
      some (.list (q.parameters.map Descriptor.toJson)), some (.object (Value.toJsonMembers q.bindings))] := rfl
  have hparameters := mapM_toJson fun d hd =>
    Descriptor.ofJson?_toJson (hw.parameters d hd) (hf.parameters d hd) (hvalues d hd)
  have hmembers := Value.ofContentMembers?_toJson q.bindings (Value.throughoutEntries_iff.mpr hf.bindings)
    (Value.throughoutEntries_iff.mpr hw.bindings)
  rw [ofJsonText?, toJsonText, Json.parse?_print (exact_toJson hw hf), Option.bind_some, ofJson?, hrecord]
  simp only [Json.asText?, hparameters, bindingsOf?, hbindings, if_true, hmembers, Option.map_some,
    Entries.ofPairs_eq hw.names]
  rfl

def storedMap : Value :=
  .map [("".toList, .list []), ("1".toList, .list [.null, .bool false, .map []]), ("size".toList, .null)]

def storedQuery : Query where
  text := "select '\x22\\\u001f\né' = ?, ?".toList
  parameters := [⟨"a[0]".toList, .map, some "JSON".toList, some 4294967295, .both, storedMap⟩,
    .ofValue "(1 + b)".toList (.text "-17".toList)]
  bindings := [("b".toList, .int Int64.minValue), ("a".toList, .list [.int Int64.maxValue, .text []])]

theorem storedQuery_read : ofJsonText? storedQuery.toJsonText = some storedQuery := by
  have hkeyed : storedMap.Keyed := by
    simp [storedMap, Value.Keyed, Value.Throughout, Value.ThroughoutItems, Value.ThroughoutEntries,
      Value.DistinctKeys, Entries.keys]
  have hfree : storedMap.FloatFree := by
    simp [storedMap, Value.FloatFree, Value.Throughout, Value.ThroughoutItems, Value.ThroughoutEntries,
      Value.NotFloat]
  refine ofJsonText?_toJsonText ⟨?_, by decide, ?_⟩ ⟨?_, ?_⟩ (by decide +kernel)
  · refine List.forall_mem_cons.mpr ⟨⟨by decide, hkeyed⟩, List.forall_mem_singleton.mpr ⟨by decide, ?_⟩⟩
    simp [Descriptor.ofValue, Value.Keyed, Value.Throughout, Value.DistinctKeys]
  · refine List.forall_mem_cons.mpr ⟨?_, List.forall_mem_singleton.mpr ?_⟩ <;>
      simp [Value.Keyed, Value.Throughout, Value.ThroughoutItems, Value.DistinctKeys]
  · refine List.forall_mem_cons.mpr ⟨hfree, List.forall_mem_singleton.mpr ?_⟩
    simp [Descriptor.ofValue, Value.FloatFree, Value.Throughout, Value.NotFloat]
  · refine List.forall_mem_cons.mpr ⟨?_, List.forall_mem_singleton.mpr ?_⟩ <;>
      simp [Value.FloatFree, Value.Throughout, Value.ThroughoutItems, Value.NotFloat]

end Query

end DynamicSql
