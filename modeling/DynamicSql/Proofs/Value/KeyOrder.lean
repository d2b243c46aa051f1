import DynamicSql.Proofs.Json.Numbers
import DynamicSql.Proofs.Value.Documents

/-!
The two ways from a text to a value: through its canonical document, whose names are in order, and by the
shapes of values, with the names in the order of the text. Main statement: both accept the same texts, and the
first gives the value of the second with its maps in the order of their keys, which is equal to it.
-/
namespace DynamicSql.Value

mutual

def ordered : Value → Value
  | list items => list (orderedItems items)
  | map entries => map (Entries.sorted (orderedEntries entries))
  | v => v

def orderedItems : List Value → List Value
  | [] => []
  | v :: rest => ordered v :: orderedItems rest

def orderedEntries : List (Text × Value) → List (Text × Value)
  | [] => []
  | (key, v) :: rest => (key, ordered v) :: orderedEntries rest

end

theorem orderedEntries_eq (entries : Entries Value) : orderedEntries entries = Entries.mapValues ordered entries := by
  induction entries with
  | nil => rfl
  | cons entry rest ih => rw [orderedEntries, ih, Entries.mapValues_cons]

theorem canonicalMembers_eq (members : Entries Json) :
    Json.canonicalMembers members = Entries.mapValues Json.canonical members := by
  induction members with
  | nil => rfl
  | cons member rest ih => rw [Json.canonicalMembers, ih, Entries.mapValues_cons]

/-! The values of documents. -/

mutual

/-- The canonical document has the value in the order of its keys. -/
theorem ofJson_canonical (j : Json) : ofJson j.canonical = (ofJson j).ordered := by
  match j with
  | .null | .bool _ | .text _ | .unrepresentable => rfl
  | .number (.float _) => rfl
  | .number (.integer i) =>
    simp only [Json.canonical, ofJson, Json.Number.toValue]
    split <;> rfl
  | .list items => rw [Json.canonical, ofJson, ofJson, ordered, ofJsonItems_canonical items]
  | .object members =>
    have hmembers := ofJsonMembers_canonical members
    rw [orderedEntries_eq, ofJsonMembers_eq, ofJsonMembers_eq, canonicalMembers_eq] at hmembers
    rw [Json.canonical, ofJson_object (Entries.nodup_sorted (Entries.nodup_ofPairs _)), canonicalMembers_eq,
      Entries.mapValues_sorted, Entries.mapValues_ofPairs, hmembers, ← Entries.mapValues_ofPairs, ofJson, ordered,
      orderedEntries_eq, ofJsonMembers_eq]

theorem ofJsonItems_canonical (items : List Json) :
    ofJsonItems (Json.canonicalItems items) = orderedItems (ofJsonItems items) := by
  match items with
  | [] => rfl
  | j :: rest =>
    rw [Json.canonicalItems, ofJsonItems, ofJsonItems, orderedItems, ofJson_canonical j, ofJsonItems_canonical rest]

theorem ofJsonMembers_canonical (members : List (Text × Json)) :
    ofJsonMembers (Json.canonicalMembers members) = orderedEntries (ofJsonMembers members) := by
  match members with
  | [] => rfl
  | (name, j) :: rest =>
    rw [Json.canonicalMembers, ofJsonMembers, ofJsonMembers, orderedEntries, ofJson_canonical j,
      ofJsonMembers_canonical rest]

end

mutual

/-- Of the shapes of values, a document that has a value is taken by its own. -/
theorem ofContent?_eq {limit : Nat} (j : Json) (h : j.readable limit = true) : ofContent? j = some (ofJson j) := by
  match j with
  | .null | .bool _ | .text _ => rfl
  | .unrepresentable => cases h
  | .number (.float _) => rfl
  | .number (.integer i) =>
    simp only [ofContent?, nullOf?, boolOf?, intOf?, floatOf?, Json.Number.asInt?, Json.Number.asFloat, ofJson,
      Json.Number.toValue]
    cases Integer.ofInt? i <;> rfl
  | .list items =>
    rw [Json.readable, Bool.and_eq_true] at h
    rw [ofContent?, ofContentItems?_eq items h.2]
    rfl
  | .object members =>
    rw [Json.readable, Bool.and_eq_true] at h
    rw [ofContent?, ofContentMembers?_eq members h.2]
    rfl

theorem ofContentItems?_eq {limit : Nat} (items : List Json) (h : Json.readableItems limit items = true) :
    ofContentItems? items = some (ofJsonItems items) := by
  match items with
  | [] => rfl
  | j :: rest =>
    rw [Json.readableItems, Bool.and_eq_true] at h
    rw [ofContentItems?, ofContent?_eq j h.1, ofContentItems?_eq rest h.2]
    rfl

theorem ofContentMembers?_eq {limit : Nat} (members : List (Text × Json))
    (h : Json.readableMembers limit members = true) : ofContentMembers? members = some (ofJsonMembers members) := by
  match members with
  | [] => rfl
  | (name, j) :: rest =>
    rw [Json.readableMembers, Bool.and_eq_true] at h
    rw [ofContentMembers?, ofContent?_eq j h.1, ofContentMembers?_eq rest h.2]
    rfl

end

/-! Equality does not see the order of the keys. -/

/-- A map has each of its keys once, and a floating-point number is no not-a-number. -/
structure Regular (v : Value) : Prop where
  keys : v.DistinctKeys
  number : ∀ x, v = float x → x.isNaN = false

/-- Every entry has one of the same name that is equal to it. -/
theorem contained_iff {a b : Entries Value} :
    contained a b = true ↔ ∀ entry ∈ a, ∃ w, Entries.get? b entry.1 = some w ∧ equal entry.2 w = true := by
  induction a with
  | nil => simp [contained]
  | cons entry rest ih =>
    obtain ⟨key, v⟩ := entry
    rw [contained, Bool.and_eq_true, ih, List.forall_mem_cons]
    refine and_congr_left fun _ => ?_
    cases Entries.get? b key <;> simp

mutual

/-- Ordering the keys of a regular value leaves one that is equal to it. -/
theorem equal_ordered (v : Value) (h : v.Throughout Regular) : v.ordered.equal v = true := by
  match v with
  | null => rfl
  | bool b => exact beq_self_eq_true b
  | int i => exact beq_self_eq_true i
  | float x => exact Binary64.beq_self (h.number x rfl)
  | text s => exact beq_self_eq_true s
  | list items =>
    rw [ordered, equal]
    exact equalItems_ordered items h.2
  | map entries =>
    have hnodup : Entries.keys entries |>.Nodup := h.1.keys entries rfl
    have hlength : (Entries.sorted (orderedEntries entries)).length = entries.length := by
      rw [Entries.sorted, List.length_mergeSort, orderedEntries_eq, Entries.mapValues, List.length_map]
    rw [ordered, equal, hlength, beq_self_eq_true, Bool.true_and, contained_iff]
    rintro ⟨key, w⟩ hm
    rw [Entries.sorted, List.mem_mergeSort] at hm
    obtain ⟨v, hv, heq⟩ := exists_of_mem_orderedEntries entries h.2 key w hm
    exact ⟨v, (Entries.mem_iff_get? hnodup).mp hv, heq⟩

theorem equalItems_ordered (items : List Value) (h : ThroughoutItems Regular items) :
    equalItems (orderedItems items) items = true := by
  match items with
  | [] => rfl
  | v :: rest =>
    rw [orderedItems, equalItems, equal_ordered v h.1, equalItems_ordered rest h.2]
    rfl

/-- An entry that was ordered was there before, with an equal value. -/
theorem exists_of_mem_orderedEntries (entries : List (Text × Value)) (h : ThroughoutEntries Regular entries)
    (key : Text) (w : Value) (hm : (key, w) ∈ orderedEntries entries) :
    ∃ v, (key, v) ∈ entries ∧ w.equal v = true := by
  match entries with
  | [] => simp [orderedEntries] at hm
  | (first, v) :: rest =>
    rw [orderedEntries] at hm
    rcases List.mem_cons.mp hm with he | hm
    · obtain ⟨rfl, rfl⟩ := Prod.mk.inj he
      exact ⟨v, List.mem_cons_self, equal_ordered v h.1⟩
    · obtain ⟨v', hv, hw⟩ := exists_of_mem_orderedEntries rest h.2 key w hm
      exact ⟨v', List.mem_cons_of_mem _ hv, hw⟩

end

/-- A scalar that is no NaN is regular. -/
theorem regular_of_scalar {v : Value} (hv : v.isScalar = true) (hn : ∀ x, v = float x → x.isNaN = false) :
    v.Regular := by
  refine ⟨fun entries he => ?_, hn⟩
  rw [he] at hv
  cases hv

mutual

/-- A value that was read is regular throughout. -/
theorem regular_ofJson (j : Json) (h : j.Numeric) : (ofJson j).Throughout Regular := by
  match j with
  | .null | .bool _ | .text _ | .unrepresentable => exact regular_of_scalar rfl (by rintro x ⟨⟩)
  | .number (.float x) =>
    refine regular_of_scalar rfl ?_
    rintro y ⟨⟩
    exact h
  | .number (.integer i) =>
    rw [ofJson, Json.Number.toValue]
    split
    · exact regular_of_scalar rfl (by rintro x ⟨⟩)
    · refine regular_of_scalar rfl ?_
      rintro x ⟨⟩
      exact Binary64.isNaN_ofInt i
  | .list items => exact ⟨⟨by rintro entries ⟨⟩, by rintro x ⟨⟩⟩, regularItems_ofJson items h⟩
  | .object members =>
    have hkeys : (map (Entries.ofPairs (ofJsonMembers members))).DistinctKeys := by
      rintro entries ⟨⟩
      exact Entries.nodup_ofPairs _
    refine ⟨⟨hkeys, by rintro x ⟨⟩⟩, throughoutEntries_iff.mpr fun entry hm => ?_⟩
    exact regularMembers_ofJson members h entry (Entries.mem_of_mem_ofPairs hm)

theorem regularItems_ofJson (items : List Json) (h : Json.NumericItems items) :
    ThroughoutItems Regular (ofJsonItems items) := by
  match items with
  | [] => trivial
  | j :: rest => exact ⟨regular_ofJson j h.1, regularItems_ofJson rest h.2⟩

theorem regularMembers_ofJson (members : List (Text × Json)) (h : Json.NumericMembers members) :
    ∀ entry ∈ ofJsonMembers members, entry.2.Throughout Regular := by
  match members with
  | [] => simp [ofJsonMembers]
  | (name, j) :: rest =>
    rw [ofJsonMembers, List.forall_mem_cons]
    exact ⟨regular_ofJson j h.1, regularMembers_ofJson rest h.2⟩

end

/-! Texts. -/

def accepts (s : Text) : Bool := (Json.parse? s).any fun j => j.readable Json.nestingLimit

/--
A text that is a document has a value both ways. They differ in the order of keys alone: numbers, also those beyond
the integers and negative zero, repeated names and collections come out alike at every depth.
-/
theorem ofCanonicalText?_agrees {s : Text} (h : accepts s = true) :
    ∃ v w, ofCanonicalText? s = some v ∧ ofJsonText? s = some w ∧ v = w.ordered ∧ v.equal w = true := by
  obtain ⟨j, hj, hr⟩ := (Option.any_eq_true _ _).mp h
  refine ⟨ofJson j.canonical, ofJson j, ?_, ?_, ofJson_canonical j, ?_⟩
  · rw [ofCanonicalText?, hj]
    exact if_pos hr
  · rw [ofJsonText?, hj, ← ofContent?_eq j hr]
    exact if_pos hr
  · rw [ofJson_canonical]
    exact equal_ordered _ (regular_ofJson j (Json.numeric_of_parse? hj))

def repeatedText : Text :=
  "\x7b\"b\":[],\"a\":true,\"b\":[-0,18446744073709551615,\x7b\"k\":1,\"a\":null,\"k\":25e-1\x7d]\x7d".toList

theorem repeatedText_agrees : accepts repeatedText = true ∧
    ∃ v w, ofCanonicalText? repeatedText = some v ∧ ofJsonText? repeatedText = some w ∧ v = w.ordered ∧
      w.toJsonText =
        "\x7b\"b\":[-0.0,1.8446744073709552e+19,\x7b\"k\":2.5,\"a\":null\x7d],\"a\":true\x7d".toList ∧
      v.equal w = true := by
  have haccepts : accepts repeatedText = true := by decide +kernel
  obtain ⟨v, w, hv, hw, horder, heq⟩ := ofCanonicalText?_agrees haccepts
  have htext : (ofJsonText? repeatedText).map toJsonText =
      some "\x7b\"b\":[-0.0,1.8446744073709552e+19,\x7b\"k\":2.5,\"a\":null\x7d],\"a\":true\x7d".toList := by
    decide +kernel
  rw [hw] at htext
  exact ⟨haccepts, v, w, hv, hw, horder, Option.some.inj htext, heq⟩

end DynamicSql.Value
