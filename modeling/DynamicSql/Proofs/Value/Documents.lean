import DynamicSql.Proofs.Entries
import DynamicSql.Proofs.Json.Documents
import DynamicSql.Value.Document

/-!
Values read back from their documents. The shapes of values are tried in an order, and no document of a value
is taken by a shape before its own, unless it is a floating-point number.
-/
namespace DynamicSql

namespace Value

mutual

/-- The property holds of the value and of every value in it. -/
def Throughout (P : Value → Prop) : Value → Prop
  | list items => P (list items) ∧ ThroughoutItems P items
  | map entries => P (map entries) ∧ ThroughoutEntries P entries
  | null => P null
  | bool b => P (bool b)
  | int i => P (int i)
  | float x => P (float x)
  | text s => P (text s)

def ThroughoutItems (P : Value → Prop) : List Value → Prop
  | [] => True
  | v :: rest => Throughout P v ∧ ThroughoutItems P rest

def ThroughoutEntries (P : Value → Prop) : List (Text × Value) → Prop
  | [] => True
  | (_, v) :: rest => Throughout P v ∧ ThroughoutEntries P rest

end

def NotFloat (v : Value) : Prop := ∀ x, v ≠ float x

def DistinctKeys (v : Value) : Prop := ∀ entries : Entries Value, v = map entries → entries.keys.Nodup

def FloatFree (v : Value) : Prop := v.Throughout NotFloat

def Keyed (v : Value) : Prop := v.Throughout DistinctKeys

theorem throughoutEntries_iff {P : Value → Prop} {entries : List (Text × Value)} :
    ThroughoutEntries P entries ↔ ∀ entry ∈ entries, entry.2.Throughout P := by
  induction entries with
  | nil => simp [ThroughoutEntries]
  | cons entry rest ih =>
    obtain ⟨name, v⟩ := entry
    rw [ThroughoutEntries, ih, List.forall_mem_cons]

theorem ofJsonItems_eq (items : List Json) : ofJsonItems items = items.map ofJson := by
  induction items with
  | nil => rfl
  | cons j rest ih => rw [ofJsonItems, ih, List.map_cons]

theorem ofJsonMembers_eq (members : Entries Json) : ofJsonMembers members = Entries.mapValues ofJson members := by
  induction members with
  | nil => rfl
  | cons member rest ih => rw [ofJsonMembers, ih, Entries.mapValues_cons]

theorem ofJson_object {members : Entries Json} (h : members.keys.Nodup) :
    ofJson (.object members) = map (Entries.mapValues ofJson members) := by
  rw [ofJson, ofJsonMembers_eq, Entries.ofPairs_eq (by rwa [Entries.keys_mapValues])]

mutual

/-- The document of a value without floating-point numbers is written without loss. -/
theorem exact_toJson (v : Value) (h : v.FloatFree) : v.toJson.Exact := by
  match v with
  | null | bool _ | text _ => exact trivial
  | int i =>
    refine ⟨Integer.least_le_toInt i, ?_⟩
    have hle := Integer.toInt_le_greatest i
    simp only [Integer.greatest, Integer.bound64] at hle ⊢
    omega
  | float x => exact absurd rfl (h x)
  | list items => exact exactItems_toJson items h.2
  | map entries => exact exactMembers_toJson entries h.2

theorem exactItems_toJson (items : List Value) (h : ThroughoutItems NotFloat items) :
    Json.ExactItems (toJsonItems items) := by
  match items with
  | [] => trivial
  | v :: rest => exact ⟨exact_toJson v h.1, exactItems_toJson rest h.2⟩

theorem exactMembers_toJson (entries : List (Text × Value))
    (h : ThroughoutEntries NotFloat entries) : Json.ExactMembers (toJsonMembers entries) := by
  match entries with
  | [] => trivial
  | (_, v) :: rest => exact ⟨exact_toJson v h.1, exactMembers_toJson rest h.2⟩

end

mutual

/-- A value without floating-point numbers is what its document is read as, by the shape of the document. -/
theorem ofContent?_toJson (v : Value) (hf : v.FloatFree) (hk : v.Keyed) : ofContent? v.toJson = some v := by
  match v with
  | null | bool _ | text _ => rfl
  | int i =>
    have hint : Integer.ofInt? i.toInt = some i := Integer.ofInt?_eq_some_iff.mpr rfl
    simp [toJson, ofContent?, nullOf?, boolOf?, intOf?, Json.Number.asInt?, hint]
  | float x => exact absurd rfl (hf x)
  | list items =>
    rw [toJson, ofContent?, ofContentItems?_toJson items hf.2 hk.2]
    rfl
  | map entries =>
    have hnodup : Entries.keys entries |>.Nodup := hk.1 entries rfl
    rw [toJson, ofContent?, ofContentMembers?_toJson entries hf.2 hk.2, Option.map_some,
      Entries.ofPairs_eq hnodup]
    rfl

theorem ofContentItems?_toJson (items : List Value) (hf : ThroughoutItems NotFloat items)
    (hk : ThroughoutItems DistinctKeys items) :
    ofContentItems? (toJsonItems items) = some items := by
  match items with
  | [] => rfl
  | v :: rest =>
    rw [toJsonItems, ofContentItems?, ofContent?_toJson v hf.1 hk.1, ofContentItems?_toJson rest hf.2 hk.2]

theorem ofContentMembers?_toJson (entries : List (Text × Value))
    (hf : ThroughoutEntries NotFloat entries)
    (hk : ThroughoutEntries DistinctKeys entries) :
    ofContentMembers? (toJsonMembers entries) = some entries := by
  match entries with
  | [] => rfl
  | (_, v) :: rest =>
    rw [toJsonMembers, ofContentMembers?, ofContent?_toJson v hf.1 hk.1,
      ofContentMembers?_toJson rest hf.2 hk.2]

end

end Value

end DynamicSql
