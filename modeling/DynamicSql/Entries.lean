import DynamicSql.Text.Basic

/-!
Maps from names that remember the order in which their names first came. Putting a name that is present
keeps its place and takes the new value; erasing keeps the order of the others.
-/
namespace DynamicSql

abbrev Entries (α : Type) := List (Text × α)

namespace Entries

variable {α : Type}

def keys (entries : Entries α) : List Text := entries.map Prod.fst

def get? (entries : Entries α) (name : Text) : Option α := entries.lookup name

def put (name : Text) (value : α) : Entries α → Entries α
  | [] => [(name, value)]
  | (key, old) :: rest => if key = name then (key, value) :: rest else (key, old) :: put name value rest

def erase (name : Text) (entries : Entries α) : Entries α := entries.filter fun entry => entry.1 != name

/-- The map that putting the pairs one after the other gives: first place, last value. -/
def ofPairs (pairs : List (Text × α)) : Entries α :=
  pairs.foldl (fun entries pair => entries.put pair.1 pair.2) []

/-- The same entries in the order of their names. -/
def sorted (entries : Entries α) : Entries α := entries.mergeSort fun a b => Text.le a.1 b.1

@[simp] theorem get?_nil (name : Text) : get? ([] : Entries α) name = none := rfl

theorem get?_put_self (name : Text) (value : α) (entries : Entries α) :
    (entries.put name value).get? name = some value := by
  induction entries with
  | nil => simp [put, get?]
  | cons entry rest ih =>
    obtain ⟨key, old⟩ := entry
    by_cases h : key = name
    · simp [put, get?, h]
    · have h' : (name == key) = false := by simp [Ne.symm h]
      simpa [put, get?, List.lookup_cons, h, h'] using ih

theorem get?_put_of_ne {name other : Text} (h : other ≠ name) (value : α) (entries : Entries α) :
    (entries.put name value).get? other = entries.get? other := by
  induction entries with
  | nil =>
    have h' : (other == name) = false := by simp [h]
    simp [put, get?, List.lookup_cons, h']
  | cons entry rest ih =>
    obtain ⟨key, old⟩ := entry
    by_cases hk : key = name
    · subst hk
      have h' : (other == key) = false := by simp [h]
      simp [put, get?, List.lookup_cons, h']
    · by_cases ho : other = key
      · subst ho
        simp [put, get?, hk]
      · have h' : (other == key) = false := by simp [ho]
        simpa [put, get?, List.lookup_cons, hk, h'] using ih

theorem keys_put (name : Text) (value : α) (entries : Entries α) :
    (entries.put name value).keys =
      if name ∈ entries.keys then entries.keys else entries.keys ++ [name] := by
  induction entries with
  | nil => simp [put, keys]
  | cons entry rest ih =>
    obtain ⟨key, old⟩ := entry
    by_cases h : key = name
    · simp [put, keys, h]
    · have ih' := ih
      simp only [keys] at ih'
      by_cases hm : name ∈ rest.map Prod.fst
      · simp [put, keys, h, Ne.symm h, ih', hm]
      · simp [put, keys, h, Ne.symm h, ih', hm]

theorem get?_put (name other : Text) (value : α) (entries : Entries α) :
    (entries.put name value).get? other = if other = name then some value else entries.get? other := by
  by_cases h : other = name
  · subst h
    simp [get?_put_self]
  · simp [h, get?_put_of_ne h]

theorem get?_erase (name other : Text) (entries : Entries α) :
    (entries.erase name).get? other = if other = name then none else entries.get? other := by
  induction entries with
  | nil => simp [erase]
  | cons entry rest ih =>
    obtain ⟨key, value⟩ := entry
    have ih' : List.lookup other (rest.filter fun entry => entry.1 != name) =
        if other = name then none else List.lookup other rest := by simpa [get?, erase] using ih
    by_cases hk : key = name
    · subst hk
      by_cases ho : other = key
      · subst ho
        simpa [get?, erase] using ih'
      · have h' : (other == key) = false := by simp [ho]
        simpa [get?, erase, List.lookup_cons, h', ho] using ih'
    · by_cases ho : other = key
      · subst ho
        simp [get?, erase, hk]
      · have h' : (other == key) = false := by simp [ho]
        simpa [get?, erase, List.lookup_cons, hk, h'] using ih'

theorem keys_erase (name : Text) (entries : Entries α) :
    (entries.erase name).keys = entries.keys.filter (· != name) := by
  simp only [keys, erase, List.filter_map]
  rfl

end Entries

end DynamicSql
