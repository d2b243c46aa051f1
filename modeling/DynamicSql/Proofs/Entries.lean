import DynamicSql.Entries

/-!
How putting and erasing names of an ordered map work together. A name that is present keeps its
place, so putting it again and putting other names can change places; a name that is absent comes
last. A map of pairs has each name once, and a function of the values goes through all of this.
-/
namespace DynamicSql.Entries

variable {α : Type} {name other : Text} {value new : α} {entries added : Entries α}

@[simp] theorem keys_nil : keys ([] : Entries α) = [] := rfl

@[simp] theorem keys_cons (entry : Text × α) (rest : Entries α) :
    keys (entry :: rest) = entry.1 :: keys rest := rfl

@[simp] theorem keys_append (entries added : Entries α) :
    keys (entries ++ added) = keys entries ++ keys added := List.map_append

theorem mem_keys_put : other ∈ (put name value entries).keys ↔ other = name ∨ other ∈ entries.keys := by
  rw [keys_put]
  split <;> rename_i h
  · constructor
    · exact Or.inr
    · rintro (rfl | ho)
      · exact h
      · exact ho
  · simp [or_comm]

theorem mem_keys_erase : other ∈ (erase name entries).keys ↔ other ∈ entries.keys ∧ other ≠ name := by
  simp [keys_erase]

theorem get?_eq_none_iff : get? entries name = none ↔ name ∉ entries.keys := by
  induction entries with
  | nil => simp
  | cons entry rest ih =>
    obtain ⟨key, old⟩ := entry
    by_cases h : name = key
    · subst h
      simp [get?]
    · have hl : (name == key) = false := by simp [h]
      simpa [get?, List.lookup_cons, hl, h] using ih

/-- The entry that stands first is found. -/
theorem get?_append (entries added : Entries α) (name : Text) :
    get? (entries ++ added) name = (get? entries name).or (get? added name) := by
  simp [get?, List.lookup_append]

/-- A name that is there keeps its place. -/
theorem put_append_of_mem (h : name ∈ entries.keys) (value : α) (added : Entries α) :
    put name value (entries ++ added) = put name value entries ++ added := by
  induction entries with
  | nil => simp at h
  | cons entry rest ih =>
    by_cases he : entry.1 = name
    · simp [put, he]
    · have hr : name ∈ keys rest := by simpa [Ne.symm he] using h
      simp [put, he, ih hr]

/-- A new name goes to the end. -/
theorem put_append_of_not_mem (h : name ∉ entries.keys) (value : α) (added : Entries α) :
    put name value (entries ++ added) = entries ++ put name value added := by
  induction entries with
  | nil => rfl
  | cons entry rest ih =>
    simp only [keys_cons, List.mem_cons, not_or] at h
    simp [put, Ne.symm h.1, ih h.2]

/-- The value put last is the one that counts. -/
theorem put_put (name : Text) (value new : α) (entries : Entries α) :
    put name new (put name value entries) = put name new entries := by
  induction entries with
  | nil => simp [put]
  | cons entry rest ih =>
    by_cases he : entry.1 = name
    · simp [put, he]
    · simp [put, he, ih]

/-- Putting back what a name had undoes a put. -/
theorem put_get? (h : get? entries name = some value) : put name value entries = entries := by
  induction entries with
  | nil => simp at h
  | cons entry rest ih =>
    obtain ⟨key, old⟩ := entry
    by_cases he : key = name
    · subst he
      simp_all [put, get?]
    · have hl : (name == key) = false := by simp [Ne.symm he]
      simp only [get?, List.lookup_cons, hl] at h
      simp [put, he, ih h]

/-- A name that is there already can be put before another or after it. -/
theorem put_comm (hne : name ≠ other) (h : name ∈ entries.keys) (value new : α) :
    put name value (put other new entries) = put other new (put name value entries) := by
  induction entries with
  | nil => simp at h
  | cons entry rest ih =>
    obtain ⟨key, old⟩ := entry
    by_cases hk : key = name
    · subst hk
      simp [put, hne]
    · have hr : name ∈ keys rest := by simpa [Ne.symm hk] using h
      by_cases ho : key = other
      · subst ho
        simp [put, hk]
      · simp [put, hk, ho, ih hr]

theorem erase_of_not_mem (h : name ∉ entries.keys) : erase name entries = entries := by
  refine List.filter_eq_self.mpr fun entry he => ?_
  have : entry.1 ≠ name := fun hn => h (hn ▸ List.mem_map_of_mem he)
  simpa using this

theorem erase_append (name : Text) (entries added : Entries α) :
    erase name (entries ++ added) = erase name entries ++ erase name added := List.filter_append ..

/-- Putting a name and erasing it comes to erasing it. -/
theorem erase_put_self (name : Text) (value : α) (entries : Entries α) :
    erase name (put name value entries) = erase name entries := by
  induction entries with
  | nil => simp [put, erase]
  | cons entry rest ih =>
    by_cases he : entry.1 = name
    · simp [put, he, erase]
    · simp only [erase] at ih
      simp [put, he, erase, ih]

theorem erase_put_of_ne (hne : name ≠ other) (value : α) (entries : Entries α) :
    erase name (put other value entries) = put other value (erase name entries) := by
  induction entries with
  | nil => simp [put, erase, Ne.symm hne]
  | cons entry rest ih =>
    simp only [erase] at ih
    by_cases ho : entry.1 = other
    · have hn : entry.1 ≠ name := fun h => hne (h.symm.trans ho)
      simp [put, ho, erase, Ne.symm hne]
    · by_cases hn : entry.1 = name
      · simp [put, erase, hn, ih, hne]
      · simp [put, ho, erase, hn, ih]

/-- Putting a name makes no second entry for it. -/
theorem nodup_put (h : entries.keys.Nodup) (name : Text) (value : α) : (put name value entries).keys.Nodup := by
  rw [keys_put]
  split <;> rename_i hm
  · exact h
  · refine List.nodup_append.mpr ⟨h, by simp, fun other ho last hl => ?_⟩
    rw [List.mem_singleton.mp hl]
    rintro rfl
    exact hm ho

theorem nodup_erase (h : entries.keys.Nodup) (name : Text) : (erase name entries).keys.Nodup := by
  rw [keys_erase]
  exact h.filter _

/-- Where every name comes once, its entry is the one that is found. -/
theorem mem_iff_get? (h : entries.keys.Nodup) : (name, value) ∈ entries ↔ get? entries name = some value := by
  induction entries with
  | nil => simp
  | cons entry rest ih =>
    obtain ⟨key, old⟩ := entry
    rw [keys_cons, List.nodup_cons] at h
    by_cases he : name = key
    · subst he
      have hrest : (name, value) ∉ rest := fun hm => h.1 (List.mem_map.mpr ⟨_, hm, rfl⟩)
      simp [get?, hrest, eq_comm]
    · have hl : (name == key) = false := by simp [he]
      simpa [get?, List.lookup_cons, hl, he] using ih h.2

/-! Maps of pairs. -/

/-- What holds of the empty map and is kept when one of the pairs is put holds of their map. -/
theorem ofPairs_induction {P : Entries α → Prop} {pairs : List (Text × α)} (hnil : P [])
    (hput : ∀ name value entries, (name, value) ∈ pairs → P entries → P (put name value entries)) :
    P (ofPairs pairs) := by
  have hfold : ∀ rest before, rest ⊆ pairs → P before →
      P (rest.foldl (fun entries pair => entries.put pair.1 pair.2) before) := by
    intro rest
    induction rest with
    | nil => exact fun before _ h => h
    | cons pair rest ih =>
      intro before hsub h
      rw [List.cons_subset] at hsub
      exact ih _ hsub.2 (hput pair.1 pair.2 before hsub.1 h)
  exact hfold pairs [] (List.Subset.refl _) hnil

/-- Pairs with repeated names make entries without. -/
theorem nodup_ofPairs (pairs : Entries α) : (ofPairs pairs).keys.Nodup :=
  ofPairs_induction (P := fun entries => entries.keys.Nodup) List.nodup_nil
    fun name value _ _ h => nodup_put h name value

theorem eq_or_mem_of_mem_put {entry : Text × α} (h : entry ∈ put name value entries) :
    entry = (name, value) ∨ entry ∈ entries := by
  induction entries with
  | nil => exact .inl (List.mem_singleton.mp h)
  | cons first rest ih =>
    rw [put] at h
    split at h
    · next hf => exact (List.mem_cons.mp h).imp (fun he => by rw [he, hf]) (List.mem_cons_of_mem _)
    · rcases List.mem_cons.mp h with rfl | h
      · exact .inr List.mem_cons_self
      · exact (ih h).imp_right (List.mem_cons_of_mem _)

/-- Every entry is one of the pairs. -/
theorem mem_of_mem_ofPairs {pairs : Entries α} {entry : Text × α} (h : entry ∈ ofPairs pairs) : entry ∈ pairs := by
  refine ofPairs_induction (P := fun entries => ∀ entry ∈ entries, entry ∈ pairs) (by simp) ?_ entry h
  intro name value entries hpair ih entry he
  rcases eq_or_mem_of_mem_put he with rfl | he
  · exact hpair
  · exact ih entry he

/-- Pairs whose names are all different are a map as they are. -/
theorem ofPairs_eq {pairs : Entries α} (h : pairs.keys.Nodup) : ofPairs pairs = pairs := by
  have hfold : ∀ added before : Entries α, (before ++ added).keys.Nodup →
      added.foldl (fun entries pair => entries.put pair.1 pair.2) before = before ++ added := by
    intro added
    induction added with
    | nil => simp
    | cons pair added ih =>
      obtain ⟨name, value⟩ := pair
      intro before hnodup
      have hnew : name ∉ before.keys := by
        rw [keys_append, keys_cons, List.nodup_append] at hnodup
        exact fun hm => hnodup.2.2 name hm name List.mem_cons_self rfl
      have hput : put name value before = before ++ [(name, value)] := by
        have happend := put_append_of_not_mem hnew value []
        rwa [List.append_nil] at happend
      rw [List.foldl_cons, hput, ih _ (by simpa using hnodup), List.append_assoc]
      rfl
  exact hfold pairs [] h

theorem nodup_sorted (h : entries.keys.Nodup) : entries.sorted.keys.Nodup :=
  ((List.mergeSort_perm entries _).map Prod.fst).nodup_iff.mpr h

/-! Functions of the values. -/

section MapValues

variable {β : Type} (f : α → β)

def mapValues (entries : Entries α) : Entries β := entries.map fun entry => (entry.1, f entry.2)

@[simp] theorem mapValues_nil : mapValues f [] = [] := rfl

@[simp] theorem mapValues_cons (entry : Text × α) (rest : Entries α) :
    mapValues f (entry :: rest) = (entry.1, f entry.2) :: mapValues f rest := rfl

theorem keys_mapValues (entries : Entries α) : (mapValues f entries).keys = entries.keys := by
  induction entries with
  | nil => rfl
  | cons entry rest ih => rw [mapValues_cons, keys_cons, keys_cons, ih]

theorem get?_mapValues (entries : Entries α) (name : Text) :
    get? (mapValues f entries) name = (get? entries name).map f := by
  induction entries with
  | nil => rfl
  | cons entry rest ih =>
    obtain ⟨key, value⟩ := entry
    simp only [get?] at ih
    simp only [mapValues_cons, get?, List.lookup_cons, ih]
    cases name == key <;> rfl

/-- Mapped values have the same names at the same places. -/
theorem mapValues_put (name : Text) (value : α) (entries : Entries α) :
    mapValues f (put name value entries) = put name (f value) (mapValues f entries) := by
  induction entries with
  | nil => rfl
  | cons entry rest ih =>
    by_cases he : entry.1 = name
    · simp [put, he]
    · simp [put, he, ih]

theorem mapValues_ofPairs (pairs : Entries α) : mapValues f (ofPairs pairs) = ofPairs (mapValues f pairs) := by
  rw [ofPairs, ofPairs, mapValues.eq_def f pairs, List.foldl_map]
  exact (List.foldl_hom (mapValues f) fun entries pair => (mapValues_put f pair.1 pair.2 entries).symm).symm

/-- The order of the names is blind to the values. -/
theorem mapValues_sorted (entries : Entries α) : mapValues f entries.sorted = (mapValues f entries).sorted :=
  List.map_mergeSort fun _ _ _ _ => rfl

end MapValues

end DynamicSql.Entries
