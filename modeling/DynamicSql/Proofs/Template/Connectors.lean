import DynamicSql.Proofs.Template.Trimming
import DynamicSql.Proofs.Text.Words

/-!
Connectors at the start of a `WHERE` clause. The clause knows them by the separator behind them. Main statement: it
drops the first word of a body that is one, except where the body ends there or another blank follows.
-/
namespace DynamicSql.TrimRule

open Text (equalIgnoringCase isBlank trim trimStart words)

variable {body w r : Text}

def IsConnector (w : Text) : Prop := ∃ c ∈ ["AND".toList, "OR".toList], equalIgnoringCase w c = true

instance : DecidablePred IsConnector := fun _ => inferInstanceAs (Decidable (∃ _ ∈ _, _))

def separators : List Char := [' ', '\n', '\r', '\t']

/-- The clause by the words of its body: the first is dropped if it is a connector. -/
def whereWords (body : Text) : Text :=
  match words body with
  | [] => []
  | first :: others =>
    if IsConnector first then
      if others = [] then [] else "WHERE ".toList ++ trim ((trimStart body).drop first.length)
    else "WHERE ".toList ++ trim body

/-- The body begins with a connector, and no separator is behind it: nothing is there, or a blank of another kind. -/
def Stuck (body : Text) : Prop :=
  ∃ w r, trim body = w ++ r ∧ IsConnector w ∧ ∀ c ∈ r.head?, isBlank c = true ∧ c ∉ separators

/-- What is dropped at the beginning is a connector with a separator behind it. -/
theorem mem_leading_iff {connector : Text} : connector ∈ whereClause.leading ↔
    ∃ w ∈ ["AND".toList, "OR".toList], ∃ c ∈ separators, connector = w ++ [c] := by
  have hall : whereClause.leading = separators.flatMap fun c => ["AND".toList, "OR".toList].map (· ++ [c]) := by decide
  rw [hall]
  simp only [List.mem_flatMap, List.mem_map]
  exact ⟨fun ⟨c, hc, w, hw, h⟩ => ⟨w, hw, c, hc, h.symm⟩, fun ⟨w, hw, c, hc, h⟩ => ⟨c, hc, w, hw, h.symm⟩⟩

theorem isBlank_of_mem_separators {c : Char} (h : c ∈ separators) : isBlank c = true := by
  have hall : separators.all isBlank = true := by decide
  exact List.all_eq_true.mp hall c h

theorem unbroken_of_mem {v : Text} (h : v ∈ ["AND".toList, "OR".toList]) : ∀ c ∈ v, isBlank c = false := by
  have hall : ["AND".toList, "OR".toList].all (fun v => v.all fun c => !isBlank c) = true := by decide
  simpa using List.all_eq_true.mp hall v h

/-- The end of a clause loses nothing. -/
theorem apply_whereClause (body : Text) :
    whereClause.apply body = whereClause.clause (whereClause.dropLeading (trim body)) := by
  rw [apply_eq_clause]
  rfl

theorem clause_whereClause {core : Text} (h : core ≠ []) : whereClause.clause core = "WHERE ".toList ++ core := by
  rw [clause, if_neg h]
  simp [whereClause]

/-! A body without words. -/

theorem apply_whereClause_of_trim_eq_nil (h : trim body = []) : whereClause.apply body = [] := by
  rw [apply_whereClause, h]
  rfl

theorem not_stuck_of_trim_eq_nil (h : trim body = []) : ¬ Stuck body := by
  rintro ⟨v, t, ht, ⟨u, hu, heq⟩, -⟩
  rw [h, eq_comm, List.append_eq_nil_iff] at ht
  have hlength := Text.length_eq_of_equalIgnoringCase heq
  rw [ht.1, List.length_nil, eq_comm, List.length_eq_zero_iff] at hlength
  subst hlength
  revert hu
  decide

/-! A body with a first word `w`. -/

section FirstWord

variable (hw : ∀ c ∈ w, isBlank c = false) (hr : ∀ c ∈ r.head?, isBlank c = true)

include hw hr

/-- A word with a separator begins a text exactly where it is the first word and the separator is behind it. -/
theorem begins_iff {v : Text} {c : Char} (hv : ∀ d ∈ v, isBlank d = false) (hc : isBlank c = true) :
    Begins (v ++ [c]) (w ++ r) ↔ equalIgnoringCase w v = true ∧ r.head? = some c := by
  have hsplit : ∀ x y : Text, Text.toLower (x ++ y) = Text.toLower x ++ Text.toLower y := fun x y => List.map_append
  constructor
  · rintro ⟨u, ⟨rest, hu⟩, heq⟩
    obtain ⟨x, d, rfl⟩ : ∃ x d, u = x ++ [d] := by
      have hlength := Text.length_eq_of_equalIgnoringCase heq
      have hne : u ≠ [] := by
        rintro rfl
        simp at hlength
      exact ⟨_, _, (List.dropLast_concat_getLast hne).symm⟩
    have hlow : Text.toLower x ++ [d.toLower] = Text.toLower v ++ [c.toLower] := by
      rw [equalIgnoringCase, beq_iff_eq, hsplit, hsplit] at heq
      exact heq
    obtain ⟨hx, hd⟩ := List.append_inj' hlow rfl
    rw [List.cons.injEq, and_iff_left rfl] at hd
    have hblank : isBlank d = true := by rw [← Text.isBlank_toLower, hd, Text.isBlank_toLower, hc]
    obtain rfl : d = c := by
      rwa [Text.toLower_of_isBlank hblank, Text.toLower_of_isBlank hc] at hd
    have hword : equalIgnoringCase x v = true := beq_iff_eq.mpr hx
    rw [List.append_assoc] at hu
    obtain ⟨rfl, rfl⟩ := Text.append_inj_of_unbroken (Text.not_isBlank_of_equalIgnoringCase hword hv)
      (by simpa using hblank) hw hr hu
    exact ⟨hword, rfl⟩
  · rintro ⟨heq, hhead⟩
    obtain ⟨rest, rfl⟩ := List.head?_eq_some_iff.mp hhead
    refine ⟨w ++ [c], ⟨rest, by simp⟩, ?_⟩
    rw [equalIgnoringCase, hsplit, hsplit, beq_iff_eq.mp heq]
    exact beq_self_eq_true _

/-- A connector of the clause that begins a text is its first word, with a separator behind it. -/
theorem exists_separator_of_begins {connector : Text} (hm : connector ∈ whereClause.leading)
    (h : beginsWith connector (w ++ r) = true) :
    connector.length = w.length + 1 ∧ IsConnector w ∧ ∃ c ∈ separators, r.head? = some c := by
  obtain ⟨v, hv, c, hc, rfl⟩ := mem_leading_iff.mp hm
  rw [beginsWith_iff, begins_iff hw hr (unbroken_of_mem hv) (isBlank_of_mem_separators hc)] at h
  exact ⟨by simp [Text.length_eq_of_equalIgnoringCase h.1], ⟨v, hv, h.1⟩, c, hc, h.2⟩

/-- A connector with a separator behind it is dropped, and the blanks behind it. -/
theorem dropLeading_of_connector (hconnector : IsConnector w) (hsep : ∃ c ∈ separators, r.head? = some c) :
    whereClause.dropLeading (w ++ r) = trimStart r := by
  obtain ⟨v, hv, heq⟩ := hconnector
  obtain ⟨c, hc, hhead⟩ := hsep
  have hbegins : beginsWith (v ++ [c]) (w ++ r) = true := by
    rw [beginsWith_iff, begins_iff hw hr (unbroken_of_mem hv) (isBlank_of_mem_separators hc)]
    exact ⟨heq, hhead⟩
  obtain ⟨connector, hfind⟩ : ∃ connector, whereClause.leading.find? (beginsWith · (w ++ r)) = some connector :=
    Option.isSome_iff_exists.mp
      (List.find?_isSome.mpr ⟨v ++ [c], mem_leading_iff.mpr ⟨v, hv, c, hc, rfl⟩, hbegins⟩)
  have hfound := List.find?_some hfind
  have hlength := (exists_separator_of_begins hw hr (List.mem_of_find?_eq_some hfind) hfound).1
  obtain ⟨rest, rfl⟩ := List.head?_eq_some_iff.mp hhead
  rw [dropLeading, hfind]
  dsimp only
  rw [hlength, List.drop_length_add_append, List.drop_one, List.tail_cons, trimStart, trimStart,
    List.dropWhile_cons_of_pos (isBlank_of_mem_separators hc)]

/-- Any other start is kept. -/
theorem dropLeading_of_not_connector (h : ¬ (IsConnector w ∧ ∃ c ∈ separators, r.head? = some c)) :
    whereClause.dropLeading (w ++ r) = w ++ r := by
  have hnone : whereClause.leading.find? (beginsWith · (w ++ r)) = none :=
    List.find?_eq_none.mpr fun connector hm hbegins => h (exists_separator_of_begins hw hr hm hbegins).2
  rw [dropLeading, hnone]

/-- Whether a body is stuck shows at the first blank of it. -/
theorem stuck_iff (h : trim body = w ++ r) :
    Stuck body ↔ IsConnector w ∧ ¬ ∃ c ∈ separators, r.head? = some c := by
  constructor
  · rintro ⟨v, t, ht, ⟨u, hu, heq⟩, hblank⟩
    have hv := Text.not_isBlank_of_equalIgnoringCase heq (unbroken_of_mem hu)
    obtain ⟨rfl, rfl⟩ := Text.append_inj_of_unbroken hv (fun c hc => (hblank c hc).1) hw hr (ht.symm.trans h)
    exact ⟨⟨u, hu, heq⟩, fun ⟨c, hc, hhead⟩ => (hblank c hhead).2 hc⟩
  · rintro ⟨hconnector, hnone⟩
    exact ⟨w, r, h, hconnector, fun c hc => ⟨hr c hc, fun hm => hnone ⟨c, hm, hc⟩⟩⟩

/-- Where the connector is dropped, another word is behind it, as no blank ends a trimmed body. -/
theorem apply_whereClause_of_connector (h : trim body = w ++ r) (hconnector : IsConnector w)
    (hsep : ∃ c ∈ separators, r.head? = some c) :
    words r ≠ [] ∧ whereClause.apply body = "WHERE ".toList ++ trim r := by
  have hsuffix : r <:+ trim body := ⟨w, h.symm⟩
  have hrne : r ≠ [] := by
    rintro rfl
    obtain ⟨c, -, hc⟩ := hsep
    cases hc
  have hcore : trim r ≠ [] := (Text.trimmed_trim body).trim_suffix_ne_nil hsuffix hrne
  refine ⟨mt Text.words_eq_nil_iff.mp hcore, ?_⟩
  rw [apply_whereClause, h, dropLeading_of_connector hw hr hconnector hsep,
    ← (Text.trimmed_trim body).trim_suffix hsuffix, clause_whereClause hcore]

/-- A body that begins with no connector stays whole. -/
theorem apply_whereClause_of_not_connector (h : trim body = w ++ r) (hne : w ≠ [])
    (hnot : ¬ (IsConnector w ∧ ∃ c ∈ separators, r.head? = some c)) :
    whereClause.apply body = "WHERE ".toList ++ trim body := by
  have hbody : w ++ r ≠ [] := by simp [hne]
  rw [apply_whereClause, h, dropLeading_of_not_connector hw hr hnot, clause_whereClause hbody]

end FirstWord

/-- The first word is dropped when it is a connector, and the clause with it when nothing follows. -/
theorem whereWords_eq (h : trim body = w ++ r) (hwords : words body = w :: words r) : whereWords body =
    if IsConnector w then if words r = [] then [] else "WHERE ".toList ++ trim r
    else "WHERE ".toList ++ trim body := by
  rw [whereWords, hwords, ← Text.trim_drop_word h]

/-- What is left of a body without its first word is shorter than the body. -/
theorem append_trim_ne (hne : w ≠ []) (s : Text) : s ++ (w ++ r) ≠ s ++ trim r := by
  intro h
  have hlength := congrArg List.length (List.append_cancel_left h)
  have hle := Text.length_trim_le r
  have hpos := List.length_pos_of_ne_nil hne
  rw [List.length_append] at hlength
  omega

/-- The clause is what the words of its body make of it, except that a stuck connector stays where it is. -/
theorem apply_whereClause_iff (body : Text) : (whereClause.apply body = whereWords body ↔ ¬ Stuck body) ∧
    (Stuck body → whereClause.apply body = "WHERE ".toList ++ trim body) := by
  rcases Text.trim_cases body with ⟨htrim, hwords⟩ | ⟨w, r, htrim, hne, hw, hr, hwords⟩
  · have hfree := not_stuck_of_trim_eq_nil htrim
    rw [apply_whereClause_of_trim_eq_nil htrim, whereWords, hwords]
    exact ⟨iff_of_true rfl hfree, fun h => absurd h hfree⟩
  · rw [stuck_iff hw hr htrim, whereWords_eq htrim hwords]
    by_cases hconnector : IsConnector w
    · rw [if_pos hconnector]
      by_cases hsep : ∃ c ∈ separators, r.head? = some c
      · obtain ⟨hmore, happly⟩ := apply_whereClause_of_connector hw hr htrim hconnector hsep
        rw [happly, if_neg hmore]
        exact ⟨iff_of_true rfl fun h => h.2 hsep, fun h => absurd hsep h.2⟩
      · rw [apply_whereClause_of_not_connector hw hr htrim hne fun h => hsep h.2, htrim]
        refine ⟨iff_of_false ?_ (not_not_intro ⟨hconnector, hsep⟩), fun _ => rfl⟩
        split
        · simp
        · exact append_trim_ne hne _
    · rw [if_neg hconnector, apply_whereClause_of_not_connector hw hr htrim hne fun h => hconnector h.1]
      exact ⟨iff_of_true rfl fun h => hconnector h.1, fun _ => rfl⟩

/-- A connector that is the whole body is kept, and so is one before a vertical tab. -/
theorem loneConnector_kept :
    whereClause.apply "AND".toList = "WHERE AND".toList ∧ whereWords "AND".toList = [] ∧
      whereClause.apply "or\x0bx".toList = "WHERE or\x0bx".toList ∧
      whereWords "or\x0bx".toList = "WHERE x".toList := by
  decide

end DynamicSql.TrimRule
