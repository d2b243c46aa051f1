import DynamicSql.Json.Printing
import DynamicSql.Json.Reading
import DynamicSql.Proofs.Json.Scalars

/-!
Documents read back from their compact form. Main statement: a document without floating-point numbers, whose
integers fit a word, is what its compact form is read as, whatever follows it in the text.
-/
namespace DynamicSql.Json

variable {j : Json} {items : List Json} {members : List (Text × Json)} {fuel : Nat} {c : Char} {r rest : Text}

mutual

/-- Written without loss: no floating-point number, and integers that fit a word. -/
def Exact : Json → Prop
  | number (.integer i) => Integer.least ≤ i ∧ i < Integer.bound64
  | number (.float _) | unrepresentable => False
  | list items => ExactItems items
  | object members => ExactMembers members
  | null | bool _ | text _ => True

def ExactItems : List Json → Prop
  | [] => True
  | j :: rest => Exact j ∧ ExactItems rest

def ExactMembers : List (Text × Json) → Prop
  | [] => True
  | (_, j) :: rest => Exact j ∧ ExactMembers rest

end

/-- What stands behind a value: nothing, or a mark of the collection around it. -/
def Closes (rest : Text) : Prop := ∀ c ∈ rest.head?, c = ',' ∨ c = ']' ∨ c = '\x7d'

/-- What closes a value ends a number before it. -/
theorem Closes.endsNumber (h : Closes rest) : EndsNumber rest := by
  intro c hc
  rcases h c hc with rfl | rfl | rfl <;> decide

theorem skipSpaces_cons (h : isSpace c = false) (r : Text) : skipSpaces (c :: r) = c :: r := by
  simp [skipSpaces, h]

def Begins (c : Char) : Prop := c.isDigit = true ∨ c ∈ ['n', 't', 'f', '\x22', '[', '\x7b', '-']

instance : DecidablePred Begins := fun _ => inferInstanceAs (Decidable (_ ∨ _))

theorem Begins.isSpace (h : Begins c) : isSpace c = false := by
  rcases h with h | h
  · by_contra hs
    simp only [Json.isSpace, Bool.or_eq_true, decide_eq_true_eq, Bool.not_eq_false] at hs
    rcases hs with ((rfl | rfl) | rfl) | rfl <;> exact absurd h (by decide)
  · simp only [List.mem_cons, List.not_mem_nil, or_false] at h
    rcases h with rfl | rfl | rfl | rfl | rfl | rfl | rfl <;> decide

theorem Begins.ne_bracket (h : Begins c) : c ≠ ']' := by
  rintro rfl
  exact absurd h (by decide)

/-- An integer is written with a digit or a minus first. -/
theorem ofInt_head (i : Int) : ∃ c r, Text.ofInt i = c :: r ∧ (c.isDigit = true ∨ c = '-') := by
  cases i with
  | ofNat n =>
    obtain ⟨c, r, h⟩ := List.exists_cons_of_ne_nil (Nat.toDigits_ne_nil (n := n) (b := 10))
    exact ⟨c, r, h, .inl (isDigit_ofNat (n := n) c (by simp [Text.ofNat, h]))⟩
  | negSucc n => exact ⟨'-', _, rfl, .inr rfl⟩

/-- The first character of a printed value tells which value begins. -/
theorem print_head (h : j.Exact) : ∃ c r, print j = c :: r ∧ Begins c := by
  cases j with
  | null => exact ⟨'n', _, rfl, .inr (by decide)⟩
  | bool b =>
    cases b with
    | true => exact ⟨'t', _, rfl, .inr (by decide)⟩
    | false => exact ⟨'f', _, rfl, .inr (by decide)⟩
  | number n =>
    cases n with
    | integer i =>
      obtain ⟨c, r, hi, hc⟩ := ofInt_head i
      refine ⟨c, r, hi, hc.imp_right ?_⟩
      rintro rfl
      decide
    | float x => exact absurd h id
  | text s => exact ⟨'\x22', _, rfl, .inr (by decide)⟩
  | list items => exact ⟨'[', _, by rw [print], .inr (by decide)⟩
  | object members => exact ⟨'\x7b', _, by rw [print], .inr (by decide)⟩
  | unrepresentable => exact absurd h id

theorem readValue_number (h : c.isDigit = true ∨ c = '-') : readValue (fuel + 1) (c :: r) =
    (Numeral.read? (c :: r)).map fun (n, rest) =>
      (match n.value? with
        | some v => number v
        | none => unrepresentable, rest) := by
  have hbegins : Begins c := h.imp_right (by rintro rfl; decide)
  have hne : ∀ d ∈ ['n', 't', 'f', '\x22', '[', '\x7b'], c ≠ d := by
    rintro d hd rfl
    rcases h with h | rfl
    · simp only [List.mem_cons, List.not_mem_nil, or_false] at hd
      rcases hd with rfl | rfl | rfl | rfl | rfl | rfl <;> exact absurd h (by decide)
    · exact absurd hd (by decide)
  rw [readValue, skipSpaces_cons hbegins.isSpace]
  split
  case h_7 => rfl
  all_goals next heq => exact absurd (List.cons.inj heq).1 (hne _ (by decide))

theorem readValue_list (h : ∃ c r', r = c :: r' ∧ Begins c) : readValue (fuel + 1) ('[' :: r) =
    (readItems fuel r).map fun (items, rest) => (list items, rest) := by
  obtain ⟨c, r, rfl, hc⟩ := h
  rw [readValue, skipSpaces_cons (by decide)]
  simp only [skipSpaces_cons hc.isSpace]
  split
  · next heq => exact absurd (List.cons.inj heq).1 hc.ne_bracket
  · rfl

theorem readValue_object : readValue (fuel + 1) ('\x7b' :: '\x22' :: r) =
    (readMembers fuel ('\x22' :: r)).map fun (members, rest) =>
      (match members with
        | some members => object members
        | none => unrepresentable, rest) := by
  rw [readValue, skipSpaces_cons (by decide)]
  simp only [skipSpaces_cons (show isSpace '\x22' = false by decide)]
  rfl

theorem print_list (items : List Json) : print (list items) = '[' :: (printItems items ++ [']']) := by
  rw [print]
  rfl

theorem print_object (members : List (Text × Json)) :
    print (object members) = '\x7b' :: (printMembers members ++ ['\x7d']) := by
  rw [print]
  rfl

theorem begins_append {s : Text} (h : ∃ c r, s = c :: r ∧ Begins c) (t : Text) :
    ∃ c r, s ++ t = c :: r ∧ Begins c := by
  obtain ⟨c, r, rfl, hc⟩ := h
  exact ⟨c, r ++ t, rfl, hc⟩

theorem printItems_head (h : ExactItems (j :: items)) : ∃ c r, printItems (j :: items) = c :: r ∧ Begins c := by
  cases items with
  | nil => exact print_head h.1
  | cons other items => exact begins_append (print_head h.1) _

theorem printMembers_head (m : Text × Json) (members : List (Text × Json)) :
    ∃ r, printMembers (m :: members) = '\x22' :: r := by
  obtain ⟨name, j⟩ := m
  cases members with
  | nil => exact ⟨_, rfl⟩
  | cons other members => exact ⟨_, rfl⟩

/-- The name of a member is read up to the colon, and its value from there on. -/
theorem readMembers_name (fuel : Nat) (name r : Text) : ∃ ps, decode? ps = some name ∧
    readMembers (fuel + 1) (quote name ++ ':' :: r) =
      match readValue fuel r with
      | none => none
      | some (j, r) =>
        match skipSpaces r with
        | ',' :: r => (readMembers fuel r).map fun (members, rest) => (member ps j members, rest)
        | '\x7d' :: r => some (member ps j (some []), r)
        | _ => none := by
  obtain ⟨ps, hread, hdecode⟩ := pieces?_encode name (':' :: r)
  refine ⟨ps, hdecode, ?_⟩
  rw [quote, List.cons_append, List.append_assoc, List.singleton_append, readMembers,
    skipSpaces_cons (by decide)]
  simp only [hread]
  rfl

theorem closes_cons (h : c = ',' ∨ c = ']' ∨ c = '\x7d') (r : Text) : Closes (c :: r) := by
  rintro d hd
  cases hd
  exact h

/-! Each value is read up to its end, with two steps for a character. -/

mutual

/-- A printed value is read as it was, up to the rest. -/
theorem readValue_print (j : Json) (h : j.Exact) (rest : Text) (hr : Closes rest) (fuel : Nat)
    (hfuel : 2 * (print j).length ≤ fuel) : readValue fuel (print j ++ rest) = some (j, rest) := by
  obtain ⟨fuel, rfl⟩ : ∃ n, fuel = n + 1 := by
    obtain ⟨c, r, hprint, -⟩ := print_head h
    rw [hprint, List.length_cons] at hfuel
    exact ⟨fuel - 1, by omega⟩
  match j with
  | null => rfl
  | bool true => rfl
  | bool false => rfl
  | number (.integer i) =>
    obtain ⟨c, r, hi, hc⟩ := ofInt_head i
    have hread := read?_ofInt i hr.endsNumber
    rw [hi, List.cons_append] at hread
    rw [print, Number.print, hi, List.cons_append, readValue_number hc, hread]
    simp only [Option.map_some, value?_numeral h.1 h.2]
  | text s =>
    obtain ⟨ps, hread, hdecode⟩ := pieces?_encode s rest
    rw [print, quote, List.cons_append, List.append_assoc, List.singleton_append, readValue,
      skipSpaces_cons (by decide)]
    simp only [hread, Option.map_some, ofPieces, hdecode]
  | list [] => rfl
  | list (j :: items) =>
    have hhead := begins_append (printItems_head h) (']' :: rest)
    rw [print_list, List.length_cons, List.length_append, List.length_singleton] at hfuel
    rw [print_list, List.cons_append, List.append_assoc, List.singleton_append, readValue_list hhead,
      readItems_print (j :: items) h (List.cons_ne_nil _ _) rest fuel (by omega)]
    rfl
  | object [] => rfl
  | object (m :: members) =>
    obtain ⟨r, hhead⟩ := printMembers_head m members
    rw [print_object, List.length_cons, List.length_append, List.length_singleton] at hfuel
    have hread := readMembers_print (m :: members) h (List.cons_ne_nil _ _) rest fuel (by omega)
    rw [hhead, List.cons_append] at hread
    rw [print_object, List.cons_append, List.append_assoc, List.singleton_append, hhead, List.cons_append,
      readValue_object, hread]
    rfl

/-- The items of a printed list are read up to its bracket. -/
theorem readItems_print (items : List Json) (h : ExactItems items) (hne : items ≠ []) (rest : Text) (fuel : Nat)
    (hfuel : 2 * (printItems items).length + 1 ≤ fuel) :
    readItems fuel (printItems items ++ ']' :: rest) = some (items, rest) := by
  obtain ⟨fuel, rfl⟩ : ∃ n, fuel = n + 1 := ⟨fuel - 1, by omega⟩
  match items with
  | [j] =>
    rw [printItems] at hfuel ⊢
    rw [readItems, readValue_print j h.1 _ (closes_cons (by decide) rest) fuel (by omega)]
    simp only [skipSpaces_cons (show isSpace ']' = false by decide)]
  | j :: other :: items =>
    rw [printItems, List.length_append, List.length_cons] at hfuel
    rw [printItems, List.append_assoc, List.cons_append, readItems,
      readValue_print j h.1 _ (closes_cons (by decide) _) fuel (by omega)]
    simp only [skipSpaces_cons (show isSpace ',' = false by decide)]
    rw [readItems_print (other :: items) h.2 (List.cons_ne_nil _ _) rest fuel (by omega)]
    rfl

theorem readMembers_print (members : List (Text × Json)) (h : ExactMembers members) (hne : members ≠ [])
    (rest : Text) (fuel : Nat) (hfuel : 2 * (printMembers members).length + 1 ≤ fuel) :
    readMembers fuel (printMembers members ++ '\x7d' :: rest) = some (some members, rest) := by
  obtain ⟨fuel, rfl⟩ : ∃ n, fuel = n + 1 := ⟨fuel - 1, by omega⟩
  match members with
  | [(name, j)] =>
    rw [printMembers, List.length_append, List.length_cons] at hfuel
    rw [printMembers, List.append_assoc, List.cons_append]
    obtain ⟨ps, hdecode, hname⟩ := readMembers_name fuel name (print j ++ '\x7d' :: rest)
    rw [hname, readValue_print j h.1 _ (closes_cons (by decide) rest) fuel (by omega)]
    simp only [skipSpaces_cons (show isSpace '\x7d' = false by decide), member, hdecode]
  | (name, j) :: other :: members =>
    rw [printMembers, List.length_append, List.length_cons, List.length_append, List.length_cons] at hfuel
    rw [printMembers, List.append_assoc, List.cons_append, List.append_assoc, List.cons_append]
    obtain ⟨ps, hdecode, hname⟩ := readMembers_name fuel name
      (print j ++ ',' :: (printMembers (other :: members) ++ '\x7d' :: rest))
    rw [hname, readValue_print j h.1 _ (closes_cons (by decide) _) fuel (by omega)]
    simp only [skipSpaces_cons (show isSpace ',' = false by decide)]
    rw [readMembers_print (other :: members) h.2 (List.cons_ne_nil _ _) rest fuel (by omega)]
    simp only [Option.map_some, member, hdecode]

end

/-- What is written of a document is read as that document. -/
theorem parse?_print (h : j.Exact) : parse? (print j) = some j := by
  have hread := readValue_print j h [] (by simp [Closes]) (2 * (print j).length + 2) (by omega)
  rw [List.append_nil] at hread
  rw [parse?, hread]
  rfl

end DynamicSql.Json
