import DynamicSql.Peg

/-!
What a grammar reads, whatever failures it reports. Main statement: where the body of a repetition
passes something, the repetition is the body and then the repetition again, without a limit.
-/
namespace DynamicSql.Peg

variable {Rule : Type}

/-- Induction over trees, in which every child of a node has the property already. -/
theorem Tree.structural {motive : Tree Rule → Prop}
    (leaf : ∀ rule start text, motive (.leaf rule start text))
    (node : ∀ rule start children, (∀ t ∈ children, motive t) → motive (.node rule start children))
    (t : Tree Rule) :
    motive t :=
  @Tree.rec Rule motive (fun children => ∀ t ∈ children, motive t) leaf node (by simp)
    (fun _ _ ht hr => List.forall_mem_cons.mpr ⟨ht, hr⟩) t

/-- The place that is reached from a place, if any, with the trees on the way. -/
abbrev Reading (Rule : Type) := Place → Option (Place × List (Tree Rule))

/-- A step as long as it succeeds, at most once for each character of a text. -/
def repeated (step : Reading Rule) : Text → Reading Rule
  | [], p => some (p, [])
  | _ :: fuel, p =>
    match step p with
    | none => some (p, [])
    | some (q, trees) => (repeated step fuel q).map fun r => (r.1, trees ++ r.2)

def read (reference : Reading Rule) : Peg Rule → Reading Rule
  | empty, p => some (p, [])
  | one accepts, p =>
    match p.rest with
    | c :: rest => if accepts c then some (⟨p.passed + 1, rest⟩, []) else none
    | [] => none
  | word w, p => (Text.after? w p.rest).map fun rest => (⟨p.passed + w.length, rest⟩, [])
  | seq first second, p =>
    match read reference first p with
    | none => none
    | some (q, trees) => (read reference second q).map fun r => (r.1, trees ++ r.2)
  | alt first second, p =>
    match read reference first p with
    | none => read reference second p
    | some r => some r
  | star body, p => repeated (read reference body) p.rest p
  | .unless body, p =>
    match read reference body p with
    | none => some (p, [])
    | some _ => none
  | ended, p => if p.rest = [] then some (p, []) else none
  | token rule body, p =>
    (read reference body p).map fun r => (r.1, [.leaf rule p.passed (p.rest.take (r.1.passed - p.passed))])
  | node rule body, p => (read reference body p).map fun r => (r.1, [.node rule p.passed r.2])
  | again, p => reference p

section

variable (reference : Reading Rule) (first second body : Peg Rule) (p : Place)

theorem read_seq : read reference (.seq first second) p =
    match read reference first p with
    | none => none
    | some (q, trees) => (read reference second q).map fun r => (r.1, trees ++ r.2) := by rw [read]

theorem read_unless : read reference (.unless body) p =
    match read reference body p with
    | none => some (p, [])
    | some _ => none := by rw [read]

theorem read_token (rule : Rule) : read reference (.token rule body) p =
    (read reference body p).map fun r =>
      (r.1, [.leaf rule p.passed (p.rest.take (r.1.passed - p.passed))]) := by
  rw [read]

theorem read_node (rule : Rule) : read reference (.node rule body) p =
    (read reference body p).map fun r => (r.1, [.node rule p.passed r.2]) := by rw [read]

end

/-- What the recursive rule reads inside itself, so many times less one. -/
def readLevel (recursive : Peg Rule) : Nat → Reading Rule
  | 0, _ => none
  | depth + 1, p => read (readLevel recursive depth) recursive p

/-- The furthest failure has no part in what a repetition gives. -/
theorem iterate_result {step : Place → Nat → Outcome Rule} {reading : Reading Rule}
    (hs : ∀ p furthest, (step p furthest).result = reading p) (fuel : Text) (p : Place) (furthest : Nat)
    (trees : List (Tree Rule)) :
    (iterate step fuel p furthest trees).result =
      (repeated reading fuel p).map fun r => (r.1, trees.reverse ++ r.2) := by
  induction fuel generalizing p furthest trees with
  | nil => simp [iterate, repeated]
  | cons c fuel ih =>
    have hp := hs p furthest
    rw [iterate, repeated]
    rcases h : step p furthest with ⟨reported, result⟩
    rw [h] at hp
    subst hp
    cases reading p with
    | none => simp
    | some r =>
      obtain ⟨q, more⟩ := r
      simp only [ih]
      cases repeated reading fuel q <;> simp

/-- The failures that the machine reports have no influence on what it reads. -/
theorem run_result {reference : Run Rule} {reading : Reading Rule}
    (hr : ∀ m p furthest, (reference m p furthest).result = reading p) (g : Peg Rule) (m : Mode) (p : Place)
    (furthest : Nat) : (run reference g m p furthest).result = read reading g p := by
  induction g generalizing m p furthest with
  | empty => rfl
  | one accepts =>
    rw [run, read]
    cases p.rest <;> rfl
  | word w => rfl
  | seq first second ihf ihs =>
    rw [run, read, ← ihf m p furthest]
    rcases run reference first m p furthest with ⟨reported, _ | ⟨q, trees⟩⟩
    · rfl
    · simp only
      rw [← ihs m q reported]
      rcases run reference second m q reported with ⟨last, _ | r⟩ <;> rfl
  | alt first second ihf ihs =>
    rw [run, read, ← ihf m p furthest]
    rcases run reference first m p furthest with ⟨reported, _ | r⟩
    · exact ihs m p reported
    · rfl
  | star body ih =>
    rw [run, read, iterate_result (ih m)]
    cases repeated (read reading body) p.rest p <;> simp
  | «unless» body ih =>
    rw [run, read, ← ih m.negate p furthest]
    rcases run reference body m.negate p furthest with ⟨reported, _ | r⟩ <;> rfl
  | ended => rfl
  | token rule body ih =>
    rw [run, read, ← ih m.token p furthest]
    rcases run reference body m.token p furthest with ⟨reported, _ | r⟩ <;> rfl
  | node rule body ih =>
    rw [run, read, ← ih m p furthest]
    rcases run reference body m p furthest with ⟨reported, _ | r⟩ <;> rfl
  | again => exact hr m p furthest

/-- At every level the machine does what the reading does. -/
theorem level_result (recursive : Peg Rule) (depth : Nat) (m : Mode) (p : Place) (furthest : Nat) :
    (level recursive depth m p furthest).result = readLevel recursive depth p := by
  induction depth generalizing m p furthest with
  | zero => rfl
  | succ depth ih => exact run_result ih recursive m p furthest

theorem parse_result (grammar recursive : Peg Rule) (depth : Nat) (s : Text) :
    (parse grammar recursive depth s).result = read (readLevel recursive depth) grammar ⟨0, s⟩ :=
  run_result (level_result recursive depth) grammar .outer ⟨0, s⟩ 0

/-! Readings that go on, and readings that pass something. -/

def Onward (reading : Reading Rule) : Prop :=
  ∀ p q trees, reading p = some (q, trees) → q.rest.length ≤ p.rest.length

def Passing (reading : Reading Rule) : Prop :=
  ∀ p q trees, reading p = some (q, trees) → q.rest.length < p.rest.length

theorem Passing.onward {reading : Reading Rule} (h : Passing reading) : Onward reading :=
  fun p q trees hp => Nat.le_of_lt (h p q trees hp)

/-- A grammar that is not matched by nothing; a reference counts as one that passes something. -/
def passes : Peg Rule → Bool
  | empty | star _ | .unless _ | ended => false
  | one _ | again => true
  | word w => !w.isEmpty
  | seq first second => passes first || passes second
  | alt first second => passes first && passes second
  | token _ body | node _ body => passes body

/-- Turns that go onward go onward together. -/
theorem repeated_onward {step : Reading Rule} (h : Onward step) (fuel : Text) :
    Onward (repeated step fuel) := by
  induction fuel with
  | nil =>
    intro p q trees hp
    simp only [repeated, Option.some.injEq, Prod.mk.injEq] at hp
    exact Nat.le_of_eq (by rw [hp.1])
  | cons c fuel ih =>
    intro p q trees hp
    rw [repeated] at hp
    cases hs : step p with
    | none =>
      simp only [hs, Option.some.injEq, Prod.mk.injEq] at hp
      exact Nat.le_of_eq (by rw [hp.1])
    | some r =>
      obtain ⟨mid, more⟩ := r
      simp only [hs, Option.map_eq_some_iff, Prod.exists, Prod.mk.injEq] at hp
      obtain ⟨last, rest, hl, rfl, -⟩ := hp
      exact Nat.le_trans (ih mid last rest hl) (h p mid more hs)

theorem read_onward {reference : Reading Rule} (hr : Onward reference) (g : Peg Rule) :
    Onward (read reference g) := by
  induction g with
  | empty | ended =>
    intro p q trees h
    simp_all [read]
  | one accepts =>
    intro p q trees h
    rw [read] at h
    split at h
    · next c rest hp =>
      split at h
      · cases h
        simp [hp]
      · cases h
    · cases h
  | word w =>
    intro p q trees h
    simp only [read, Option.map_eq_some_iff, Text.after?_eq_some_iff, Prod.mk.injEq] at h
    obtain ⟨rest, hp, rfl, -⟩ := h
    simp [hp]
  | seq first second ihf ihs =>
    intro p q trees h
    rw [read] at h
    split at h
    · cases h
    · next mid more hf =>
      simp only [Option.map_eq_some_iff, Prod.exists, Prod.mk.injEq] at h
      obtain ⟨last, rest, hl, rfl, -⟩ := h
      exact Nat.le_trans (ihs mid last rest hl) (ihf p mid more hf)
  | alt first second ihf ihs =>
    intro p q trees h
    rw [read] at h
    split at h
    · exact ihs p q trees h
    · next r hf =>
      cases h
      exact ihf p q trees hf
  | star body ih => exact fun p => repeated_onward ih p.rest p
  | «unless» body ih =>
    intro p q trees h
    rw [read] at h
    split at h
    · cases h
      exact Nat.le_refl _
    · cases h
  | token rule body ih | node rule body ih =>
    intro p q trees h
    simp only [read, Option.map_eq_some_iff, Prod.exists, Prod.mk.injEq] at h
    obtain ⟨mid, more, hb, rfl, -⟩ := h
    exact ih p mid more hb
  | again => exact hr

/-- A grammar that passes something does so at every place. -/
theorem read_passing {reference : Reading Rule} (hr : Passing reference) (g : Peg Rule)
    (hg : g.passes = true) : Passing (read reference g) := by
  induction g with
  | empty | star _ | «unless» _ | ended => simp [passes] at hg
  | one accepts =>
    intro p q trees h
    rw [read] at h
    split at h
    · next c rest hp =>
      split at h
      · cases h
        simp [hp]
      · cases h
    · cases h
  | word w =>
    intro p q trees h
    simp only [read, Option.map_eq_some_iff, Text.after?_eq_some_iff, Prod.mk.injEq] at h
    obtain ⟨rest, hp, rfl, -⟩ := h
    have hw : 0 < w.length := by simpa [passes, List.length_pos_iff] using hg
    simp only [hp, List.length_append]
    omega
  | seq first second ihf ihs =>
    intro p q trees h
    rw [read] at h
    split at h
    · cases h
    · next mid more hf =>
      simp only [Option.map_eq_some_iff, Prod.exists, Prod.mk.injEq] at h
      obtain ⟨last, rest, hl, rfl, -⟩ := h
      have hle := read_onward hr.onward first p mid more hf
      have hle' := read_onward hr.onward second mid last rest hl
      rcases (by simpa [passes] using hg : first.passes = true ∨ second.passes = true) with hp | hp
      · exact Nat.lt_of_le_of_lt hle' (ihf hp p mid more hf)
      · exact Nat.lt_of_lt_of_le (ihs hp mid last rest hl) hle
  | alt first second ihf ihs =>
    intro p q trees h
    simp only [passes, Bool.and_eq_true] at hg
    rw [read] at h
    split at h
    · exact ihs hg.2 p q trees h
    · next r hf =>
      cases h
      exact ihf hg.1 p q trees hf
  | token rule body ih | node rule body ih =>
    intro p q trees h
    simp only [read, Option.map_eq_some_iff, Prod.exists, Prod.mk.injEq] at h
    obtain ⟨mid, more, hb, rfl, -⟩ := h
    exact ih hg p mid more hb
  | again => exact hr

/-- If the recursive rule passes something, so does each of its levels. -/
theorem readLevel_passing {recursive : Peg Rule} (h : recursive.passes = true) (depth : Nat) :
    Passing (readLevel recursive depth) := by
  induction depth with
  | zero =>
    intro p q trees hp
    cases hp
  | succ depth ih => exact read_passing ih recursive h

/-- At the end there is nothing left to pass. -/
theorem Passing.eq_none {reading : Reading Rule} (h : Passing reading) {p : Place} (hp : p.rest.length = 0) :
    reading p = none := by
  cases hs : reading p with
  | none => rfl
  | some r =>
    have := h p r.1 r.2 hs
    omega

/-- Fuel beyond what is left of the text is never used. -/
theorem repeated_fuel {step : Reading Rule} (h : Passing step) {fuel more : Text} {p : Place}
    (hf : p.rest.length ≤ fuel.length) (hm : p.rest.length ≤ more.length) :
    repeated step fuel p = repeated step more p := by
  induction fuel generalizing more p with
  | nil =>
    cases more with
    | nil => rfl
    | cons c more => rw [repeated, repeated, h.eq_none (by simpa using hf)]
  | cons c fuel ih =>
    cases more with
    | nil => rw [repeated, repeated, h.eq_none (by simpa using hm)]
    | cons d more =>
      rw [repeated, repeated]
      cases hs : step p with
      | none => rfl
      | some r =>
        obtain ⟨q, trees⟩ := r
        have hlt := h p q trees hs
        simp only [List.length_cons] at hf hm
        have hq : repeated step fuel q = repeated step more q := ih (by omega) (by omega)
        simp only [hq]

/-- A repetition is the body and then the repetition, or nothing where the body cannot be matched. -/
theorem read_star {reference : Reading Rule} {body : Peg Rule} (h : Passing (read reference body))
    (p : Place) :
    read reference (.star body) p =
      match read reference body p with
      | none => some (p, [])
      | some (q, trees) => (read reference (.star body) q).map fun r => (r.1, trees ++ r.2) := by
  have hfuel : read reference (.star body) p = repeated (read reference body) ('.' :: p.rest) p := by
    rw [read]
    exact repeated_fuel h (Nat.le_refl _) (by simp)
  rw [hfuel, repeated]
  cases hs : read reference body p with
  | none => rfl
  | some r =>
    have hlt := h p r.1 r.2 hs
    simp only [read]
    rw [repeated_fuel h (Nat.le_of_lt hlt) (Nat.le_refl _)]

end DynamicSql.Peg
