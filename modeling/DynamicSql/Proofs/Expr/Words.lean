import DynamicSql.Proofs.Expr.Uniform

/-!
The words of the grammar of expressions. None of its tokens tells one name from another: operators
and literals are no names, and a name is read as a whole.
-/
namespace DynamicSql.Expr

open Peg (Place Reading)
open Shape (Fits Lexed Open Slotted Worded StartsName chars)
open Grammar

variable {reference : Reading Rule} {shape rest : Shape} {v w r : Text} {k : Nat}

/-- An open shape begins with a character that is not part of a word, or with none of those. -/
theorem open_cases (h : Open shape) :
    (∃ c rest, shape = .char c :: rest ∧ isNameChar c = false ∧ Lexed rest) ∨
      (∀ σ, Fits σ shape → ∀ c ∈ (shape.fill σ).head?, isNameChar c = true) := by
  rcases h with ⟨i, rest, rfl, -, -⟩ | ⟨w, rest, rfl, -, hw, hs, hr⟩
  · right
    intro σ hσ c hc
    have hid := hσ.head.identifier
    cases hword : σ i with
    | nil => exact absurd hword hid.ne_nil
    | cons d w =>
      simp only [Shape.fill_slot, hword, List.cons_append, List.head?_cons, Option.mem_def,
        Option.some.injEq] at hc
      exact hc ▸ hid.isNameChar d (by simp [hword])
  · cases w with
    | nil =>
      cases hr with
      | nil => exact .inr fun σ _ c hc => by simp [chars] at hc
      | char hc hr => exact .inl ⟨_, _, rfl, hc, hr⟩
      | slot => exact absurd trivial hs
      | @word c _ _ hw => exact absurd (hw c List.mem_cons_self) hs
    | cons d w =>
      right
      intro σ _ c hc
      simp only [chars, List.map_cons, List.cons_append, Shape.fill_char, List.head?_cons, Option.mem_def,
        Option.some.injEq] at hc
      exact hc ▸ hw d List.mem_cons_self

theorem read_one (accepts : Char → Bool) (p : Place) : Peg.read reference (.one accepts) p =
    match p.rest with
    | c :: rest => if accepts c then some (⟨p.passed + 1, rest⟩, []) else none
    | [] => none := by
  obtain ⟨passed, rest⟩ := p
  cases rest <;> rfl

theorem read_one_eq_none {accepts : Char → Bool} {p : Place} (h : ∀ c ∈ p.rest.head?, accepts c = false) :
    Peg.read reference (.one accepts) p = none := by
  rw [read_one]
  cases hp : p.rest with
  | nil => rfl
  | cons c rest => simp [h c (by simp [hp])]

/-- As many characters as are accepted. -/
theorem read_star_one (hpass : Peg.Passing reference) (accepts : Char → Bool) (p : Place) :
    Peg.read reference (.star (.one accepts)) p =
      some (⟨p.passed + (p.rest.takeWhile accepts).length, p.rest.dropWhile accepts⟩, []) := by
  obtain ⟨passed, rest⟩ := p
  have hone : Peg.Passing (Peg.read reference (.one accepts)) := Peg.read_passing hpass _ rfl
  induction rest generalizing passed with
  | nil =>
    rw [Peg.read_star hone, read_one_eq_none (by simp)]
    rfl
  | cons c rest ih =>
    rw [Peg.read_star hone, read_one]
    by_cases hc : accepts c = true
    · simp [hc, ih (passed + 1), Nat.add_assoc, Nat.add_comm 1]
    · simp [hc]

/-- A character that no word has. -/
theorem uniform_one {accepts : Char → Bool} (ha : ∀ c, isNameChar c = true → accepts c = false) :
    Uniform Open Lexed (Peg.read reference (.one accepts)) := by
  intro before shape hs
  rcases open_cases hs with ⟨c, rest, rfl, -, hr⟩ | hname
  · by_cases hc : accepts c = true
    · refine .inr ⟨[.char c], rest, [], rfl, hr, trivial, trivial, fun σ _ => ?_⟩
      simp [read_one, place, hc, ShapeTree.fillAll]
    · refine .inl fun σ _ => read_one_eq_none ?_
      simpa [place] using hc
  · exact .inl fun σ hσ => read_one_eq_none fun c hc => ha c (hname σ hσ c hc)

/-- A character that no name begins with. -/
theorem uniform_one_of_letter {accepts : Char → Bool} (ha : ∀ c, isLetter c = true → accepts c = false) :
    Uniform Open Open (Peg.read reference (.one accepts)) := by
  intro before shape hs
  have haccept : ∀ c rest, shape = .char c :: rest → accepts c = true → Open rest →
      ∃ stretch last trees, shape = stretch ++ last ∧ Open last ∧
        Passes (Peg.read reference (.one accepts)) before stretch last trees := by
    rintro c rest rfl hc ho
    refine ⟨[.char c], rest, [], rfl, ho, trivial, trivial, fun σ _ => ?_⟩
    simp [read_one, place, hc, ShapeTree.fillAll]
  have hreject : ∀ c rest, shape = .char c :: rest → accepts c = false →
      Fails (Peg.read reference (.one accepts)) before shape := by
    rintro c rest rfl hc σ -
    exact read_one_eq_none (by simpa [place] using hc)
  rcases hs with ⟨i, rest, rfl, -, -⟩ | ⟨w, rest, rfl, -, hw, hs, hr⟩
  · refine .inl fun σ hσ => read_one_eq_none fun c hc => ?_
    have hid := hσ.head.identifier
    cases hword : σ i with
    | nil => exact absurd hword hid.ne_nil
    | cons d w =>
      simp only [place, Shape.fill_slot, hword, List.cons_append, List.head?_cons, Option.mem_def,
        Option.some.injEq] at hc
      rw [hword] at hid
      exact hc ▸ ha d hid.1
  · cases w with
    | nil =>
      cases hr with
      | nil => exact .inl fun σ _ => read_one_eq_none (by simp [place, chars])
      | @char c rest hc hr =>
        cases hac : accepts c with
        | true => exact .inr (haccept c rest rfl hac hr.isOpen)
        | false => exact .inl (hreject c rest rfl hac)
      | slot => exact absurd trivial hs
      | @word c _ _ hw => exact absurd (hw c List.mem_cons_self) hs
    | cons c w =>
      cases hac : accepts c with
      | true =>
        have hw' : ∀ d ∈ w, isNameChar d = true := fun d hd => hw d (List.mem_cons_of_mem _ hd)
        exact .inr (haccept c _ rfl hac (.inr ⟨w, rest, rfl, trivial, hw', hs, hr⟩))
      | false => exact .inl (hreject c _ rfl hac)

/-- A character that no name holds is found in the shape or not at all. -/
theorem uniform_char {c : Char} (hc : isNameChar c = false) :
    Uniform Open Lexed (Peg.read reference (char c)) := by
  refine uniform_one fun d hd => ?_
  simp only [decide_eq_false_iff_not]
  rintro rfl
  simp [hc] at hd

/-- A mark of several characters is one after the other. -/
theorem read_word_cons (c : Char) (w : Text) :
    Peg.read reference (.word (c :: w)) = Peg.read reference (.seq (char c) (.word w)) := by
  funext p
  rw [Peg.read, Peg.read, char, read_one]
  cases p.rest with
  | nil => rfl
  | cons d rest =>
    by_cases hd : c = d
    · subst hd
      simp only [Text.after?, if_true, decide_true, Peg.read, Option.map_map]
      cases Text.after? w rest with
      | none => rfl
      | some last => simp [Nat.add_assoc, Nat.add_comm 1]
    · simp [Text.after?, hd, Ne.symm hd]

theorem uniform_word (hne : w ≠ []) (hw : w.any isNameChar = false) :
    Uniform Open Lexed (Peg.read reference (.word w)) := by
  induction w with
  | nil => exact absurd rfl hne
  | cons c w ih =>
    rw [read_word_cons]
    rw [List.any_cons, Bool.or_eq_false_iff] at hw
    have hc : Uniform Open Lexed (Peg.read reference (char c)) := uniform_char hw.1
    refine hc.seq ?_
    cases w with
    | nil =>
      have he : Peg.read reference (.word []) = Peg.read reference .empty := by
        funext p
        simp [Peg.read, Text.after?]
      rw [he]
      exact .empty
    | cons d w =>
      exact (ih (by simp) hw.2).strengthen fun _ h => h.isOpen

/-- A choice is alike for all names when its options are. -/
theorem uniform_choice {gs : List Grammar} {P Q : Shape → Prop} (hp : ∀ s, P s → Open s)
    (hq : ∀ s, Lexed s → Q s) (h : ∀ g ∈ gs, Uniform P Q (Peg.read reference g)) :
    Uniform P Q (Peg.read reference (Peg.choice gs)) := by
  induction gs with
  | nil => exact (uniform_one fun _ _ => rfl).imp hp hq
  | cons g others ih =>
    have hg := h g List.mem_cons_self
    cases others with
    | nil => exact hg
    | cons other others => exact hg.alt (ih fun g' hg' => h g' (List.mem_cons_of_mem _ hg'))

/-! Words as wholes. -/

/-- Whether one word begins with another does not depend on what follows it. -/
theorem after?_word (hv : ∀ c ∈ v, isNameChar c = true) (hr : EndsWord r) :
    Text.after? v (w ++ r) = (Text.after? v w).map fun u => u ++ r := by
  induction v generalizing w with
  | nil => rfl
  | cons c v ih =>
    have hc := hv c List.mem_cons_self
    cases w with
    | nil =>
      cases r with
      | nil => rfl
      | cons d r =>
        have hd : isNameChar d = false := hr d rfl
        have hne : c ≠ d := by
          rintro rfl
          simp [hc] at hd
        simp [Text.after?, hne]
    | cons d w =>
      by_cases hcd : c = d
      · simp [Text.after?, hcd, ih fun e he => hv e (List.mem_cons_of_mem _ he)]
      · simp [Text.after?, hcd]

/-- The first of the words that the text begins with. -/
theorem read_words (ws : List String) (p : Place) : Peg.read reference (Peg.words ws) p =
    ws.findSome? fun v => (Text.after? v.toList p.rest).map fun rest =>
      (⟨p.passed + v.toList.length, rest⟩, []) := by
  induction ws with
  | nil =>
    rw [Peg.words, List.map_nil, Peg.choice]
    exact read_one_eq_none (by simp)
  | cons v others ih =>
    cases others with
    | nil =>
      simp only [Peg.words, List.map_cons, List.map_nil, Peg.choice, Peg.read, List.findSome?_cons,
        List.findSome?_nil]
      cases Text.after? v.toList p.rest <;> rfl
    | cons other others =>
      rw [List.findSome?_cons]
      simp only [Peg.words, List.map_cons, Peg.choice, Peg.read] at ih ⊢
      cases Text.after? v.toList p.rest with
      | none => simpa using ih
      | some rest => rfl

/-- A word ends where no character of a name follows. -/
theorem read_wordEnd (hu : ∀ c ∈ v, isNameChar c = true) (hr : EndsWord r) :
    Peg.read reference wordEnd ⟨k, v ++ r⟩ = if v = [] then some (⟨k, v ++ r⟩, []) else none := by
  rw [wordEnd, Peg.read, read_one]
  cases v with
  | nil =>
    cases r with
    | nil => rfl
    | cons d r => simp [hr d rfl]
  | cons c v => simp [hu c List.mem_cons_self]

/-- The word is one of those, and none of those before it is the beginning of it. -/
def wholly (ws : List String) (w : Text) : Bool := (ws.findSome? fun v => Text.after? v.toList w) == some []

theorem mem_of_wholly {ws : List String} (h : wholly ws w = true) : ∃ v ∈ ws, v.toList = w := by
  simp only [wholly, beq_iff_eq] at h
  obtain ⟨v, hv, ha⟩ := List.exists_of_findSome?_eq_some h
  exact ⟨v, hv, by simpa using (Text.after?_eq_some_iff.mp ha).symm⟩

theorem isNameChar_of_reserved : ∀ v ∈ reserved, ∀ c ∈ v, isNameChar c = true := by
  have hall : ∀ v ∈ reserved, v.all isNameChar = true := by decide
  exact fun v hv => List.all_eq_true.mp (hall v hv)

/-- A reserved word is found only where the word that stands there is that one. -/
theorem read_wholeWord {ws : List String} (hws : ∀ v ∈ ws, v.toList ∈ reserved)
    (hw : ∀ c ∈ w, isNameChar c = true) (hr : EndsWord r) :
    Peg.read reference (wholeWord ws) ⟨k, w ++ r⟩ =
      if wholly ws w then some (⟨k + w.length, r⟩, []) else none := by
  have hfind : (ws.findSome? fun v => (Text.after? v.toList (w ++ r)).map fun rest =>
        ((⟨k + v.toList.length, rest⟩, []) : Place × List Tree)) =
      (ws.findSome? fun v => Text.after? v.toList w).map fun u =>
        (⟨k + (w.length - u.length), u ++ r⟩, []) := by
    clear hw
    induction ws with
    | nil => rfl
    | cons v others ih =>
      have hv := isNameChar_of_reserved _ (hws v List.mem_cons_self)
      rw [List.findSome?_cons, List.findSome?_cons, after?_word hv hr]
      cases hv : Text.after? v.toList w with
      | none => simpa using ih fun v hv => hws v (List.mem_cons_of_mem _ hv)
      | some u =>
        obtain rfl := Text.after?_eq_some_iff.mp hv
        simp
  rw [wholeWord, Peg.read, read_words, hfind, wholly]
  rcases Option.eq_none_or_eq_some (ws.findSome? fun v => Text.after? v.toList w) with hf | ⟨u, hf⟩
  · simp only [hf]
    rfl
  · obtain ⟨v, -, hv⟩ := List.exists_of_findSome?_eq_some hf
    have hu : ∀ c ∈ u, isNameChar c = true := by
      intro c hc
      refine hw c ?_
      rw [Text.after?_eq_some_iff.mp hv]
      exact List.mem_append_right _ hc
    simp only [hf, Option.map_some, read_wordEnd hu hr]
    cases u with
    | nil => simp
    | cons c u => simp

theorem wholly_eq_false {ws : List String} (hws : ∀ v ∈ ws, v.toList ∈ reserved) (hw : IsName w) :
    wholly ws w = false := by
  rw [Bool.eq_false_iff]
  intro hin
  obtain ⟨v, hv, he⟩ := mem_of_wholly hin
  exact hw.unreserved (he ▸ hws v hv)

/-- The words of the grammar are no names, so none is read where a slot is. -/
theorem uniform_wholeWord {ws : List String} (hws : ∀ v ∈ ws, v.toList ∈ reserved) :
    Uniform Open Lexed (Peg.read reference (wholeWord ws)) := by
  intro before shape hs
  rcases hs with ⟨i, rest, rfl, hs, hr⟩ | ⟨w, rest, rfl, -, hw, hs, hr⟩
  · refine .inl fun σ hσ => ?_
    have hname := hσ.head
    rw [place, Shape.fill_slot,
      read_wholeWord hws hname.identifier.isNameChar (Shape.endsWord_fill hs), wholly_eq_false hws hname]
    rfl
  · have hread : ∀ σ, Peg.read reference (wholeWord ws) (place σ before (chars w ++ rest)) =
        if wholly ws w then some (place σ (before ++ chars w) rest, []) else none := by
      intro σ
      simp only [place, Shape.fill_append, Shape.fill_chars, List.length_append]
      exact read_wholeWord hws hw (Shape.endsWord_fill hs)
    cases hin : wholly ws w with
    | false => exact .inl fun σ _ => by rw [hread σ, hin]; rfl
    | true =>
      refine .inr ⟨chars w, rest, [], rfl, hr, trivial, trivial, fun σ _ => ?_⟩
      rw [hread σ, hin]
      rfl

end DynamicSql.Expr
