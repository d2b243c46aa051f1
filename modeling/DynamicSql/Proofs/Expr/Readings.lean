import DynamicSql.Proofs.Expr.Words
import DynamicSql.Proofs.Text

/-!
The rules of the grammar of expressions, from the tokens up. Main statement: whether a text is an
expression, and which tree it has, does not depend on the names in its slots, and every path in the
tree begins with a slot.
-/
namespace DynamicSql.Expr

open Peg (Place Reading)
open Shape (Fits Lexed Open Slotted Worded StartsName chars)
open Grammar

variable {reference : Reading Rule} {shape rest : Shape} {w r : Text} {k : Nat} {q : Char}

/-- Nothing can be left of a shape but what an open place has before it. -/
theorem open_tail {a : Piece} (h : Open (a :: rest)) : Open rest := by
  rcases h with ⟨i, last, he, -, hr⟩ | ⟨w, last, he, -, hw, hs, hr⟩
  · cases he
    exact hr.isOpen
  · cases w with
    | nil =>
      simp only [chars, List.map_nil, List.nil_append] at he
      subst he
      cases hr with
      | char _ hr => exact hr.isOpen
      | slot _ hr => exact hr.isOpen
      | @word c w rest hw _ hend hr =>
        exact .inr ⟨w, rest, rfl, trivial, fun d hd => hw d (List.mem_cons_of_mem _ hd), hend, hr⟩
    | cons c w =>
      simp only [chars, List.map_cons, List.cons_append, List.cons.injEq] at he
      exact .inr ⟨w, last, he.2, trivial, fun d hd => hw d (List.mem_cons_of_mem _ hd), hs, hr⟩

/-- A shape has no two slots side by side, nor has what is left of it. -/
theorem open_suffix {stretch : Shape} (h : Open (stretch ++ rest)) : Open rest := by
  induction stretch with
  | nil => exact h
  | cons a stretch ih => exact ih (open_tail h)

/-- The place from which a rule begins: no blank stands there. -/
def Ready (shape : Shape) : Prop := Lexed shape ∧ ∀ c rest, shape = .char c :: rest → isSpace c = false

theorem isSpace_cases {c : Char} (h : isSpace c = true) : c = ' ' ∨ c = '\t' ∨ c = '\r' ∨ c = '\n' := by
  simpa [isSpace, or_assoc] using h

theorem isSpace_of_isNameChar {c : Char} (h : isNameChar c = true) : isSpace c = false := by
  by_contra hs
  rcases isSpace_cases (Bool.not_eq_false _ ▸ hs) with rfl | rfl | rfl | rfl <;> simp [isNameChar, isLetter] at h

section

variable (hpass : Peg.Passing reference)
include hpass

/-- Names hold no blanks, so the same blanks are skipped for all of them. -/
theorem spaces_open : Uniform Open Open (Peg.read reference spaces) := by
  have hone : Uniform Open Open (Peg.read reference (.one isSpace)) :=
    (uniform_one fun c hc => isSpace_of_isNameChar hc).weaken fun _ h => h.isOpen
  exact (hone.star (Peg.read_passing hpass _ rfl)).weaken fun _ h => h.1

/-- Blanks are passed up to the last. -/
theorem spaces_ready : Uniform Lexed Ready (Peg.read reference spaces) := by
  have hone : Uniform Lexed Lexed (Peg.read reference (.one isSpace)) :=
    (uniform_one fun c hc => isSpace_of_isNameChar hc).strengthen fun _ h => h.isOpen
  refine (hone.star (Peg.read_passing hpass _ rfl)).weaken ?_
  rintro shape ⟨hl, before, hf⟩
  refine ⟨hl, ?_⟩
  rintro c rest rfl
  obtain ⟨σ, hσ⟩ := Shape.exists_fits (.char c :: rest)
  simpa [place, read_one] using hf σ hσ

variable {P Q R : Shape → Prop} {first second body : Grammar}

theorem next_open (h : Uniform P Open (Peg.read reference first))
    (h' : Uniform Open R (Peg.read reference second)) :
    Uniform P R (Peg.read reference (next first second)) := h.seq ((spaces_open hpass).seq h')

theorem next_ready (h : Uniform P Lexed (Peg.read reference first))
    (h' : Uniform Ready R (Peg.read reference second)) :
    Uniform P R (Peg.read reference (next first second)) :=
  h.seq ((spaces_ready hpass).seq h')

/-- A repetition goes on alike for all names, as long as its body passes something. -/
theorem many_open (h : Uniform Open Open (Peg.read reference body)) (hb : body.passes = true) :
    Uniform Open Open (Peg.read reference (many body)) := by
  have hagain : Peg.Passing (Peg.read reference (.seq spaces body)) :=
    Peg.read_passing hpass _ (by simp [Peg.passes, hb])
  have hstar := (((spaces_open hpass).seq h).star hagain).weaken fun _ hs => hs.1
  exact (h.seq hstar).alt .empty

theorem many_ready (h : Uniform Ready Lexed (Peg.read reference body)) (hb : body.passes = true) :
    Uniform Ready Lexed (Peg.read reference (many body)) := by
  have hagain : Peg.Passing (Peg.read reference (.seq spaces body)) :=
    Peg.read_passing hpass _ (by simp [Peg.passes, hb])
  have hstar := (((spaces_ready hpass).seq h).star hagain).weaken fun _ hs => hs.1
  exact (h.seq hstar).alt (Uniform.empty.weaken fun _ hs => hs.1)

/-! Names and numbers. -/

theorem read_nameChars (hw : ∀ c ∈ w, isNameChar c = true) (hr : EndsWord r) :
    Peg.read reference (.star (.one isNameChar)) ⟨k, w ++ r⟩ = some (⟨k + w.length, r⟩, []) := by
  rw [read_star_one hpass, Text.takeWhile_append_eq hw hr, Text.dropWhile_append_eq hw hr]

/-- Of a word that ends here, a name is read in full or not at all. -/
theorem read_identifier (hw : ∀ c ∈ w, isNameChar c = true) (hr : EndsWord r) :
    Peg.read reference (.seq (.one isLetter) (.star (.one isNameChar))) ⟨k, w ++ r⟩ =
      if IsIdentifier w then some (⟨k + w.length, r⟩, []) else none := by
  rw [Peg.read]
  cases w with
  | nil =>
    have hnone : Peg.read reference (.one isLetter) ⟨k, r⟩ = none := by
      refine read_one_eq_none fun c hc => ?_
      rw [Bool.eq_false_iff]
      intro hl
      have := hr c hc
      simp [isNameChar_of_isLetter hl] at this
    rw [List.nil_append, hnone]
    rfl
  | cons c w =>
    have hw' : ∀ d ∈ w, isNameChar d = true := fun d hd => hw d (List.mem_cons_of_mem _ hd)
    rw [read_one]
    simp only [List.cons_append]
    by_cases hc : isLetter c = true
    · have hid : IsIdentifier (c :: w) := ⟨hc, hw'⟩
      simp only [hc, hid, if_true, read_nameChars hpass hw' hr]
      simp [Nat.add_assoc, Nat.add_comm 1]
    · have hid : ¬ IsIdentifier (c :: w) := fun h => hc h.1
      simp [hc, hid]

/-- A name is read where a slot stands or where the shape spells one. -/
theorem uniform_ident : Uniform Open Lexed (Peg.read reference ident) := by
  refine Uniform.token .ident ?_
  intro before shape hs
  rcases hs with ⟨i, rest, rfl, hs, hr⟩ | ⟨w, rest, rfl, -, hw, hs, hr⟩
  · refine .inr ⟨[.slot i], rest, [], rfl, hr, trivial, trivial, fun σ hσ => ?_⟩
    have hid := (Fits.head hσ).identifier
    simp only [place, List.cons_append, List.nil_append, Shape.fill_slot, Shape.fill_append, Shape.fill_nil,
      List.append_nil, List.length_append]
    rw [read_identifier hpass hid.isNameChar (Shape.endsWord_fill hs), if_pos hid]
    rfl
  · have hread : ∀ σ, Peg.read reference (.seq (.one isLetter) (.star (.one isNameChar)))
        (place σ before (chars w ++ rest)) =
        if IsIdentifier w then some (place σ (before ++ chars w) rest, []) else none := by
      intro σ
      simp only [place, Shape.fill_append, Shape.fill_chars, List.length_append]
      exact read_identifier hpass hw (Shape.endsWord_fill hs)
    by_cases hid : IsIdentifier w
    · refine .inr ⟨chars w, rest, [], rfl, hr, trivial, trivial, fun σ _ => ?_⟩
      rw [hread σ, if_pos hid]
      rfl
    · exact .inl fun σ _ => by rw [hread σ, if_neg hid]

theorem uniform_digits : Uniform Open Open (Peg.read reference digits) := by
  have hone : Uniform Open Open (Peg.read reference (.one Char.isDigit)) :=
    uniform_one_of_letter fun c hc => not_isDigit_of_isLetter hc
  exact hone.seq ((hone.star (Peg.read_passing hpass _ rfl)).weaken fun _ h => h.1)

end

/-! Quoted texts, in which names are passed like all else. -/

/-- One character between quotes, with the backslash before it. -/
def innerBody (q : Char) : Grammar :=
  .alt (.seq (char '\\') (.one fun _ => true))
    (.seq (.unless (.alt (char q) (char '\\'))) (.one fun _ => true))

theorem read_innerBody_nil : Peg.read reference (innerBody q) ⟨k, []⟩ = none := by
  simp [innerBody, Peg.read, char]

theorem read_innerBody_escape (c : Char) :
    Peg.read reference (innerBody q) ⟨k, '\\' :: c :: r⟩ = some (⟨k + 2, r⟩, []) := by
  simp [innerBody, Peg.read, char]

theorem read_innerBody_backslash : Peg.read reference (innerBody q) ⟨k, ['\\']⟩ = none := by
  by_cases hq : '\\' = q
  · subst hq
    simp [innerBody, Peg.read, char]
  · simp [innerBody, Peg.read, char, hq]

/-- Between quotes any other character stands for itself. -/
theorem read_innerBody_plain {c : Char} (hq : c ≠ q) (hb : c ≠ '\\') :
    Peg.read reference (innerBody q) ⟨k, c :: r⟩ = some (⟨k + 1, r⟩, []) := by
  simp [innerBody, Peg.read, char, hq, hb]

theorem read_innerBody_quote (hb : q ≠ '\\') : Peg.read reference (innerBody q) ⟨k, q :: r⟩ = none := by
  simp [innerBody, Peg.read, char, hb]

/-- The inside of a quoted text ends at the same place of the shape for all names. -/
def InnerEnds (reference : Reading Rule) (q : Char) (before shape : Shape) : Prop :=
  ∃ stretch rest, shape = stretch ++ rest ∧ ∀ σ, Fits σ shape →
    Peg.read reference (.star (innerBody q)) (place σ before shape) =
      some (place σ (before ++ stretch) rest, [])

section

variable (hpass : Peg.Passing reference)
include hpass

theorem read_inner_some {p next : Place} (h : Peg.read reference (innerBody q) p = some (next, [])) :
    Peg.read reference (.star (innerBody q)) p = Peg.read reference (.star (innerBody q)) next := by
  rw [Peg.read_star (Peg.read_passing hpass _ rfl), h]
  simp only [List.nil_append]
  cases Peg.read reference (.star (innerBody q)) next <;> rfl

/-- Between quotes the characters of a word are passed one by one. -/
theorem read_inner_word (hq : isNameChar q = false) (hw : ∀ c ∈ w, isNameChar c = true) :
    Peg.read reference (.star (innerBody q)) ⟨k, w ++ r⟩ =
      Peg.read reference (.star (innerBody q)) ⟨k + w.length, r⟩ := by
  induction w generalizing k with
  | nil => rfl
  | cons c w ih =>
    have hc := hw c List.mem_cons_self
    have hcq : c ≠ q := by
      rintro rfl
      simp [hc] at hq
    have hcb : c ≠ '\\' := by
      rintro rfl
      simp [isNameChar, isLetter] at hc
    rw [List.cons_append, read_inner_some hpass (read_innerBody_plain hcq hcb),
      ih fun d hd => hw d (List.mem_cons_of_mem _ hd), List.length_cons, Nat.add_assoc, Nat.add_comm 1]

theorem innerEnds_stop {before : Shape} (h : Fails (Peg.read reference (innerBody q)) before shape) :
    InnerEnds reference q before shape := by
  refine ⟨[], shape, rfl, fun σ hσ => ?_⟩
  rw [Peg.read_star (Peg.read_passing hpass _ rfl), h σ hσ]
  simp

omit hpass in
/-- Characters that are passed for all names move the end no further than they reach. -/
theorem innerEnds_pass {before : Shape} (passed : Shape)
    (h : ∀ σ, Fits σ (passed ++ rest) →
      Peg.read reference (.star (innerBody q)) (place σ before (passed ++ rest)) =
        Peg.read reference (.star (innerBody q)) (place σ (before ++ passed) rest))
    (hr : InnerEnds reference q (before ++ passed) rest) : InnerEnds reference q before (passed ++ rest) := by
  obtain ⟨stretch, last, rfl, hl⟩ := hr
  refine ⟨passed ++ stretch, last, by simp, fun σ hσ => ?_⟩
  rw [h σ hσ, hl σ hσ.right, List.append_assoc]

/-- A backslash takes one character with it, and of a name no more than that. -/
theorem innerEnds (hq : isNameChar q = false) (hb : q ≠ '\\') (before shape : Shape) :
    InnerEnds reference q before shape := by
  induction hn : shape.length using Nat.strongRecOn generalizing before shape with
  | _ n ih =>
    subst hn
    rcases shape with _ | ⟨c | i, rest⟩
    case nil => exact innerEnds_stop hpass fun σ _ => read_innerBody_nil
    case cons.slot =>
      refine innerEnds_pass [.slot i] (fun σ hσ => ?_) (ih rest.length (by simp) _ rest rfl)
      have hid := (Fits.head hσ).identifier
      simpa [place] using read_inner_word hpass hq hid.isNameChar
    case cons.char =>
      by_cases hcq : c = q
      · subst hcq
        exact innerEnds_stop hpass fun σ _ => read_innerBody_quote hb
      by_cases hcb : c = '\\'
      · subst hcb
        rcases rest with _ | ⟨d | i, rest⟩
        case nil => exact innerEnds_stop hpass fun σ _ => read_innerBody_backslash
        case cons.char =>
          refine innerEnds_pass [.char '\\', .char d] (fun σ _ => ?_)
            (ih rest.length (by simp only [List.length_cons]; omega) _ rest rfl)
          simpa [place] using read_inner_some hpass (read_innerBody_escape d)
        case cons.slot =>
          refine innerEnds_pass [.char '\\', .slot i] (fun σ hσ => ?_)
            (ih rest.length (by simp only [List.length_cons]; omega) _ rest rfl)
          have hid : IsIdentifier (σ i) := (hσ i (by simp)).identifier
          cases hw : σ i with
          | nil => exact absurd hw hid.ne_nil
          | cons d w =>
            rw [hw] at hid
            have hw' : ∀ e ∈ w, isNameChar e = true :=
              fun e he => hid.isNameChar e (List.mem_cons_of_mem _ he)
            have hword := read_inner_word (k := (before.fill σ).length + 2) (r := Shape.fill σ rest)
              hpass hq hw'
            rw [← read_inner_some hpass (read_innerBody_escape d)] at hword
            simpa [place, hw, Nat.add_assoc, Nat.add_comm 2, Nat.add_comm 1] using hword
      · refine innerEnds_pass [.char c] (fun σ _ => ?_) (ih rest.length (by simp) _ rest rfl)
        simpa [place] using read_inner_some hpass (read_innerBody_plain hcq hcb)

/-- The text between quotes may hold names, and ends at the same piece of the shape. -/
theorem uniform_inner (hq : isNameChar q = false) (hb : q ≠ '\\') :
    Uniform Open Open (Peg.read reference (inner q)) := by
  refine Uniform.token .inner fun before shape hs => ?_
  obtain ⟨stretch, rest, rfl, hr⟩ := innerEnds hpass hq hb before shape
  exact .inr ⟨stretch, rest, [], rfl, open_suffix hs, trivial, trivial, hr⟩

theorem uniform_quoted (hq : isNameChar q = false) (hb : q ≠ '\\') :
    Uniform Open Lexed (Peg.read reference (quoted q)) :=
  (uniform_char hq).seq (((uniform_inner hpass hq hb).strengthen fun _ h => h.isOpen).seq (uniform_char hq))

theorem uniform_string : Uniform Open Lexed (Peg.read reference string) := by
  refine Uniform.node (by decide) ?_
  exact (uniform_quoted hpass (by decide) (by decide)).alt (uniform_quoted hpass (by decide) (by decide))

end

end DynamicSql.Expr
