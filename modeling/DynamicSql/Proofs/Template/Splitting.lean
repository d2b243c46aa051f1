import DynamicSql.Template.Placeholder
import DynamicSql.Proofs.Expr.Shape
import DynamicSql.Proofs.Text

/-!
How the content of a placeholder falls into a head and attributes. Main statement: a head gives way
to another that counts parentheses and quotes alike, and the attributes are the same.
-/
namespace DynamicSql.Placeholder

open DynamicSql.Expr (IsName Shape)
open DynamicSql.Expr.Shape (Fits)
open DynamicSql.Expr.Grammar (isNameChar isLetter)

variable {l l' : Level} {s r w : Text} {shape : Shape} {σ τ : Nat → Text}

def Level.Plain (l : Level) : Prop := ∀ q ∈ l.quote, q = '\x27' ∨ q = '\x22'

/-- The level behind a text in which nothing separates. -/
def Level.pass : Level → Text → Option Level
  | l, [] => some l
  | l, c :: r => if l.separates c then none else (l.next c).pass r

@[simp] theorem Level.pass_nil (l : Level) : l.pass [] = some l := rfl

theorem Level.pass_append (l : Level) (s r : Text) : l.pass (s ++ r) = (l.pass s).bind fun m => m.pass r := by
  induction s generalizing l with
  | nil => rfl
  | cons c s ih =>
    rw [List.cons_append, pass, pass]
    split
    · rfl
    · exact ih (l.next c)

theorem Level.Plain.next (h : l.Plain) (c : Char) : (l.next c).Plain := by
  unfold Level.next
  cases hq : l.quote with
  | some q =>
    simp only
    split
    · simp [Level.Plain]
    · exact h
  | none =>
    simp only
    split
    · next hc => simpa [Level.Plain] using hc
    · split
      · simp [Level.Plain]
      · split
        · simp [Level.Plain]
        · exact h

theorem Level.Plain.pass (h : l.Plain) (hp : l.pass s = some l') : l'.Plain := by
  induction s generalizing l with
  | nil =>
    obtain rfl : l = l' := by simpa using hp
    exact h
  | cons c s ih =>
    rw [Level.pass] at hp
    split at hp
    · cases hp
    · exact ih (h.next c) hp

theorem Level.next_plain (h : l.Plain) {c : Char} (hc : c ∉ ['\x27', '\x22', '(', ')']) : l.next c = l := by
  simp only [List.mem_cons, List.not_mem_nil, or_false, not_or] at hc
  unfold next
  cases hq : l.quote with
  | some q =>
    have hne : c ≠ q := by rcases h q hq with rfl | rfl <;> simp [hc]
    simp [hne]
  | none => simp [hc]

/-- A text that no quote, parenthesis or comma is in changes nothing. -/
theorem Level.pass_plain (h : l.Plain) (hs : ∀ c ∈ s, c ∉ ['\x27', '\x22', '(', ')', ',']) :
    l.pass s = some l := by
  induction s with
  | nil => rfl
  | cons c s ih =>
    have hc := hs c List.mem_cons_self
    have hsep : l.separates c = false := by
      have hcomma : c ≠ ',' := fun he => hc (by simp [he])
      simp [separates, hcomma]
    rw [pass, hsep, if_neg Bool.false_ne_true, next_plain h fun hm => hc (List.mem_append_left [','] hm)]
    exact ih fun d hd => hs d (List.mem_cons_of_mem _ hd)

/-- Where something is open, commas change nothing either. -/
theorem Level.pass_open (h : l.Plain) (hl : l ≠ .top) (hs : ∀ c ∈ s, c ∉ ['\x27', '\x22', '(', ')']) :
    l.pass s = some l := by
  have hsep : ∀ c, l.separates c = false := by
    intro c
    rw [Bool.eq_false_iff]
    intro hc
    simp only [separates, Bool.and_eq_true, Option.isNone_iff_eq_none, beq_iff_eq] at hc
    exact hl (by rw [top, ← hc.2, ← hc.1.2])
  induction s with
  | nil => rfl
  | cons c s ih =>
    rw [pass, hsep, if_neg Bool.false_ne_true, next_plain h (hs c List.mem_cons_self)]
    exact ih fun d hd => hs d (List.mem_cons_of_mem _ hd)

theorem Level.pass_word (h : l.Plain) (hw : ∀ c ∈ w, isNameChar c = true) : l.pass w = some l := by
  have hmarks : ['\x27', '\x22', '(', ')', ','].any isNameChar = false := by decide
  exact pass_plain h fun c hc hm => List.any_eq_false.mp hmarks c hm (hw c hc)

theorem Level.pass_blank (h : l.Plain) (hs : ∀ c ∈ s, Text.isBlank c = true) : l.pass s = some l := by
  have hmarks : ['\x27', '\x22', '(', ')', ','].any Text.isBlank = false := by decide
  exact pass_plain h fun c hc hm => List.any_eq_false.mp hmarks c hm (hs c hc)

/-- Quotes and parentheses count alike in every filling. -/
theorem Level.pass_fill (h : l.Plain) (hσ : Fits σ shape) (hτ : Fits τ shape) :
    l.pass (shape.fill σ) = l.pass (shape.fill τ) := by
  induction shape generalizing l with
  | nil => rfl
  | cons a rest ih =>
    cases a with
    | slot i =>
      rw [Shape.fill_slot, Shape.fill_slot, pass_append, pass_append,
        pass_word h hσ.head.identifier.isNameChar,
        pass_word h hτ.head.identifier.isNameChar]
      exact ih h hσ.tail hτ.tail
    | char c =>
      rw [Shape.fill_char, Shape.fill_char, pass, pass]
      split
      · rfl
      · exact ih (h.next c) hσ.tail hτ.tail

/-- What passes without a comma is the beginning of the first part. -/
theorem splitFrom_append (h : l.pass s = some l') (r : Text) :
    splitFrom l (s ++ r) = (s ++ (splitFrom l' r).1, (splitFrom l' r).2) := by
  induction s generalizing l with
  | nil =>
    obtain rfl : l = l' := by simpa using h
    rfl
  | cons c s ih =>
    rw [Level.pass] at h
    split at h
    · cases h
    · next hsep => simp [splitFrom, hsep, ih h]

/-- The head reaches to the first comma that separates, or to the end. -/
theorem exists_pass (l : Level) (s : Text) : ∃ l' rest, l.pass (splitFrom l s).1 = some l' ∧
    s = (splitFrom l s).1 ++ rest ∧ splitFrom l' rest = ([], (splitFrom l s).2) ∧
      ∀ c ∈ rest.head?, c = ',' := by
  induction s generalizing l with
  | nil => exact ⟨l, [], rfl, rfl, rfl, by simp⟩
  | cons c s ih =>
    by_cases hsep : l.separates c = true
    · have hc : c = ',' := by
        simp only [Level.separates, Bool.and_eq_true, decide_eq_true_eq] at hsep
        exact hsep.1.1
      refine ⟨l, c :: s, ?_, ?_, ?_, by simpa using hc⟩ <;> simp [splitFrom, hsep]
    · obtain ⟨l', rest, hp, hs, hr, hc⟩ := ih (l.next c)
      refine ⟨l', rest, ?_, ?_, ?_, hc⟩
      · simpa [splitFrom, hsep, Level.pass] using hp
      · simpa [splitFrom, hsep] using hs
      · simpa [splitFrom, hsep] using hr

/-- Two texts that lead from every level to the same. -/
def Level.Alike (s r : Text) : Prop := ∀ l : Level, l.Plain → l.pass s = l.pass r

/-- The head of a content, without the blanks around it, can give way to another. -/
theorem split_head (content : Text) : ∃ before after rest,
    content = before ++ (Text.trim (split content).1 ++ (after ++ rest)) ∧
      (∀ c ∈ before, Text.isBlank c = true) ∧
      (∀ c ∈ after, Text.isBlank c = true) ∧ (∀ c ∈ rest.head?, c = ',') ∧
      ∀ core, Level.Alike (Text.trim (split content).1) core →
        split (before ++ (core ++ (after ++ rest))) = (before ++ (core ++ after), (split content).2) := by
  obtain ⟨l', rest, hp, hs, hr, hc⟩ := exists_pass .top content
  obtain ⟨before, after, hhead, hb, ha⟩ := Text.exists_trim (split content).1
  rw [← split, hhead] at hp hs
  refine ⟨before, after, rest, by simpa using hs, hb, ha, hc, fun core halike => ?_⟩
  have htop : Level.Plain .top := by simp [Level.Plain, Level.top]
  rw [Level.pass_append, Level.pass_blank htop hb, Option.bind_some, Level.pass_append,
    halike _ htop, ← Level.pass_append] at hp
  have hcore : Level.pass .top (before ++ (core ++ after)) = some l' := by
    rw [Level.pass_append, Level.pass_blank htop hb]
    exact hp
  have hsplit := splitFrom_append hcore rest
  rw [hr] at hsplit
  simpa [split] using hsplit

/-- A content is valid when its target and its attributes are. -/
theorem parse_eq_ok_iff {content span : Text} {offset : Nat} {p : Placeholder} :
    parse content offset span = .ok p ↔ Text.trim (split content).1 ≠ [] ∧
      readTarget (Text.trim (split content).1) = .ok p.target ∧
        readAttributes {} (split content).2 = .ok p.attributes := by
  obtain ⟨target, attributes⟩ := p
  simp only [parse]
  split
  · next h => simp [h]
  · next h =>
    cases readTarget (Text.trim (split content).1) with
    | error f => simp
    | ok t => cases readAttributes {} (split content).2 <;> simp [h]

end DynamicSql.Placeholder
