import DynamicSql.Expr.Grammar
import Mathlib.Data.List.Nodup

/-!
Texts with slots for names. A text is cut into its words, and each word that may begin a path
becomes a slot. Main statement: every text is the filling of such a shape.
-/
namespace DynamicSql.Expr

open Grammar (isLetter isNameChar)

def IsIdentifier : Text → Prop
  | [] => False
  | c :: r => isLetter c = true ∧ ∀ d ∈ r, isNameChar d = true

instance : DecidablePred IsIdentifier := fun s =>
  match s with
  | [] => inferInstanceAs (Decidable False)
  | c :: r => decidable_of_iff (isLetter c = true ∧ r.all isNameChar = true) (by simp [IsIdentifier])

def reserved : List Text :=
  ["and", "or", "not", "neq", "eq", "lte", "lt", "gte", "gt", "null", "true", "false"].map String.toList

/-- A word that an expression reads as the first name of a path. -/
structure IsName (w : Text) : Prop where
  identifier : IsIdentifier w
  unreserved : w ∉ reserved

theorem isNameChar_of_isLetter {c : Char} (h : isLetter c = true) : isNameChar c = true := by
  simp [isNameChar, h]

theorem isNameChar_of_isDigit {c : Char} (h : c.isDigit = true) : isNameChar c = true := by
  simp [isNameChar, h]

theorem not_isDigit_of_isLetter {c : Char} (h : isLetter c = true) : c.isDigit = false := by
  delta isLetter Char.isAlpha Char.isUpper Char.isLower at h
  simp only [Bool.or_eq_true, decide_eq_true_eq, Bool.and_eq_true] at h
  simp only [Char.isDigit, Bool.and_eq_false_iff, decide_eq_false_iff_not]
  rcases h with ((⟨h, -⟩ | ⟨h, -⟩) | rfl) | rfl
  · right
    intro hd
    have := Nat.le_trans (UInt32.le_iff_toNat_le.mp h) (UInt32.le_iff_toNat_le.mp hd)
    simp at this
  · right
    intro hd
    have := Nat.le_trans (UInt32.le_iff_toNat_le.mp h) (UInt32.le_iff_toNat_le.mp hd)
    simp at this
  · decide
  · decide

theorem IsIdentifier.isNameChar {w : Text} (h : IsIdentifier w) : ∀ c ∈ w, isNameChar c = true := by
  cases w with
  | nil => simp
  | cons c r => exact List.forall_mem_cons.mpr ⟨isNameChar_of_isLetter h.1, h.2⟩

theorem IsIdentifier.ne_nil {w : Text} (h : IsIdentifier w) : w ≠ [] := by
  rintro rfl
  exact h

def EndsWord (s : Text) : Prop := ∀ c ∈ s.head?, isNameChar c = false

inductive Piece where
  | char (c : Char)
  | slot (i : Nat)

abbrev Shape := List Piece

namespace Shape

def fill (σ : Nat → Text) : Shape → Text
  | [] => []
  | .char c :: rest => c :: fill σ rest
  | .slot i :: rest => σ i ++ fill σ rest

def slot? : Piece → Option Nat
  | .char _ => none
  | .slot i => some i

def slots (shape : Shape) : List Nat := shape.filterMap slot?

def chars (w : Text) : Shape := w.map .char

def StartsName : Shape → Prop
  | [] => False
  | .char c :: _ => isNameChar c = true
  | .slot _ :: _ => True

def Fits (σ : Nat → Text) (shape : Shape) : Prop := ∀ i ∈ slots shape, IsName (σ i)

/-- From the beginning of a word on, each word is a slot, or no name. -/
inductive Lexed : Shape → Prop where
  | nil : Lexed []
  | char {c : Char} {rest : Shape} : isNameChar c = false → Lexed rest → Lexed (.char c :: rest)
  | slot {i : Nat} {rest : Shape} : ¬ StartsName rest → Lexed rest → Lexed (.slot i :: rest)
  | word {c : Char} {w : Text} {rest : Shape} : (∀ d ∈ c :: w, isNameChar d = true) → ¬ IsName (c :: w) →
      ¬ StartsName rest → Lexed rest → Lexed (.char c :: (chars w ++ rest))

/-- A word, of which some letters may be gone, or none at all, and then more. -/
def Worded (P : Text → Prop) (shape : Shape) : Prop :=
  ∃ w rest, shape = chars w ++ rest ∧ P w ∧ (∀ c ∈ w, isNameChar c = true) ∧ ¬ StartsName rest ∧ Lexed rest

def Slotted (shape : Shape) : Prop := ∃ i rest, shape = .slot i :: rest ∧ ¬ StartsName rest ∧ Lexed rest

/-- What is left of a lexed shape at some place that is not within a slot. -/
def Open (shape : Shape) : Prop := Slotted shape ∨ Worded (fun _ => True) shape

variable {σ τ : Nat → Text} {shape more : Shape}

@[simp] theorem fill_nil : fill σ [] = [] := rfl
@[simp] theorem fill_char (c : Char) : fill σ (.char c :: shape) = c :: fill σ shape := rfl
@[simp] theorem fill_slot (i : Nat) : fill σ (.slot i :: shape) = σ i ++ fill σ shape := rfl
@[simp] theorem slots_nil : slots [] = [] := rfl
@[simp] theorem slots_char (c : Char) : slots (.char c :: shape) = slots shape := rfl
@[simp] theorem slots_slot (i : Nat) : slots (.slot i :: shape) = i :: slots shape := rfl

@[simp] theorem fill_append : fill σ (shape ++ more) = fill σ shape ++ fill σ more := by
  induction shape with
  | nil => rfl
  | cons a rest ih => cases a <;> simp [ih]

@[simp] theorem slots_append : slots (shape ++ more) = slots shape ++ slots more := List.filterMap_append

@[simp] theorem fill_chars (w : Text) : fill σ (chars w) = w := by
  induction w with
  | nil => rfl
  | cons c w ih => simpa [chars] using ih

@[simp] theorem slots_chars (w : Text) : slots (chars w) = [] := by
  induction w with
  | nil => rfl
  | cons c w ih => simpa [chars] using ih

/-- Names that fill no slot of the shape do not matter. -/
theorem fill_congr (h : ∀ i ∈ slots shape, σ i = τ i) : fill σ shape = fill τ shape := by
  induction shape with
  | nil => rfl
  | cons a rest ih =>
    cases a with
    | char c => simpa using ih h
    | slot i =>
      simp only [slots_slot, List.forall_mem_cons] at h
      simp only [fill_slot, h.1, ih h.2]

theorem Fits.right (h : Fits σ (shape ++ more)) : Fits σ more :=
  fun i hi => h i (by simp [hi])

theorem Fits.tail {a : Piece} (h : Fits σ (a :: shape)) : Fits σ shape :=
  fun i hi => h i (by cases a <;> simp [hi])

theorem Fits.left (h : Fits σ (shape ++ more)) : Fits σ shape :=
  fun i hi => h i (by simp [hi])

theorem Fits.head {i : Nat} (h : Fits σ (.slot i :: shape)) : IsName (σ i) := h i (by simp)

/-- Every shape can be filled. -/
theorem exists_fits (shape : Shape) : ∃ σ, Fits σ shape := by
  have hx : IsName ['x'] := ⟨by decide, by decide⟩
  exact ⟨fun _ => ['x'], fun _ _ => hx⟩

/-- A shape that begins with no name ends the word before it, however it is filled. -/
theorem endsWord_fill (h : ¬ StartsName shape) : EndsWord (fill σ shape) := by
  cases shape with
  | nil => simp [EndsWord]
  | cons a rest =>
    cases a with
    | char c => simpa [EndsWord, StartsName] using h
    | slot i => exact absurd trivial h

theorem not_startsName_of_endsWord (hf : Fits σ shape) (h : EndsWord (fill σ shape)) :
    ¬ StartsName shape := by
  cases shape with
  | nil => exact fun h => h
  | cons a rest =>
    cases a with
    | char c => simpa [EndsWord, StartsName] using h
    | slot i =>
      have hid := hf.head.identifier
      cases hw : σ i with
      | nil => exact absurd hw hid.ne_nil
      | cons c r =>
        have hc := hid.isNameChar c (by simp [hw])
        simp [EndsWord, hw, hc] at h

/-- A shape begins with a slot or with a word that is no name. -/
theorem Lexed.cases (h : Lexed shape) : Slotted shape ∨ Worded (fun w => ¬ IsName w) shape := by
  cases h with
  | nil => exact .inr ⟨[], [], rfl, fun h => h.identifier.ne_nil rfl, by simp, fun h => h, .nil⟩
  | char hc hr =>
    refine .inr ⟨[], _, rfl, fun h => h.identifier.ne_nil rfl, by simp, ?_, .char hc hr⟩
    simp [StartsName, hc]
  | slot hs hr => exact .inl ⟨_, _, rfl, hs, hr⟩
  | @word c w rest hw hn hs hr => exact .inr ⟨c :: w, rest, rfl, hn, hw, hs, hr⟩

theorem Worded.imp {P Q : Text → Prop} (hpq : ∀ w, P w → Q w) (h : Worded P shape) : Worded Q shape := by
  obtain ⟨w, rest, rfl, hp, hw⟩ := h
  exact ⟨w, rest, rfl, hpq w hp, hw⟩

theorem Lexed.isOpen (h : Lexed shape) : Open shape := h.cases.imp id (Worded.imp fun _ _ => trivial)

/-- Every text is a word, of no letters perhaps, and what follows it. -/
theorem exists_word (s : Text) :
    ∃ w rest, s = w ++ rest ∧ (∀ c ∈ w, isNameChar c = true) ∧ EndsWord rest := by
  induction s with
  | nil => exact ⟨[], [], rfl, by simp, by simp [EndsWord]⟩
  | cons c r ih =>
    by_cases hc : isNameChar c = true
    · obtain ⟨w, rest, rfl, hw, hr⟩ := ih
      exact ⟨c :: w, rest, rfl, List.forall_mem_cons.mpr ⟨hc, hw⟩, hr⟩
    · exact ⟨[], c :: r, rfl, by simp, by simpa [EndsWord] using hc⟩

/-- Every text is the filling of a lexed shape, in which a slot has the number of characters behind it. -/
theorem exists_lexed (s : Text) : ∃ shape σ, Lexed shape ∧ fill σ shape = s ∧ Fits σ shape ∧
    (slots shape).Nodup ∧ ∀ i ∈ slots shape, i < s.length := by
  induction hn : s.length using Nat.strongRecOn generalizing s with
  | _ n ih =>
    subst hn
    obtain ⟨w, rest, rfl, hw, hr⟩ := exists_word s
    cases w with
    | nil =>
      cases rest with
      | nil => exact ⟨[], fun _ => [], .nil, rfl, by simp [Fits], by simp, by simp⟩
      | cons c rest =>
        obtain ⟨shape, σ, hl, hf, hfits, hnodup, hlt⟩ := ih rest.length (by simp) rest rfl
        refine ⟨.char c :: shape, σ, .char (by simpa [EndsWord] using hr) hl, by simp [hf], hfits, hnodup, ?_⟩
        intro i hi
        exact Nat.lt_succ_of_lt (hlt i hi)
    | cons c w =>
      have hless : rest.length < (c :: w ++ rest).length := by
        simp only [List.length_append, List.length_cons]
        omega
      obtain ⟨shape, σ, hl, hf, hfits, hnodup, hlt⟩ := ih rest.length hless rest rfl
      have hs : ¬ StartsName shape := not_startsName_of_endsWord hfits (hf ▸ hr)
      by_cases hname : IsName (c :: w)
      · have hne : ∀ i ∈ slots shape, i ≠ rest.length := fun i hi => Nat.ne_of_lt (hlt i hi)
        have hother : ∀ i ∈ slots shape, (if i = rest.length then c :: w else σ i) = σ i :=
          fun i hi => if_neg (hne i hi)
        refine ⟨.slot rest.length :: shape, fun i => if i = rest.length then c :: w else σ i,
          .slot hs hl, ?_, ?_, ?_, ?_⟩
        · simp [fill_congr hother, hf]
        · intro i hi
          rcases List.mem_cons.mp hi with rfl | hi
          · simpa using hname
          · simp only [hother i hi]
            exact hfits i hi
        · exact List.nodup_cons.mpr ⟨fun hi => hne _ hi rfl, hnodup⟩
        · intro i hi
          simp only [List.length_append, List.length_cons]
          rcases List.mem_cons.mp hi with rfl | hi
          · omega
          · have := hlt i hi
            omega
      · refine ⟨.char c :: (chars w ++ shape), σ, .word hw hname hs hl, by simp [hf], ?_, ?_, ?_⟩
        · intro i hi
          exact hfits i (by simpa using hi)
        · simpa using hnodup
        · intro i hi
          have := hlt i (by simpa using hi)
          simp only [List.length_append, List.length_cons]
          omega

end Shape

end DynamicSql.Expr
