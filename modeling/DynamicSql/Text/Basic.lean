import DynamicSql.Integer

/-!
Text as a sequence of characters. Every rule of the library is stated on this form; a `String` appears
only in messages and at the edge of the program. Offsets count the bytes of the UTF-8 encoding.
-/
namespace DynamicSql

abbrev Text := List Char

namespace Text

/-- Length in bytes of the UTF-8 encoding. -/
def byteLength : Text → Nat
  | [] => 0
  | c :: r => c.utf8Size + byteLength r

@[simp] theorem byteLength_nil : byteLength [] = 0 := rfl
@[simp] theorem byteLength_cons (c : Char) (r : Text) :
    byteLength (c :: r) = c.utf8Size + byteLength r := rfl

@[simp] theorem byteLength_append (s t : Text) :
    byteLength (s ++ t) = byteLength s + byteLength t := by
  induction s with
  | nil => simp
  | cons c r ih => simp [ih, Nat.add_assoc]

/-- What follows `lead` in a text that begins with it. -/
def after? : Text → Text → Option Text
  | [], s => some s
  | _ :: _, [] => none
  | c :: lead, d :: s => if c = d then after? lead s else none

theorem after?_eq_some_iff {lead s rest : Text} :
    after? lead s = some rest ↔ s = lead ++ rest := by
  induction lead generalizing s with
  | nil => simp [after?, eq_comm]
  | cons c lead ih =>
    cases s with
    | nil => simp [after?]
    | cons d s =>
      by_cases h : c = d
      · simp [after?, h, ih]
      · simp [after?, h, Ne.symm h]

/-- The first characters of a text up to the first one that `stop` accepts, and what follows it. -/
def cutAt? (stop : Char → Bool) : Text → Option (Text × Text)
  | [] => none
  | c :: r =>
    if stop c then some ([], r) else (cutAt? stop r).map fun (before, after) => (c :: before, after)

/-- The pieces between the characters that `mark` accepts; there is always at least one. -/
def pieces (mark : Char → Bool) : Text → List Text
  | [] => [[]]
  | c :: r =>
    if mark c then [] :: pieces mark r
    else match pieces mark r with
      | [] => [[c]]
      | first :: others => (c :: first) :: others

theorem pieces_ne_nil (mark : Char → Bool) (s : Text) : pieces mark s ≠ [] := by
  cases s with
  | nil => simp [pieces]
  | cons c r =>
    simp only [pieces]
    split
    · simp
    · split <;> simp

/-- Splitting at a mark splits the text there. -/
theorem pieces_append_mark {mark : Char → Bool} {c : Char} (hc : mark c = true) (s t : Text) :
    pieces mark (s ++ c :: t) = pieces mark s ++ pieces mark t := by
  induction s with
  | nil => simp [pieces, hc]
  | cons d r ih =>
    by_cases hd : mark d = true
    · simp [pieces, hd, ih]
    · obtain ⟨first, others, h⟩ := List.exists_cons_of_ne_nil (pieces_ne_nil mark r)
      simp [pieces, hd, ih, h]

/-- The parts with `separator` between neighbours. -/
def join (separator : Text) : List Text → Text
  | [] => []
  | [s] => s
  | s :: others => s ++ separator ++ join separator others

/--
Every occurrence of `old`, leftmost first and without overlap, becomes `new`. The count is the number of
characters of an occurrence that are still to be passed over.
-/
def replaceFrom (old new : Text) : Nat → Text → Text
  | _, [] => []
  | skip + 1, _ :: r => replaceFrom old new skip r
  | 0, c :: r =>
    if old ≠ [] ∧ old.isPrefixOf (c :: r) then new ++ replaceFrom old new (old.length - 1) r
    else c :: replaceFrom old new 0 r

def replace (old new s : Text) : Text := replaceFrom old new 0 s

/-- Order of the UTF-8 bytes, which is the order of the code points. -/
def le (s t : Text) : Bool := !decide (t < s)

def ofNat (n : Nat) : Text := Nat.toDigits 10 n

def ofInt : Int → Text
  | .ofNat n => ofNat n
  | .negSucc n => '-' :: ofNat (n + 1)

/-- The number that a nonempty run of decimal digits writes. -/
def natOfDigits? (s : Text) : Option Nat :=
  if s ≠ [] ∧ s.all Char.isDigit then some (Nat.ofDigitChars 10 s 0) else none

/-- A number below `limit`, with an optional plus sign. -/
def readNat? (limit : Nat) (s : Text) : Option Nat :=
  let digits := match s with
    | '+' :: r => r
    | _ => s
  match natOfDigits? digits with
  | some n => if n < limit then some n else none
  | none => none

/-- A signed integer of 64 bits, with an optional sign. -/
def readInt? (s : Text) : Option Int64 :=
  let signed : Option Int := match s with
    | '-' :: r => (natOfDigits? r).map fun n => -(n : Int)
    | '+' :: r => (natOfDigits? r).map fun n => (n : Int)
    | _ => (natOfDigits? s).map fun n => (n : Int)
  signed.bind Integer.ofInt?

end Text

end DynamicSql
