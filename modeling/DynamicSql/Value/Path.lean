import DynamicSql.Text.Blank
import DynamicSql.Value.Basic

/-!
Navigation by paths such as `items[0].name`. A path is the list of its segments: the nonempty pieces
between dots and brackets, without the blanks around them. Main statement: following one path after another is
following the list of both.
-/
namespace DynamicSql

namespace Path

def isMark (c : Char) : Bool := c = '.' || c = '[' || c = ']'

def segments (path : Text) : List Text :=
  ((Text.pieces isMark path).map Text.trim).filter fun s => !s.isEmpty

/-- A mark between two paths puts the segments of the second after those of the first. -/
theorem segments_append_mark {c : Char} (hc : isMark c = true) (p q : Text) :
    segments (p ++ c :: q) = segments p ++ segments q := by
  simp [segments, Text.pieces_append_mark hc]

end Path

namespace Value

/-- The word that asks a collection or text for its length. -/
def sizeSegment : Text := "size".toList

/--
One step: a key of a map, an index into a list. The length of a text or collection is found under `size`
unless a map has that key.
-/
def get? : Value → Text → Option Value
  | map entries, segment =>
    match Entries.get? entries segment with
    | some v => some v
    | none => if segment = sizeSegment then some (ofNat entries.length) else none
  | list items, segment =>
    match Text.readNat? Integer.bound64 segment with
    | some i => items[i]?
    | none => if segment = sizeSegment then some (ofNat items.length) else none
  | text s, segment => if segment = sizeSegment then some (ofNat s.length) else none
  | _, _ => none

/-- One step after the other, as long as there is a value. -/
def follow (v : Value) : List Text → Option Value
  | [] => some v
  | segment :: rest =>
    match v.get? segment with
    | some w => w.follow rest
    | none => none

def path? (v : Value) (path : Text) : Option Value := v.follow (Path.segments path)

@[simp] theorem follow_nil (v : Value) : v.follow [] = some v := rfl

theorem follow_append (v : Value) (first second : List Text) :
    v.follow (first ++ second) = (v.follow first).bind fun w => w.follow second := by
  induction first generalizing v with
  | nil => rfl
  | cons segment rest ih =>
    simp only [List.cons_append, follow]
    cases v.get? segment with
    | none => rfl
    | some w => exact ih w

end Value

end DynamicSql
