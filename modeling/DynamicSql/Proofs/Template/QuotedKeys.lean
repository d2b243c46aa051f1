import DynamicSql.Proofs.Template.PathPlaceholders

/-!
Keys in quotes behind the name of a map. A quoted key becomes a part of the path as it stands, and there its dots
and brackets separate and the blanks around it are dropped. Main statement: `name['key']` is always read, and
leads to the value of the key in every map that has it exactly when the key is one segment of a path.
-/
namespace DynamicSql

open DynamicSql.Expr (IsIdentifier IsName Inner Unescapes Segment PathSource Weighs Trail)
open DynamicSql.Expr.Grammar (isNameChar)

variable {m k s w : Text} {c q : Char} {v : Value} {scope : Scope} {entries : Entries Value}

namespace Path

/-- A segment is a trimmed text without marks, and not an empty one. -/
theorem segment_sound (h : w ∈ segments s) : w ≠ [] ∧ Text.Trimmed w ∧ ∀ c ∈ w, isMark c = false := by
  rw [segments, List.mem_filter, List.mem_map] at h
  obtain ⟨⟨piece, hpiece, rfl⟩, hne⟩ := h
  refine ⟨by simpa using hne, Text.trimmed_trim piece, fun c hc => ?_⟩
  obtain ⟨before, after, hsplit, -⟩ := Text.exists_trim piece
  refine Text.not_mark_of_mem_pieces hpiece c ?_
  rw [hsplit]
  exact List.mem_append_right _ (List.mem_append_left _ hc)

/-- The texts that are one segment of a path. -/
theorem segments_eq_self_iff :
    segments k = [k] ↔ k ≠ [] ∧ Text.Trimmed k ∧ ∀ c ∈ k, isMark c = false := by
  constructor
  · intro h
    exact segment_sound (h ▸ List.mem_singleton_self k)
  · rintro ⟨hne, htrim, hmark⟩
    simp [segments, Text.pieces_of_not_mark hmark, htrim.trim_eq, hne]

end Path

namespace Expr

/-- A backslash before each backslash and each single quote. -/
def escapeKey : Text → Text
  | [] => []
  | c :: r => if c = '\\' ∨ c = '\x27' then '\\' :: c :: escapeKey r else c :: escapeKey r

def quotedKey (m k : Text) : Text := m ++ '[' :: ('\x27' :: (escapeKey k ++ ['\x27', ']']))

/-- An escaped key may stand between single quotes. -/
theorem inner_escapeKey (k : Text) : Inner '\x27' (escapeKey k) := by
  induction k with
  | nil => exact .nil
  | cons c k ih =>
    rw [escapeKey]
    split
    · exact .escaped ih
    · next h =>
      obtain ⟨hb, hq⟩ := not_or.mp h
      exact .plain hq hb ih

/-- A key comes back from how it is escaped. -/
theorem unescapes_escapeKey (k : Text) : Unescapes (escapeKey k) k := by
  induction k with
  | nil => exact .nil
  | cons c k ih =>
    rw [escapeKey]
    split
    · exact .escaped ih
    · next h => exact .plain (not_or.mp h).1 ih

theorem pathSource_quotedKey (hm : IsName m) (k : Text) : PathSource (quotedKey m k) (m ++ '.' :: k) := by
  have hkey : Segment ('[' :: ('\x27' :: (escapeKey k ++ ['\x27', ']']))) ('.' :: k) :=
    .key .nil .nil (.inl rfl) (inner_escapeKey k) (unescapes_escapeKey k)
  have htrail := Trail.cons .nil hkey .nil
  rw [List.nil_append, List.append_nil, List.append_nil] at htrail
  exact .bare hm htrail

theorem delimits_of_isNameChar (h : isNameChar c = true) : delimits c = false := by
  by_contra hd
  simp only [delimits, Bool.not_eq_false, List.contains_iff_mem, List.mem_cons, List.not_mem_nil, or_false] at hd
  rcases hd with rfl | rfl | rfl | rfl <;> exact absurd h (by decide)

/-- What stands between the quotes opens no parenthesis. -/
theorem nestingOk_quotedKey (hm : IsName m) (k : Text) : nestingOk (quotedKey m k) = true := by
  have hname : ∀ c ∈ m ++ ['['], delimits c = false :=
    List.forall_mem_append.mpr ⟨fun c hc => delimits_of_isNameChar (hm.identifier.isNameChar c hc),
      List.forall_mem_singleton.mpr rfl⟩
  have hopen : Weighs (m ++ ['[']) [] := .of_plain hname rfl
  have hkey : Weighs ('\x27' :: (escapeKey k ++ ['\x27'])) [] := .quoted (inner_escapeKey k) (.inl rfl) rfl
  have hclose : Weighs [']'] [] := .of_plain (List.forall_mem_singleton.mpr rfl) rfl
  have hall := ((hopen.append hkey).append hclose) maxNesting 0 [] (Nat.zero_le _)
  have htext : m ++ ['['] ++ '\x27' :: (escapeKey k ++ ['\x27']) ++ [']'] ++ [] = quotedKey m k := by
    simp [quotedKey]
  rw [htext] at hall
  exact hall.mpr ⟨Nat.zero_le _, rfl⟩

/-- A key in brackets is written into the path as it is, points and all. -/
theorem parse_quotedKey (hm : IsName m) (k : Text) :
    Expression.parse (quotedKey m k) = .ok ⟨quotedKey m k, .path (m ++ '.' :: k)⟩ :=
  Query.parse_pathSource (pathSource_quotedKey hm k) (nestingOk_quotedKey hm k)

end Expr

/-- A scope in which the name means the value: of a value with that key, or of a resolution. -/
inductive Binds (m : Text) (v : Value) : Scope → Prop where
  | value {w : Value} : w.get? m = some v → Binds m v w.scope
  | resolution {bindings : Bindings} {p : Parameter} : Bindings.root? bindings p m = some v →
      Binds m v (bindings.resolve? p)

namespace Binds

/-- What follows the name leads on from its value. -/
theorem follow (h : Binds m v scope) (hm : IsIdentifier m) (k : Text) :
    scope (m ++ '.' :: k) = v.follow (Path.segments k) := by
  have hsegments : Path.segments (m ++ '.' :: k) = m :: Path.segments k := by
    rw [Path.segments_append_mark (by decide), segments_identifier hm]
    rfl
  cases h with
  | value h => simp [Value.scope, Value.path?, hsegments, Value.follow, h]
  | resolution h => simp [Bindings.resolve?, hsegments, h]

end Binds

namespace Expr

/-- A key that is not one segment leads to something else, at least in the map that has nothing but the key. -/
theorem follow_ne_of_segments (h : Path.segments k ≠ [k]) :
    ((Value.map [(k, .bool true)]).follow (Path.segments k)).getD .null ≠ .bool true := by
  cases hs : Path.segments k with
  | nil => simp
  | cons first rest =>
    have hne : first ≠ k := by
      rintro rfl
      exact h (Path.segments_eq_self_iff.mpr (Path.segment_sound (hs ▸ List.mem_cons_self)))
    have hget : Entries.get? [(k, Value.bool true)] first = none := by simp [Entries.get?, hne]
    simp only [Value.follow, Value.get?, hget]
    by_cases hsize : first = Value.sizeSegment
    · cases rest <;> simp [hsize, Value.follow, Value.get?, Value.ofNat]
    · simp [hsize]

/--
A quoted key behind a name is always read. Where the name means a map, the expression leads from there along the
segments of the key: so it has the value of the key, in every map that has the key, exactly when the key is not
empty, has no blanks at its ends and neither dots nor brackets in it.
-/
theorem evaluate_quotedKey (hm : IsName m) (k : Text) :
    ∃ x, Expression.parse (quotedKey m k) = .ok x ∧
      (∀ scope entries, Binds m (.map entries) scope →
        x.evaluate scope = .ok (((Value.map entries).follow (Path.segments k)).getD .null)) ∧
      ((∀ scope entries v, Binds m (.map entries) scope → Entries.get? entries k = some v →
          x.evaluate scope = .ok v) ↔
        k ≠ [] ∧ Text.Trimmed k ∧ ∀ c ∈ k, Path.isMark c = false) := by
  have hvalue : ∀ scope entries, Binds m (.map entries) scope →
      (⟨quotedKey m k, .path (m ++ '.' :: k)⟩ : Expression).evaluate scope =
        .ok (((Value.map entries).follow (Path.segments k)).getD .null) := by
    intro scope entries hscope
    rw [← hscope.follow hm.identifier k]
    rfl
  refine ⟨_, parse_quotedKey hm k, hvalue, ?_⟩
  rw [← Path.segments_eq_self_iff]
  constructor
  · intro h
    by_contra hsegments
    -- The map with the key alone: whatever the segments lead to there, it is not the value of the key.
    have hscope : Binds m (.map [(k, .bool true)]) (Value.map [(m, .map [(k, .bool true)])]).scope :=
      .value (by simp [Value.get?, Entries.get?])
    have hright := h _ _ (.bool true) hscope (by simp [Entries.get?])
    exact follow_ne_of_segments hsegments (Except.ok.inj ((hvalue _ _ hscope).symm.trans hright))
  · intro hsegments scope entries v hscope hget
    rw [hvalue scope entries hscope, hsegments]
    simp [Value.follow, Value.get?, hget]

/-! A key that is no name, and one that is no segment. -/

theorem evaluate_quotedKey_apostrophe : ∃ x,
    Expression.parse "attrs['l\\'état (\\\\)']".toList = .ok x ∧
      x.evaluate (Value.map [("attrs".toList, .map [("l'état (\\)".toList, .ofNat 7)])]).scope =
        .ok (.ofNat 7) := by
  obtain ⟨x, hx, -, hkey⟩ := evaluate_quotedKey (m := "attrs".toList) ⟨by decide, by decide⟩ "l'état (\\)".toList
  exact ⟨x, hx, hkey.mpr (Path.segments_eq_self_iff.mp rfl) _ _ _ (.value rfl) rfl⟩

theorem dottedKey_lost :
    Expression.parse "m['a.b']".toList = .ok ⟨"m['a.b']".toList, .path "m.a.b".toList⟩ ∧
      (Value.map [("a.b".toList, .ofNat 1)]).get? "a.b".toList = some (.ofNat 1) ∧
      (⟨"m['a.b']".toList, .path "m.a.b".toList⟩ : Expression).evaluate
        (Value.map [("m".toList, .map [("a.b".toList, .ofNat 1)])]).scope = .ok .null :=
  ⟨parse_quotedKey (m := "m".toList) ⟨by decide, by decide⟩ "a.b".toList, rfl, rfl⟩

end Expr

end DynamicSql
