import DynamicSql.Proofs.Expr.PathReadings
import DynamicSql.Proofs.Template.Rerooting
import DynamicSql.Proofs.Template.Closers

/-!
A path in a test and in a placeholder. A placeholder takes a path without quotes as it stands, and any other as
an expression in parentheses. Main statement: written so, the path has in the placeholder the value that it has
in the test, as long as that is not null.
-/
namespace DynamicSql

open DynamicSql.Expr (IsIdentifier IsName EndsWord Spacing Segment Trail PathSource Digits Inner Quoting Opens)
open DynamicSql.Expr.Grammar (isNameChar isSpace)

namespace Expr

variable {a b r s t u v w z path : Text} {q c : Char}

/-! What a path begins and ends with. -/

/-- The last character closes a name, a bracket or a parenthesis. -/
def Ended (s : Text) : Prop := ∃ v c, s = v ++ [c] ∧ (isNameChar c = true ∨ c = ']' ∨ c = ')')

theorem Ended.append (h : Ended s) (r : Text) : Ended (r ++ s) := by
  obtain ⟨v, c, rfl, hc⟩ := h
  exact ⟨r ++ v, c, (List.append_assoc r v [c]).symm, hc⟩

theorem Ended.cons (h : Ended s) (c : Char) : Ended (c :: s) := h.append [c]

theorem ended_word (hne : w ≠ []) (hw : ∀ c ∈ w, isNameChar c = true) : Ended w :=
  ⟨w.dropLast, w.getLast hne, (List.dropLast_append_getLast hne).symm, .inl (hw _ (List.getLast_mem hne))⟩

theorem ended_bracket : Ended [']'] := ⟨[], ']', rfl, .inr (.inl rfl)⟩

theorem Digits.isNameChar (h : Digits w) : ∀ c ∈ w, isNameChar c = true :=
  fun c hc => isNameChar_of_isDigit (h.isDigit c hc)

theorem Segment.ended (h : Segment w v) : Ended w := by
  cases h with
  | name _ hw => exact ((ended_word hw.ne_nil hw.isNameChar).append _).cons _
  | number _ hw => exact ((ended_word hw.ne_nil hw.isNameChar).append _).cons _
  | index _ _ _ => exact (((ended_bracket.append _).append _).append _).cons _
  | key _ _ _ _ _ => exact (((((ended_bracket.append _).cons _).append _).cons _).append _).cons _

theorem Trail.ended (h : Trail r t) (hs : Ended s) : Ended (s ++ r) := by
  induction h generalizing s with
  | nil => simpa using hs
  | @cons a w v r t _ hw _ ih =>
    have hall := ih ((hw.ended.append a).append s)
    simpa using hall

theorem PathSource.ended (h : PathSource u path) : Ended u := by
  cases h with
  | bare hw h => exact h.ended (ended_word hw.identifier.ne_nil hw.identifier.isNameChar)
  | parenthesized _ _ _ =>
    have hclose : Ended [')'] := ⟨[], ')', rfl, .inr (.inr rfl)⟩
    exact (((hclose.append _).append _).append _).cons _

theorem PathSource.ne_nil (h : PathSource u path) : u ≠ [] := by
  obtain ⟨v, c, rfl, -⟩ := h.ended
  simp

theorem PathSource.trimmed (h : PathSource u path) : Text.Trimmed u where
  head c hc := by
    have hopens : Opens (u ++ []) := h.opens Closes.ended.endsWord
    rw [List.append_nil] at hopens
    cases hopens with
    | @name w r hw _ =>
      obtain ⟨d, v, heq, hd⟩ := hw.identifier.head_isLetter r
      rw [heq] at hc
      cases hc
      exact isBlank_of_isNameChar (isNameChar_of_isLetter hd)
    | parenthesis =>
      cases hc
      decide
  last c hc := by
    obtain ⟨v, d, rfl, hd⟩ := h.ended
    rw [List.getLast?_concat] at hc
    cases hc
    rcases hd with hd | rfl | rfl
    · exact isBlank_of_isNameChar hd
    · decide
    · decide

/-! The segments of a path without quotes. -/

def Quoteless (s : Text) : Prop := ∀ c ∈ s, c ≠ '\x27' ∧ c ≠ '\x22'

theorem Quoteless.nil : Quoteless [] := List.forall_mem_nil _

theorem Quoteless.cons (hc : c ≠ '\x27' ∧ c ≠ '\x22') (hs : Quoteless s) : Quoteless (c :: s) :=
  List.forall_mem_cons.mpr ⟨hc, hs⟩

theorem Quoteless.append (hs : Quoteless s) (hr : Quoteless r) : Quoteless (s ++ r) :=
  List.forall_mem_append.mpr ⟨hs, hr⟩

theorem isMark_of_isSpace (h : isSpace c = true) : Path.isMark c = false := by
  rcases isSpace_cases h with rfl | rfl | rfl | rfl <;> decide

/-- A word is one segment, whatever blanks there are around it. -/
theorem segments_word (hb : Spacing b) (hne : w ≠ []) (hw : ∀ c ∈ w, isNameChar c = true) (ha : Spacing a) :
    Path.segments (b ++ (w ++ a)) = [w] := by
  have hmark : ∀ c ∈ b ++ (w ++ a), Path.isMark c = false := by
    simp only [List.forall_mem_append]
    exact ⟨fun c hc => isMark_of_isSpace (hb c hc), fun c hc => isMark_of_isNameChar (hw c hc),
      fun c hc => isMark_of_isSpace (ha c hc)⟩
  have htrim : Text.trim (b ++ (w ++ a)) = w :=
    Text.trim_append hb.isBlank ha.isBlank (trimmed_of_isNameChar hw) hne
  simp [Path.segments, Text.pieces_of_not_mark hmark, htrim, hne]

theorem segments_spacing (ha : Spacing a) : Path.segments a = [] := by
  have hmark : ∀ c ∈ a, Path.isMark c = false := fun c hc => isMark_of_isSpace (ha c hc)
  have htrim : Text.trim a = [] := by
    simp [Text.trim, Text.trimStart, Text.trimEnd, List.dropWhile_eq_nil_iff.mpr ha.isBlank]
  simp [Path.segments, Text.pieces_of_not_mark hmark, htrim]

theorem Segment.mark (h : Segment w v) : ∃ c s, w = c :: s ∧ Path.isMark c = true := by
  cases h <;> exact ⟨_, _, rfl, by decide⟩

/-- Blanks around a name count for nothing, and a name for one segment. -/
theorem Trail.segments_word (h : Trail r t) (hb : Spacing b) (hne : w ≠ [])
    (hw : ∀ c ∈ w, isNameChar c = true) :
    Path.segments (b ++ (w ++ r)) = w :: Path.segments r := by
  cases h with
  | nil => exact Expr.segments_word hb hne hw .nil
  | @cons a v u r t ha hv h =>
    obtain ⟨c, s, rfl, hc⟩ := hv.mark
    have hleft : b ++ (w ++ (a ++ (c :: s ++ r))) = (b ++ (w ++ a)) ++ c :: (s ++ r) := by simp
    have hright : a ++ (c :: s ++ r) = a ++ c :: (s ++ r) := rfl
    rw [hleft, hright, Path.segments_append_mark hc, Path.segments_append_mark hc,
      Expr.segments_word hb hne hw ha, segments_spacing ha]
    rfl

theorem segments_mark (hc : Path.isMark c = true) (s : Text) : Path.segments (c :: s) = Path.segments s := by
  have h := Path.segments_append_mark hc [] s
  rwa [List.nil_append, segments_spacing .nil, List.nil_append] at h

theorem Trail.marked (h : Trail r t) : t = [] ∨ ∃ c s, t = c :: s ∧ Path.isMark c = true := by
  cases h with
  | nil => exact .inl rfl
  | cons _ hw _ => cases hw <;> exact .inr ⟨_, _, rfl, by decide⟩

/-- What follows a name in the usual form counts apart. -/
theorem Trail.segments_append (h : Trail r t) (s : Text) :
    Path.segments (s ++ t) = Path.segments s ++ Path.segments t := by
  rcases h.marked with rfl | ⟨c, v, rfl, hc⟩
  · rw [List.append_nil, segments_spacing .nil, List.append_nil]
  · rw [Path.segments_append_mark hc, segments_mark hc]

/-- Without quotes the segments are those that the trail writes. -/
theorem Trail.segments_eq (h : Trail r t) (hq : Quoteless r) : Path.segments r = Path.segments t := by
  induction h with
  | nil => rfl
  | @cons a w v r t ha hw h ih =>
    have hr : Path.segments r = Path.segments t :=
      ih fun c hc => hq c (List.mem_append_right _ (List.mem_append_right _ hc))
    have hdrop : ∀ c s, Path.isMark c = true → Path.segments (a ++ c :: s) = Path.segments s := by
      intro c s hc
      rw [Path.segments_append_mark hc, segments_spacing ha, List.nil_append]
    have hdigits : ∀ {w : Text}, Digits w → Path.segments w = [w] := by
      intro w hw
      simpa using Expr.segments_word .nil hw.ne_nil hw.isNameChar .nil
    have hindex : ∀ {w : Text}, Digits w → Path.segments ('[' :: (w ++ [']']) ++ t) = w :: Path.segments t := by
      intro w hw
      rw [List.cons_append, segments_mark (by decide), List.append_assoc, List.singleton_append,
        Path.segments_append_mark (by decide), hdigits hw]
      rfl
    -- In both forms a mark comes before the name and another one, or nothing, behind it.
    cases hw with
    | @name b w hb hw =>
      have hname : Path.segments w = [w] := segments_identifier hw
      rw [List.cons_append, List.cons_append, hdrop '.' _ (by decide), segments_mark (by decide),
        List.append_assoc, h.segments_word hb hw.ne_nil hw.isNameChar, h.segments_append, hname, hr]
      rfl
    | @number b w hb hw =>
      rw [hindex hw, List.cons_append, hdrop '.' _ (by decide), List.append_assoc,
        h.segments_word hb hw.ne_nil hw.isNameChar, hr]
    | @index b c w hb hc hw =>
      have htext : b ++ (w ++ (c ++ [']'])) ++ r = b ++ (w ++ c) ++ ']' :: r := by simp
      rw [hindex hw, List.cons_append, hdrop '[' _ (by decide), htext, Path.segments_append_mark (by decide),
        Expr.segments_word hb hw.ne_nil hw.isNameChar hc, hr]
      rfl
    | @key b c q w s hb hc hquote hw hs =>
      obtain ⟨hsingle, hdouble⟩ := hq q (by simp)
      exact absurd hquote (not_or.mpr ⟨hsingle, hdouble⟩)

/-! Quotes inside quoted keys. -/

/-- A quoted key holds the quote that it stands in, behind a backslash. -/
def escapesQuote : Quoting → Text → Bool
  | _, [] => false
  | .escaped q, c :: r => c = q || escapesQuote (.inside q) r
  | .inside q, c :: r => escapesQuote (if c = '\\' then .escaped q else if c = q then .outside else .inside q) r
  | .outside, c :: r => escapesQuote (if c = '\x27' ∨ c = '\x22' then .inside c else .outside) r

theorem escapesQuote_left {m : Quoting} (h : escapesQuote m (s ++ r) = false) : escapesQuote m s = false := by
  induction s generalizing m with
  | nil => cases m <;> rfl
  | cons c s ih =>
    cases m with
    | outside => exact ih h
    | inside q => exact ih h
    | escaped q =>
      simp only [List.cons_append, escapesQuote, Bool.or_eq_false_iff] at h ⊢
      exact ⟨h.1, ih h.2⟩

theorem escapesQuote_quoteless (hs : Quoteless s) (r : Text) :
    escapesQuote .outside (s ++ r) = escapesQuote .outside r := by
  induction s with
  | nil => rfl
  | cons c s ih =>
    have hc : ¬ (c = '\x27' ∨ c = '\x22') := not_or.mpr (hs c List.mem_cons_self)
    rw [List.cons_append, escapesQuote, if_neg hc]
    exact ih fun d hd => hs d (List.mem_cons_of_mem _ hd)

/-- What stands in quotes is passed up to the quote that closes, and may not hold it. -/
theorem Inner.escapesQuote (hw : Inner q w) (hb : q ≠ '\\')
    (h : escapesQuote (.inside q) (w ++ q :: r) = false) :
    q ∉ w ∧ Expr.escapesQuote .outside r = false := by
  induction hw with
  | nil => simpa [Expr.escapesQuote, hb] using h
  | @escaped c w _ ih =>
    simp only [List.cons_append, Expr.escapesQuote, if_true, Bool.or_eq_false_iff, decide_eq_false_iff_not] at h
    obtain ⟨hnot, hr⟩ := ih h.2
    exact ⟨by simp [hb, Ne.symm h.1, hnot], hr⟩
  | @plain c w hq hne _ ih =>
    simp only [List.cons_append, Expr.escapesQuote, hq, hne, if_false] at h
    obtain ⟨hnot, hr⟩ := ih h
    exact ⟨by simp [Ne.symm hq, hnot], hr⟩

theorem Spacing.quoteless (ha : Spacing a) : Quoteless a := by
  intro c hc
  constructor <;> (rintro rfl; exact absurd (ha _ hc) (by decide))

theorem quoteless_word (hw : ∀ c ∈ w, isNameChar c = true) : Quoteless w := by
  intro c hc
  constructor <;> (rintro rfl; exact absurd (hw _ hc) (by decide))

end Expr

namespace Placeholder

open DynamicSql.Expr

variable {a b r s t u v w path : Text} {q : Char} {d : Nat}

theorem pass_spacing (ha : Spacing a) : Level.pass ⟨d, none⟩ a = some ⟨d, none⟩ :=
  Level.pass_blank (by simp [Level.Plain]) ha.isBlank

theorem pass_word (hw : ∀ c ∈ w, isNameChar c = true) : Level.pass ⟨d, none⟩ w = some ⟨d, none⟩ :=
  Level.pass_word (by simp [Level.Plain]) hw

theorem pass_cons {c : Char} (hc : c ∉ ['\x27', '\x22', '(', ')', ',']) (s : Text) :
    Level.pass ⟨d, none⟩ (c :: s) = Level.pass ⟨d, none⟩ s := by
  simp only [List.mem_cons, List.not_mem_nil, or_false, not_or] at hc
  simp [Level.pass, Level.separates, Level.next, hc]

/-- Between quotes nothing counts but the quote. -/
theorem pass_quoted (hq : q = '\x27' ∨ q = '\x22') (hw : q ∉ w) (s : Text) :
    Level.pass ⟨d, none⟩ (q :: (w ++ q :: s)) = Level.pass ⟨d, none⟩ s := by
  have hinside : Level.pass ⟨d, some q⟩ (w ++ q :: s) = Level.pass ⟨d, none⟩ s := by
    induction w with
    | nil => simp [Level.pass, Level.separates, Level.next]
    | cons c w ih =>
      obtain ⟨hc, hw⟩ := not_or.mp (List.mem_cons.not.mp hw)
      rw [List.cons_append, Level.pass]
      simpa [Level.separates, Level.next, Ne.symm hc] using ih hw
  have hne : q ≠ ',' := by rcases hq with rfl | rfl <;> decide
  rw [Level.pass]
  simpa [Level.separates, Level.next, hne, hq] using hinside

/-- A segment opens and closes as much, so the level is the same behind it. -/
theorem pass_segment (h : Segment w v) (hk : escapesQuote .outside (w ++ r) = false) :
    (∀ s, Level.pass ⟨d, none⟩ (w ++ s) = Level.pass ⟨d, none⟩ s) ∧ escapesQuote .outside r = false := by
  cases h with
  | @name b w hb hw | @number b w hb hw =>
    have hquote : Quoteless ('.' :: (b ++ w)) :=
      Quoteless.cons (by decide) (hb.quoteless.append (quoteless_word hw.isNameChar))
    refine ⟨fun s => ?_, by rwa [escapesQuote_quoteless hquote] at hk⟩
    rw [List.cons_append, pass_cons (by decide), Level.pass_append, Level.pass_append, pass_spacing hb,
      Option.bind_some, pass_word hw.isNameChar, Option.bind_some]
  | @index b c w hb hc hw =>
    have hquote : Quoteless ('[' :: (b ++ (w ++ (c ++ [']'])))) :=
      Quoteless.cons (by decide) (hb.quoteless.append ((quoteless_word hw.isNameChar).append
        (hc.quoteless.append (Quoteless.cons (by decide) .nil))))
    refine ⟨fun s => ?_, by rwa [escapesQuote_quoteless hquote] at hk⟩
    have htext : '[' :: (b ++ (w ++ (c ++ [']']))) ++ s = '[' :: (b ++ (w ++ (c ++ (']' :: s)))) := by simp
    rw [htext, pass_cons (by decide), Level.pass_append, pass_spacing hb, Option.bind_some, Level.pass_append,
      pass_word hw.isNameChar, Option.bind_some, Level.pass_append, pass_spacing hc, Option.bind_some,
      pass_cons (by decide)]
  | @key b c q w v hb hc hq hw hv =>
    have hopen : Quoteless ('[' :: b) := Quoteless.cons (by decide) hb.quoteless
    have hclose : Quoteless (c ++ [']']) := hc.quoteless.append (Quoteless.cons (by decide) .nil)
    have htext : ∀ s, '[' :: (b ++ (q :: (w ++ q :: (c ++ [']'])))) ++ s =
        '[' :: b ++ (q :: (w ++ q :: (c ++ [']'] ++ s))) := by simp
    rw [htext, escapesQuote_quoteless hopen, escapesQuote, if_pos hq] at hk
    obtain ⟨hnot, hr⟩ := hw.escapesQuote (by rcases hq with rfl | rfl <;> decide) hk
    refine ⟨fun s => ?_, by rwa [escapesQuote_quoteless hclose] at hr⟩
    rw [htext, List.cons_append, pass_cons (by decide), Level.pass_append, pass_spacing hb, Option.bind_some,
      pass_quoted hq hnot, List.append_assoc, Level.pass_append, pass_spacing hc, Option.bind_some,
      List.singleton_append, pass_cons (by decide)]

theorem pass_trail (h : Trail r t) (hk : escapesQuote .outside r = false) :
    Level.pass ⟨d, none⟩ r = some ⟨d, none⟩ := by
  induction h with
  | nil => rfl
  | @cons a w v r t ha hw _ ih =>
    rw [escapesQuote_quoteless ha.quoteless] at hk
    obtain ⟨hpass, hr⟩ := pass_segment hw hk
    rw [Level.pass_append, pass_spacing ha, Option.bind_some, hpass, ih hr]

/-- What stands in a path separates nothing, and its quotes and parentheses are closed. -/
theorem pass_pathSource (h : PathSource u path) (hk : escapesQuote .outside u = false) :
    Level.pass ⟨d, none⟩ u = some ⟨d, none⟩ := by
  induction h generalizing d with
  | bare hw h =>
    rw [escapesQuote_quoteless (quoteless_word hw.identifier.isNameChar)] at hk
    rw [Level.pass_append, pass_word hw.identifier.isNameChar, Option.bind_some, pass_trail h hk]
  | @parenthesized a u b p ha hb _ ih =>
    have hopen : Quoteless ('(' :: a) := Quoteless.cons (by decide) ha.quoteless
    have hinside : escapesQuote .outside (u ++ (b ++ [')'])) = false := by
      rwa [← List.cons_append, escapesQuote_quoteless hopen] at hk
    have hnext : Level.pass ⟨d, none⟩ ('(' :: (a ++ (u ++ (b ++ [')'])))) =
        Level.pass ⟨d + 1, none⟩ (a ++ (u ++ (b ++ [')']))) := by
      simp [Level.pass, Level.separates, Level.next]
    rw [hnext, Level.pass_append, pass_spacing ha, Option.bind_some, Level.pass_append,
      ih (escapesQuote_left hinside), Option.bind_some, Level.pass_append, pass_spacing hb, Option.bind_some]
    simp [Level.pass, Level.separates, Level.next]

/-- Only a comma can stop a pass. -/
theorem exists_pass_of_comma (h : ',' ∉ s) (l : Level) : ∃ l', l.pass s = some l' := by
  induction s generalizing l with
  | nil => exact ⟨l, rfl⟩
  | cons c s ih =>
    obtain ⟨hc, hs⟩ := not_or.mp (List.mem_cons.not.mp h)
    obtain ⟨l', hl⟩ := ih hs (l.next c)
    exact ⟨l', by simpa [Level.pass, Level.separates, Ne.symm hc] using hl⟩

theorem split_of_pass {l : Level} (h : Level.pass .top s = some l) : split s = (s, []) := by
  have hsplit := splitFrom_append h []
  rwa [List.append_nil, splitFrom, List.append_nil] at hsplit

/--
How a placeholder takes a path: without quotes, or in parentheses. There, a comma behind a quote that a key
escapes may be taken for one before an attribute.
-/
def Notated (source : Text) : Prop :=
  Expr.Quoteless source ∨ (Text.trim source).head? = some '(' ∧
    (',' ∉ source ∨ Expr.escapesQuote .outside source = false)

theorem Notated.escapesQuote {source : Text} (h : Notated source) :
    ',' ∉ source ∨ Expr.escapesQuote .outside source = false := by
  rcases h with hquote | ⟨-, hcomma⟩
  · have hall := escapesQuote_quoteless hquote []
    rw [List.append_nil] at hall
    exact .inr hall
  · exact hcomma

/-- A notated path has no quotes, or stands in parentheses. -/
theorem Notated.trimmed (h : Notated (a ++ (u ++ b))) (htrim : Text.trim (a ++ (u ++ b)) = u) :
    Quoteless u ∨ u.head? = some '(' := by
  rcases h with hquote | ⟨hhead, -⟩
  · exact .inl fun c hc => hquote c (List.mem_append_right _ (List.mem_append_left _ hc))
  · exact .inr (htrim ▸ hhead)

end Placeholder

namespace Expression

variable {x : Expression} {path : Text} {v : Value}

theorem expr_of_asPath? (h : x.asPath? = some path) : x.expr = .path path := by
  unfold asPath? at h
  split at h
  · next heq => rw [heq, Option.some.inj h]
  · cases h

/-- A path leads to every value that it has, null apart. -/
theorem resolve_of_evaluate {scope : Scope} (hpath : x.expr = .path path) (hv : v ≠ .null)
    (h : x.evaluate scope = .ok v) : scope path = some v := by
  have hget : (scope path).getD .null = v := by simpa [evaluate, hpath, Expr.eval] using h
  exact (Option.getD_eq_iff.mp hget).resolve_right fun hnone => hv hnone.2.symm

/-- A test that a path is not null passes where the path leads to a value other than null. -/
theorem exists_of_test {scope : Scope} (hx : x.expr = .compare .ne (.path path) (.literal .null))
    (h : x.test scope = .ok true) : ∃ v, v ≠ .null ∧ scope path = some v := by
  have hne : (scope path).getD .null ≠ .null := by
    intro hnull
    simp [test, evaluate, hx, Expr.eval, hnull, Except.map, Value.compares, Value.equals, Value.truthy] at h
  exact ⟨_, hne, (Option.getD_eq_iff.mp rfl).resolve_right fun hnone => hne hnone.2.symm⟩

end Expression

namespace Query

open Placeholder DynamicSql.Expr

variable {s : Setting} {bindings : Bindings} {source path : Text} {x : Expression} {v : Value}
  {target : Placeholder.Target}

/-- A placeholder that is the whole text gives way to one marker. -/
theorem ofText_write_of_describe (hd : s.config.placeholder = Config.default.placeholder) (hw : Token.Whole source)
    {d : Descriptor} (h : describe s bindings source 0 = .ok d) :
    ofText s bindings (Placeholder.write s.config.placeholder source) =
      .ok ⟨s.config.marker.marker 1, [d], bindings⟩ := by
  rw [ofText_eq_ok_iff, hd]
  refine ⟨[.expr source 0], hw.readsBack, ?_, ?_, rfl⟩
  · exact .cons (describe_eq_ok_iff.mp h) .nil
  · simp [pieces, piece]

/-- A placeholder without attributes has one descriptor, with the value that its target finds. -/
theorem ofText_write (hd : s.config.placeholder = Config.default.placeholder) (hw : Token.Whole source)
    (hs : split source = (source, [])) (hne : Text.trim source ≠ [])
    (ht : readTarget (Text.trim source) = .ok target) {expression : Text}
    (hf : target.find bindings s.parameter = .ok (expression, some v)) :
    ∃ q d, ofText s bindings (Placeholder.write s.config.placeholder source) = .ok q ∧ q.parameters = [d] ∧
      d.value = v ∧ q.text = s.config.marker.marker 1 := by
  have hsettle : Attributes.settle {} (some v) = some v := by cases v <;> rfl
  obtain ⟨d, hdescribe, hvalue⟩ : ∃ d, (⟨target, {}⟩ : Placeholder).describe bindings s.parameter = .ok d ∧
      d.value = v := by simp [Placeholder.describe, hf, hsettle]
  have hquery : describe s bindings source 0 = .ok d :=
    (describe_eq_ok_iff_of_split hs rfl hne).mpr ⟨target, {}, ht, rfl, hdescribe⟩
  exact ⟨_, d, ofText_write_of_describe hd hw hquery, rfl, hvalue, rfl⟩

theorem whole_path {a u b : Text} (hb : Spacing b) (h : PathSource u path) : Token.Whole (a ++ (u ++ b)) := by
  obtain ⟨v, c, rfl, hc⟩ := h.ended
  rcases List.eq_nil_or_concat b with rfl | ⟨r, e, rfl⟩
  · intro d hd
    rw [List.append_nil, ← List.append_assoc, List.getLast?_concat] at hd
    cases hd
    constructor <;> (rintro rfl; revert hc; decide)
  · intro d hd
    have he : isSpace e = true := hb e (by simp)
    rw [List.concat_eq_append, ← List.append_assoc, ← List.append_assoc, List.getLast?_concat] at hd
    cases hd
    constructor <;> (rintro rfl; revert he; decide)

/-- Nothing in a path separates, however its keys are quoted, if there is no comma or no escaped quote. -/
theorem split_path {a u b : Text} (ha : Spacing a) (hb : Spacing b) (h : PathSource u path)
    (hn : ',' ∉ a ++ (u ++ b) ∨ escapesQuote .outside (a ++ (u ++ b)) = false) :
    split (a ++ (u ++ b)) = (a ++ (u ++ b), []) := by
  rcases hn with hcomma | hquote
  · obtain ⟨l, hl⟩ := exists_pass_of_comma hcomma .top
    exact split_of_pass hl
  · rw [escapesQuote_quoteless ha.quoteless] at hquote
    refine split_of_pass (l := .top) ?_
    have hu : Level.pass .top u = some .top := pass_pathSource h (escapesQuote_left hquote)
    have hspace : ∀ {v : Text}, Spacing v → Level.pass .top v = some .top := fun hv => pass_spacing hv
    rw [Level.pass_append, hspace ha, Option.bind_some, Level.pass_append, hu, Option.bind_some, hspace hb]

/-- Where a path is taken from the content, and the value that it has there. -/
theorem exists_target {a u b : Text} (ha : Spacing a) (hu : PathSource u path)
    (hnest : nestingOk (a ++ (u ++ b)) = true) (hn : Quoteless u ∨ u.head? = some '(')
    (hv : bindings.resolve? s.parameter path = some v) :
    ∃ target expression, readTarget u = .ok target ∧
      target.find bindings s.parameter = .ok (expression, some v) := by
  cases hu with
  | @bare w r p hw h =>
    have hquote : Quoteless (w ++ r) := by
      refine hn.resolve_right fun hhead => ?_
      exact hw.identifier.head_ne r (by decide) hhead
    have hsegments : Path.segments (w ++ r) = Path.segments (w ++ p) := by
      have hr : Quoteless r := fun c hc => hquote c (List.mem_append_right _ hc)
      have hword := h.segments_word .nil hw.identifier.ne_nil hw.identifier.isNameChar
      rw [List.nil_append] at hword
      rw [hword, h.segments_eq hr, h.segments_append, segments_identifier hw.identifier]
      rfl
    refine ⟨.path (w ++ r), w ++ r, ?_, ?_⟩
    · rw [readTarget, enclosed?_identifier hw.identifier]
    · have hresolve : bindings.resolve? s.parameter (w ++ r) = some v := by
        rw [Bindings.resolve?, hsegments]
        exact hv
      rw [Target.find, lookup?, hresolve]
  | @parenthesized c u d p hc hd hu =>
    have hinside : Expr.parse (c ++ (u ++ d)) = .ok (.path path) :=
      parse_inside ha hc hd hu (by simpa using hnest)
    have hparse : Expression.parse (c ++ (u ++ d)) = .ok ⟨Text.trim (c ++ (u ++ d)), .path path⟩ :=
      Expression.parse_eq_ok_iff.mpr ⟨hinside, rfl⟩
    have htext : '(' :: (c ++ (u ++ (d ++ [')']))) = '(' :: (c ++ (u ++ d) ++ [')']) := by simp
    refine ⟨.expr ⟨Text.trim (c ++ (u ++ d)), .path path⟩, Text.trim (c ++ (u ++ d)), ?_, ?_⟩
    · rw [htext, readTarget, enclosed?_parentheses]
      simp only [hparse]
      rfl
    · simp [Target.find, Expression.evaluate, Expr.eval, hv, Except.map]

/--
A path has in a placeholder the value that it has in a test, as long as that is not null: so a test that it is
not null makes sure of the placeholder.
-/
theorem ofText_path (bindings : Bindings) (hd : s.config.placeholder = Config.default.placeholder)
    (hx : Expression.parse source = .ok x) (hp : x.asPath? = some path) (hn : Notated source) :
    (∀ v, v ≠ .null → x.evaluate (bindings.resolve? s.parameter) = .ok v →
      ∃ q d, ofText s bindings (Placeholder.write s.config.placeholder source) = .ok q ∧ q.parameters = [d] ∧
        d.value = v ∧ q.text = s.config.marker.marker 1) ∧
    ∀ g : Expression, g.expr = .compare .ne x.expr (.literal .null) →
      g.test (bindings.resolve? s.parameter) = .ok true →
        ∃ q d, ofText s bindings (Placeholder.write s.config.placeholder source) = .ok q ∧ q.parameters = [d] ∧
          d.value ≠ .null := by
  obtain ⟨hparse, -⟩ := Expression.parse_eq_ok_iff.mp hx
  have hpath : x.expr = .path path := Expression.expr_of_asPath? hp
  rw [hpath] at hparse
  obtain ⟨hnest, a, u, b, rfl, ha, hb, hu⟩ := parse_eq_path_iff.mp hparse
  have htrim : Text.trim (a ++ (u ++ b)) = u := Text.trim_append ha.isBlank hb.isBlank hu.trimmed hu.ne_nil
  have hvalue : ∀ v, bindings.resolve? s.parameter path = some v →
      ∃ q d, ofText s bindings (Placeholder.write s.config.placeholder (a ++ (u ++ b))) = .ok q ∧
        q.parameters = [d] ∧ d.value = v ∧ q.text = s.config.marker.marker 1 := by
    intro v hresolve
    obtain ⟨target, expression, ht, hf⟩ := exists_target ha hu hnest (hn.trimmed htrim) hresolve
    have hsplit : split (a ++ (u ++ b)) = (a ++ (u ++ b), []) := split_path ha hb hu hn.escapesQuote
    rw [← htrim] at ht
    exact ofText_write hd (whole_path hb hu) hsplit (htrim.symm ▸ hu.ne_nil) ht hf
  refine ⟨fun v hv he => hvalue v (Expression.resolve_of_evaluate hpath hv he), fun g hg htest => ?_⟩
  rw [hpath] at hg
  obtain ⟨v, hv, hresolve⟩ := Expression.exists_of_test hg htest
  obtain ⟨q, d, hq, hone, hdv, -⟩ := hvalue v hresolve
  exact ⟨q, d, hq, hone, hdv ▸ hv⟩

/-! A key between quotes, with parentheses around the path and without. -/

def keyedParameter : Parameter := .ofMap [("a".toList, .map [("k".toList, .ofNat 7)])]

theorem pathSource_quotedKey : PathSource "a['k']".toList "a.k".toList := by
  have hsegment : Segment "['k']".toList ".k".toList :=
    .key .nil .nil (.inl rfl) (.plain (by decide) (by decide) .nil) (.plain (by decide) .nil)
  have hname : IsName "a".toList := ⟨by decide, by decide⟩
  exact .bare hname (.cons .nil hsegment .nil)

/-- A path that is nested no deeper than allowed is read as one. -/
theorem parse_pathSource {u : Text} (hu : PathSource u path) (hn : nestingOk u = true) :
    Expression.parse u = .ok ⟨u, .path path⟩ := by
  have hparse : Expr.parse u = .ok (.path path) :=
    parse_eq_path_iff.mpr ⟨hn, [], u, [], by simp, .nil, .nil, hu⟩
  exact Expression.parse_eq_ok_iff.mpr ⟨hparse, hu.trimmed.trim_eq.symm⟩

/-- In parentheses it has the value that it has in a test. -/
theorem quotedKey_resolves :
    Expression.parse "(a['k'])".toList = .ok ⟨"(a['k'])".toList, .path "a.k".toList⟩ ∧
    (∃ q d, ofText ⟨keyedParameter, {}⟩ []
        (Placeholder.write Config.default.placeholder "(a['k'])".toList) = .ok q ∧
      q.parameters = [d] ∧ d.value = .ofNat 7 ∧ q.text = ['?']) ∧
    ∃ q d, ofText ⟨keyedParameter, {}⟩ []
        (Placeholder.write Config.default.placeholder "(a['k'])".toList) = .ok q ∧
      q.parameters = [d] ∧ d.value ≠ .null := by
  have hparse : Expression.parse "(a['k'])".toList = .ok ⟨"(a['k'])".toList, .path "a.k".toList⟩ :=
    parse_pathSource (.parenthesized .nil .nil pathSource_quotedKey) (by decide)
  have hnotated : Notated "(a['k'])".toList := .inr ⟨rfl, .inl (by decide)⟩
  obtain ⟨hvalue, htest⟩ := ofText_path (s := ⟨keyedParameter, {}⟩) [] rfl hparse rfl hnotated
  exact ⟨hparse, hvalue (.ofNat 7) (by simp [Value.ofNat]) rfl,
    htest ⟨"(a['k']) != null".toList, .compare .ne (.path "a.k".toList) (.literal .null)⟩ rfl rfl⟩

/-- Without parentheses the quotes are taken for a part of the key. -/
theorem quotedKey_unresolved :
    Expression.parse "a['k']".toList = .ok ⟨"a['k']".toList, .path "a.k".toList⟩ ∧
    (⟨"a['k']".toList, .path "a.k".toList⟩ : Expression).evaluate (Bindings.resolve? [] keyedParameter) =
      .ok (.ofNat 7) ∧
    (ofText ⟨keyedParameter, {}⟩ [] (Placeholder.write Config.default.placeholder "a['k']".toList)).map
      (fun _ => ()) = .error (.fault (Fault.bindingResolution "a['k']")) :=
  ⟨parse_pathSource pathSource_quotedKey (by decide), rfl, by decide +kernel⟩

end Query

end DynamicSql
