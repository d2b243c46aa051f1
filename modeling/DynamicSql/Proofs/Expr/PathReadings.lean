import DynamicSql.Proofs.Expr.Paths

/-!
What is written as a path is read as one. Main statement: a text is the path in its usual form exactly where it
is written as that path, with blanks around it, and its parentheses are not too many.
-/
namespace DynamicSql.Expr

open Peg (Place Reading Reads Stretch)
open Grammar

variable {reference : Reading Rule} {first second body : Grammar} {rule : Rule} {S T U : List Tree → Prop}
  {a b r s t u v w z path : Text} {c q : Char}

/-- Wherever the first text begins, the reading leaves the second, with trees as told. -/
def Leaves (reading : Reading Rule) (s r : Text) (S : List Tree → Prop) : Prop :=
  ∀ k, ∃ l ts, reading ⟨k, s⟩ = some (⟨l, r⟩, ts) ∧ S ts

def Refuses (reading : Reading Rule) (s : Text) : Prop := ∀ k, reading ⟨k, s⟩ = none

/-! One lemma for each way to put rules together. -/

theorem Leaves.imp {reading : Reading Rule} (h : Leaves reading s r S) (hst : ∀ ts, S ts → T ts) :
    Leaves reading s r T := by
  intro k
  obtain ⟨l, ts, hk, hs⟩ := h k
  exact ⟨l, ts, hk, hst ts hs⟩

theorem Leaves.seq (h : Leaves (Peg.read reference first) s r S) (h' : Leaves (Peg.read reference second) r t T)
    (hu : ∀ ts us, S ts → T us → U (ts ++ us)) : Leaves (Peg.read reference (.seq first second)) s t U := by
  intro k
  obtain ⟨l, ts, hl, hts⟩ := h k
  obtain ⟨m, us, hm, hus⟩ := h' l
  exact ⟨m, ts ++ us, Peg.read_seq_eq_some_iff.mpr ⟨_, _, _, hl, hm, rfl⟩, hu ts us hts hus⟩

theorem Refuses.seq (h : Refuses (Peg.read reference first) s) :
    Refuses (Peg.read reference (.seq first second)) s := by
  intro k
  rw [Peg.read_seq, h k]

theorem Leaves.alt (h : Leaves (Peg.read reference first) s r S) :
    Leaves (Peg.read reference (.alt first second)) s r S := by
  intro k
  obtain ⟨l, ts, hk, hs⟩ := h k
  exact ⟨l, ts, by rw [read_alt, hk, Option.some_or], hs⟩

theorem Refuses.alt (h : Refuses (Peg.read reference first) s) (h' : Leaves (Peg.read reference second) s r S) :
    Leaves (Peg.read reference (.alt first second)) s r S := by
  intro k
  obtain ⟨l, ts, hk, hs⟩ := h' k
  exact ⟨l, ts, by rw [read_alt, h k, Option.none_or, hk], hs⟩

theorem Refuses.both (h : Refuses (Peg.read reference first) s) (h' : Refuses (Peg.read reference second) s) :
    Refuses (Peg.read reference (.alt first second)) s := by
  intro k
  rw [read_alt, h k, h' k]
  rfl

theorem Refuses.token (h : Refuses (Peg.read reference body) s) :
    Refuses (Peg.read reference (.token rule body)) s := by
  intro k
  rw [Peg.read_token, h k]
  rfl

theorem Refuses.node (h : Refuses (Peg.read reference body) s) :
    Refuses (Peg.read reference (.node rule body)) s := by
  intro k
  rw [Peg.read_node, h k]
  rfl

theorem Leaves.node (h : Leaves (Peg.read reference body) s r S)
    (ht : ∀ start ts, S ts → T [.node rule start ts]) :
    Leaves (Peg.read reference (.node rule body)) s r T := by
  intro k
  obtain ⟨l, ts, hk, hs⟩ := h k
  exact ⟨l, [.node rule k ts], by rw [Peg.read_node, hk]; rfl, ht k ts hs⟩

theorem leaves_char (c : Char) (r : Text) : Leaves (Peg.read reference (char c)) (c :: r) r (· = []) := by
  intro k
  exact ⟨k + 1, [], by simp [char, read_one], rfl⟩

theorem refuses_one {accepts : Char → Bool} (h : ∀ c ∈ s.head?, accepts c = false) :
    Refuses (Peg.read reference (.one accepts)) s := fun _ => read_one_eq_none h

theorem refuses_char (h : c ∉ s.head?) : Refuses (Peg.read reference (char c)) s := by
  refine refuses_one fun d hd => ?_
  simp only [decide_eq_false_iff_not]
  rintro rfl
  exact h hd

section

variable (hpass : Peg.Passing reference)
include hpass

/-- Behind skipped blanks a grammar is read from the first character that is none. -/
theorem read_behind (body : Grammar) (k : Nat) (s : Text) : ∃ l, Peg.read reference (.seq spaces body) ⟨k, s⟩ =
    Peg.read reference body ⟨l, s.dropWhile isSpace⟩ := by
  have hsame : isWhitespace = isSpace := funext isWhitespace_eq
  rw [read_behind_spaces hpass, skip, hsame]
  exact ⟨_, rfl⟩

theorem Leaves.behind (h : Leaves (Peg.read reference body) (s.dropWhile isSpace) r S) :
    Leaves (Peg.read reference (.seq spaces body)) s r S := by
  intro k
  obtain ⟨l, hl⟩ := read_behind hpass body k s
  rw [hl]
  exact h l

theorem Refuses.behind (h : Refuses (Peg.read reference body) (s.dropWhile isSpace)) :
    Refuses (Peg.read reference (.seq spaces body)) s := by
  intro k
  obtain ⟨l, hl⟩ := read_behind hpass body k s
  rw [hl]
  exact h l

theorem Leaves.next (h : Leaves (Peg.read reference first) s r S)
    (h' : Leaves (Peg.read reference second) (r.dropWhile isSpace) t T)
    (hu : ∀ ts us, S ts → T us → U (ts ++ us)) :
    Leaves (Peg.read reference (Grammar.next first second)) s t U :=
  h.seq (h'.behind hpass) hu

/-- Where the body refuses, a repetition ends with no trees. -/
theorem Refuses.star (hb : body.passes = true) (h : Refuses (Peg.read reference body) s) :
    Leaves (Peg.read reference (.star body)) s s (· = []) := by
  intro k
  refine ⟨k, [], ?_, rfl⟩
  rw [Peg.read_star (Peg.read_passing hpass _ hb), h k]

/-- One turn is read, and the rest of the repetition from where it leads. -/
theorem Leaves.star (hb : body.passes = true) (h : Leaves (Peg.read reference body) s r S)
    (h' : Leaves (Peg.read reference (.star body)) r t T) (hu : ∀ ts us, S ts → T us → U (ts ++ us)) :
    Leaves (Peg.read reference (.star body)) s t U := by
  intro k
  obtain ⟨l, ts, hl, hts⟩ := h k
  obtain ⟨m, us, hm, hus⟩ := h' l
  refine ⟨m, ts ++ us, ?_, hu ts us hts hus⟩
  rw [Peg.read_star (Peg.read_passing hpass _ hb), hl]
  simp only
  rw [hm]
  rfl

omit hpass in
theorem Refuses.optional (h : Refuses (Peg.read reference body) s) :
    Leaves (Peg.read reference (Peg.optional body)) s s (· = []) :=
  h.alt fun k => ⟨k, [], rfl, rfl⟩

omit hpass in
theorem Refuses.many (h : Refuses (Peg.read reference body) s) :
    Leaves (Peg.read reference (many body)) s s (· = []) :=
  h.seq.optional

end

/-! The tokens of a path. -/

/-- Blanks are dropped up to the first character that is none. -/
theorem Spacing.dropWhile (ha : Spacing a) (hs : ∀ c ∈ s.head?, isSpace c = false) :
    (a ++ s).dropWhile isSpace = s := Text.dropWhile_append_eq ha hs

theorem Spacing.endsWord (ha : Spacing a) (hs : EndsWord s) : EndsWord (a ++ s) := by
  cases a with
  | nil => exact hs
  | cons c a =>
    rintro _ ⟨⟩
    by_contra hc
    have hblank := ha c List.mem_cons_self
    simp [isSpace_of_isNameChar (Bool.not_eq_false _ ▸ hc)] at hblank

theorem dropWhile_of_head (hs : ∀ c ∈ s.head?, isSpace c = false) : s.dropWhile isSpace = s :=
  Spacing.nil.dropWhile hs

theorem EndsWord.isDigit (h : EndsWord s) : ∀ c ∈ s.head?, c.isDigit = false := by
  intro c hc
  by_contra hd
  have := h c hc
  simp [isNameChar_of_isDigit (Bool.not_eq_false _ ▸ hd)] at this

theorem IsIdentifier.head_isLetter (h : IsIdentifier w) (r : Text) :
    ∃ c v, w ++ r = c :: v ∧ isLetter c = true := by
  cases w with
  | nil => exact h.elim
  | cons c v => exact ⟨c, v ++ r, rfl, h.1⟩

/-- A name begins with a letter, so with no other character. -/
theorem IsIdentifier.head_ne (h : IsIdentifier w) (r : Text) (hc : isLetter c = false) :
    c ∉ (w ++ r).head? := by
  obtain ⟨d, v, heq, hd⟩ := h.head_isLetter r
  rw [heq]
  rintro ⟨⟩
  simp [hc] at hd

theorem Digits.head_isSpace (h : Digits w) (r : Text) : ∀ c ∈ (w ++ r).head?, isSpace c = false := by
  obtain ⟨c, v, rfl, hc⟩ := h.head_isDigit
  rintro _ ⟨⟩
  exact isSpace_of_isNameChar (isNameChar_of_isDigit hc)

theorem Digits.head_isLetter (h : Digits w) (r : Text) : ∀ c ∈ (w ++ r).head?, isLetter c = false := by
  obtain ⟨c, v, rfl, hc⟩ := h.head_isDigit
  rintro _ ⟨⟩
  by_contra hl
  simp [not_isDigit_of_isLetter (Bool.not_eq_false _ ▸ hl)] at hc

theorem IsIdentifier.head_isSpace (h : IsIdentifier w) (r : Text) :
    ∀ c ∈ (w ++ r).head?, isSpace c = false := by
  obtain ⟨c, v, heq, hc⟩ := h.head_isLetter r
  rw [heq]
  rintro _ ⟨⟩
  exact isSpace_of_isNameChar (isNameChar_of_isLetter hc)

inductive Closes : Text → Prop
  | ended : Closes []
  | parenthesis {s : Text} : Closes (')' :: s)

theorem Closes.head (hz : Closes z) : ∀ c ∈ z.head?, c = ')' := by
  cases hz <;> rintro _ ⟨⟩
  rfl

theorem Closes.endsWord (hz : Closes z) : EndsWord z := fun c hc => by
  rw [hz.head c hc]
  rfl

theorem Closes.isSpace (hz : Closes z) : ∀ c ∈ z.head?, isSpace c = false := fun c hc => by
  rw [hz.head c hc]
  rfl

theorem Closes.refuses_char (hz : Closes z) (hc : c ≠ ')') : Refuses (Peg.read reference (char c)) z :=
  Expr.refuses_char fun hin => hc (hz.head c hin)

/-- Neither the end nor a closing parenthesis begins a segment. -/
theorem Closes.refuses_segment (hz : Closes z) : Refuses (Peg.read reference pathSegment) z :=
  (hz.refuses_char (by decide)).seq.both (hz.refuses_char (by decide)).seq

theorem Segment.head (h : Segment w v) (r : Text) :
    EndsWord (w ++ r) ∧ ∀ c ∈ (w ++ r).head?, Grammar.isSpace c = false := by
  cases h <;> constructor <;> (rintro _ ⟨⟩; rfl)

/-- A segment begins with a point or a bracket, either of which ends a word. -/
theorem Trail.endsWord (h : Trail r t) (hs : EndsWord s) : EndsWord (r ++ s) := by
  cases h with
  | nil => exact hs
  | cons ha hw _ =>
    rw [List.append_assoc, List.append_assoc]
    exact ha.endsWord (hw.head _).1

section

variable (hpass : Peg.Passing reference)
include hpass

/-- A name is read up to where its word ends. -/
theorem leaves_ident (hw : IsIdentifier w) (hr : EndsWord r) :
    Leaves (Peg.read reference ident) (w ++ r) r (fun ts => ∃ start, ts = [.leaf .ident start w]) := by
  intro k
  refine ⟨k + w.length, [.leaf .ident k w], ?_, k, rfl⟩
  rw [ident, Peg.read_token, read_identifier hpass hw.isNameChar hr, if_pos hw]
  simp

theorem leaves_index (hw : Digits w) (hr : EndsWord r) :
    Leaves (Peg.read reference index) (w ++ r) r (fun ts => ∃ start, ts = [.leaf .index start w]) := by
  intro k
  refine ⟨k + w.length, [.leaf .index k w], ?_, k, rfl⟩
  obtain ⟨c, v, rfl, hc⟩ := hw.head_isDigit
  have hv : ∀ d ∈ v, d.isDigit = true := fun d hd => hw.isDigit d (List.mem_cons_of_mem _ hd)
  rw [index, Peg.read_token, digits, Peg.atLeastOnce, Peg.read_seq, read_one]
  simp only [List.cons_append, hc, if_true]
  rw [read_star_one hpass, Text.takeWhile_append_eq hv hr.isDigit, Text.dropWhile_append_eq hv hr.isDigit]
  simp [Nat.add_assoc, Nat.add_comm 1]

/-- What may stand between quotes is read up to the quote that closes. -/
theorem read_inner (hw : Inner q w) (hb : q ≠ '\\') (k : Nat) (r : Text) :
    Peg.read reference (.star (innerBody q)) ⟨k, w ++ q :: r⟩ = some (⟨k + w.length, q :: r⟩, []) := by
  induction hw generalizing k with
  | nil =>
    rw [List.nil_append, Peg.read_star (Peg.read_passing hpass _ rfl), read_innerBody_quote hb]
    rfl
  | @escaped c w _ ih =>
    rw [List.cons_append, List.cons_append, read_inner_some hpass (read_innerBody_escape c), ih]
    simp [Nat.add_assoc, Nat.add_comm 2]
  | @plain c w hq hne _ ih =>
    rw [List.cons_append, read_inner_some hpass (read_innerBody_plain hq hne), ih]
    simp [Nat.add_assoc, Nat.add_comm 1]

theorem leaves_quoted (hw : Inner q w) (hb : q ≠ '\\') (r : Text) :
    Leaves (Peg.read reference (quoted q)) (q :: (w ++ q :: r)) r
      (fun ts => ∃ start, ts = [.leaf .inner start w]) := by
  have hinner : Leaves (Peg.read reference (inner q)) (w ++ q :: r) (q :: r)
      (fun ts => ∃ start, ts = [.leaf .inner start w]) := by
    intro k
    refine ⟨k + w.length, [.leaf .inner k w], ?_, k, rfl⟩
    have hbody : inner q = .token .inner (.star (innerBody q)) := rfl
    rw [hbody, Peg.read_token, read_inner hpass hw hb]
    simp
  have hclosed : Leaves (Peg.read reference (.seq (inner q) (char q))) (w ++ q :: r) r
      (fun ts => ∃ start, ts = [.leaf .inner start w]) := by
    refine hinner.seq (leaves_char q r) ?_
    rintro _ _ ⟨start, rfl⟩ rfl
    exact ⟨start, rfl⟩
  refine (leaves_char q _).seq hclosed ?_
  rintro _ _ rfl h
  exact h

theorem leaves_string (hq : q = '\x27' ∨ q = '\x22') (hw : Inner q w) (r : Text) :
    Leaves (Peg.read reference string) (q :: (w ++ q :: r)) r
      (fun ts => ∃ start start', ts = [.node .string start [.leaf .inner start' w]]) := by
  have hquoted : Leaves (Peg.read reference (.alt (quoted '\x27') (quoted '\x22'))) (q :: (w ++ q :: r)) r
      (fun ts => ∃ start, ts = [.leaf .inner start w]) := by
    rcases hq with rfl | rfl
    · exact (leaves_quoted hpass hw (by decide) r).alt
    · exact (refuses_char (by simp)).seq.alt (leaves_quoted hpass hw (by decide) r)
  refine hquoted.node ?_
  rintro start _ ⟨start', rfl⟩
  exact ⟨start, start', rfl⟩

/-! Segments, and paths. -/

theorem leaves_dot (hb : Spacing b) (hs : ∀ c ∈ s.head?, isSpace c = false)
    (h : Leaves (Peg.read reference (.alt ident index)) s r S) :
    Leaves (Peg.read reference pathSegment) ('.' :: (b ++ s)) r S := by
  refine (Leaves.next hpass (leaves_char '.' _) (T := S) ?_ ?_).alt
  · rw [hb.dropWhile hs]
    exact h
  · rintro _ _ rfl h
    exact h

theorem leaves_bracket (hb : Spacing b) (hs : ∀ c ∈ s.head?, isSpace c = false) (ha : Spacing a)
    (h : Leaves (Peg.read reference (.alt index string)) s (a ++ ']' :: r) S) :
    Leaves (Peg.read reference pathSegment) ('[' :: (b ++ s)) r S := by
  have hinside : Leaves (Peg.read reference (next (.alt index string) (char ']'))) s r S := by
    refine h.next hpass (T := (· = [])) ?_ ?_
    · rw [ha.dropWhile (by simp [isSpace])]
      exact leaves_char ']' r
    · rintro ts _ hts rfl
      simpa using hts
  refine Refuses.alt (refuses_char (by simp)).seq (Leaves.next hpass (leaves_char '[' _) (T := S) ?_ ?_)
  · rw [hb.dropWhile hs]
    exact hinside
  · rintro _ _ rfl h
    exact h

omit hpass in
theorem refuses_ident (h : ∀ c ∈ s.head?, isLetter c = false) : Refuses (Peg.read reference ident) s :=
  (refuses_one h).seq.token

omit hpass in
theorem refuses_digits (h : ∀ c ∈ s.head?, c.isDigit = false) : Refuses (Peg.read reference digits) s :=
  (refuses_one h).seq

omit hpass in
theorem refuses_string (h : ∀ c ∈ s.head?, c ≠ '\x27' ∧ c ≠ '\x22') :
    Refuses (Peg.read reference string) s := by
  have hquoted : ∀ q, q = '\x27' ∨ q = '\x22' → Refuses (Peg.read reference (quoted q)) s := by
    rintro q hq
    refine (refuses_char fun hin => ?_).seq
    obtain ⟨hsingle, hdouble⟩ := h q hin
    exact hq.elim hsingle hdouble
  exact ((hquoted _ (.inl rfl)).both (hquoted _ (.inr rfl))).node

/-- Each way to write a segment is read in full and writes the same segment again. -/
theorem leaves_segment (h : Segment w v) (hr : EndsWord r) :
    Leaves (Peg.read reference pathSegment) (w ++ r) r (Puts v) := by
  have hclose : EndsWord (']' :: r) := by
    rintro _ ⟨⟩
    rfl
  cases h with
  | @name b w hb hw =>
    have hname : Leaves (Peg.read reference (.alt ident index)) (w ++ r) r (Puts ('.' :: w)) := by
      refine (leaves_ident hpass hw hr).alt.imp ?_
      rintro _ ⟨start, rfl⟩
      exact puts_name start w
    simpa using leaves_dot hpass hb (hw.head_isSpace r) hname
  | @number b w hb hw =>
    have hnumber : Leaves (Peg.read reference (.alt ident index)) (w ++ r) r (Puts ('[' :: (w ++ [']']))) := by
      refine (refuses_ident (hw.head_isLetter r)).alt ((leaves_index hpass hw hr).imp ?_)
      rintro _ ⟨start, rfl⟩
      exact puts_index start w
    simpa using leaves_dot hpass hb (hw.head_isSpace r) hnumber
  | @index b a w hb ha hw =>
    have hindex : Leaves (Peg.read reference (.alt index string)) (w ++ (a ++ ']' :: r)) (a ++ ']' :: r)
        (Puts ('[' :: (w ++ [']']))) := by
      refine (leaves_index hpass hw (ha.endsWord hclose)).alt.imp ?_
      rintro _ ⟨start, rfl⟩
      exact puts_index start w
    simpa using leaves_bracket hpass hb (hw.head_isSpace _) ha hindex
  | @key b a q w v hb ha hq hw hv =>
    have hkey : Leaves (Peg.read reference (.alt index string)) (q :: (w ++ q :: (a ++ ']' :: r)))
        (a ++ ']' :: r) (Puts ('.' :: v)) := by
      have hdigit : ∀ c ∈ (q :: (w ++ q :: (a ++ ']' :: r))).head?, c.isDigit = false := by
        rintro _ ⟨⟩
        rcases hq with rfl | rfl <;> rfl
      refine (refuses_digits hdigit).token.alt ((leaves_string hpass hq hw _).imp ?_)
      rintro _ ⟨start, start', rfl⟩
      exact puts_key hv
    have hspace : ∀ c ∈ (q :: (w ++ q :: (a ++ ']' :: r))).head?, isSpace c = false := by
      rintro _ ⟨⟩
      rcases hq with rfl | rfl <;> rfl
    simpa using leaves_bracket hpass hb hspace ha hkey

/-- Segments are read up to where the path is closed; the blanks behind them are left. -/
theorem leaves_turns (h : Trail r t) (hb : Spacing b) (hz : Closes z) :
    Leaves (Peg.read reference (.star (.seq spaces pathSegment))) (r ++ (b ++ z)) (b ++ z)
      (fun ts => Segments ts t) := by
  induction h with
  | nil =>
    refine (Refuses.star hpass rfl (Refuses.behind hpass ?_)).imp ?_
    · rw [List.nil_append, hb.dropWhile hz.isSpace]
      exact hz.refuses_segment
    · rintro _ rfl
      exact .nil
  | @cons a w v r t ha hw h ih =>
    have hend : EndsWord (r ++ (b ++ z)) := h.endsWord (hb.endsWord hz.endsWord)
    have hturn : Leaves (Peg.read reference (.seq spaces pathSegment)) (a ++ (w ++ (r ++ (b ++ z))))
        (r ++ (b ++ z)) (Puts v) := by
      refine Leaves.behind hpass ?_
      rw [ha.dropWhile (hw.head _).2]
      exact leaves_segment hpass hw hend
    rw [List.append_assoc, List.append_assoc]
    exact hturn.star hpass rfl ih fun ts us hts hus => hts us t hus

/-- Blanks after a path are passed, or left, as it has segments or not. -/
theorem leaves_segments (h : Trail r t) (hb : Spacing b) (hz : Closes z) : ∃ s, s.dropWhile isSpace = z ∧
    Leaves (Peg.read reference segments) (r ++ (b ++ z)) s (fun ts => Segments ts t) := by
  have hdrop : (b ++ z).dropWhile isSpace = z := hb.dropWhile hz.isSpace
  have hdrop' : z.dropWhile isSpace = z := dropWhile_of_head hz.isSpace
  cases h with
  | nil =>
    refine ⟨z, hdrop', (Leaves.behind hpass ?_ : Leaves (Peg.read reference segments) _ _ (· = [])).imp ?_⟩
    · rw [List.nil_append, hdrop]
      exact hz.refuses_segment.many
    · rintro _ rfl
      exact .nil
  | @cons a w v r t ha hw h =>
    have hend : EndsWord (r ++ (b ++ z)) := h.endsWord (hb.endsWord hz.endsWord)
    refine ⟨b ++ z, hdrop, Leaves.behind hpass ?_⟩
    rw [List.append_assoc, List.append_assoc, ha.dropWhile (hw.head _).2]
    refine (Leaves.seq (leaves_segment hpass hw hend) (leaves_turns hpass h hb hz) ?_).alt
    exact fun ts us hts hus => hts us t hus

omit hpass in
/-- A name is no reserved word, not even where it begins with one. -/
theorem refuses_wholeWord {ws : List String} (hws : ∀ v ∈ ws, v.toList ∈ reserved) (hw : IsName w)
    (hr : EndsWord r) : Refuses (Peg.read reference (wholeWord ws)) (w ++ r) := by
  intro k
  rw [read_wholeWord hws hw.identifier.isNameChar hr, wholly_eq_false hws hw]
  rfl

/-- A path is read in full and denotes itself. -/
theorem leaves_path (hw : IsName w) (h : Trail r t) (hb : Spacing b) (hz : Closes z) :
    ∃ s, s.dropWhile isSpace = z ∧ Leaves (Peg.read reference Grammar.path) (w ++ (r ++ (b ++ z))) s
      (fun ts => ∃ tree, ts = [tree] ∧ Denotes tree (.path (w ++ t))) := by
  obtain ⟨s, hs, hsegments⟩ := leaves_segments hpass h hb hz
  refine ⟨s, hs, fun k => ?_⟩
  obtain ⟨l, ts, hl, hts⟩ := hsegments (k + w.length)
  refine ⟨l, [.node .path k (.leaf .ident k w :: ts)], ?_, _, rfl, .path hts⟩
  have hend : EndsWord (r ++ (b ++ z)) := h.endsWord (hb.endsWord hz.endsWord)
  rw [read_path hpass hw.identifier.isNameChar hend (hw.identifier.head_isSpace _),
    wholly_eq_false (by decide) hw, if_pos hw.identifier, hl]
  rfl

end

inductive Opens : Text → Prop
  | name {w r : Text} (hw : IsName w) (hr : EndsWord r) : Opens (w ++ r)
  | parenthesis {r : Text} : Opens ('(' :: r)

theorem Opens.isSpace (h : Opens s) : ∀ c ∈ s.head?, isSpace c = false := by
  cases h with
  | name hw _ => exact hw.identifier.head_isSpace _
  | parenthesis =>
    rintro _ ⟨⟩
    rfl

/-- The tree of a layer that is a path and nothing more. -/
def Stands (part : Rule) (path : Text) (ts : List Tree) : Prop :=
  ∃ start us, ts = [.node part start us] ∧ Denotes (.node part start us) (.path path)

section

variable (hpass : Peg.Passing reference)
include hpass

theorem leaves_primary (hw : IsName w) (h : Trail r t) (hb : Spacing b) (hz : Closes z) :
    ∃ s, s.dropWhile isSpace = z ∧ Leaves (Peg.read reference primary) (w ++ (r ++ (b ++ z))) s
      (fun ts => ∃ tree, ts = [tree] ∧ Denotes tree (.path (w ++ t))) := by
  obtain ⟨s, hs, hpath⟩ := leaves_path hpass hw h hb hz
  have hend : EndsWord (r ++ (b ++ z)) := h.endsWord (hb.endsWord hz.endsWord)
  have hnull : Refuses (Peg.read reference nullLiteral) (w ++ (r ++ (b ++ z))) :=
    (refuses_wholeWord (by decide) hw hend).token
  have hbool : Refuses (Peg.read reference boolLiteral) (w ++ (r ++ (b ++ z))) :=
    (refuses_wholeWord (by decide) hw hend).token
  have hother : ∀ c, isLetter c = false → c ∉ (w ++ (r ++ (b ++ z))).head? :=
    fun _ => hw.identifier.head_ne _
  have hdigits : Refuses (Peg.read reference digits) (w ++ (r ++ (b ++ z))) := by
    obtain ⟨c, v, heq, hc⟩ := hw.identifier.head_isLetter (r ++ (b ++ z))
    refine refuses_digits ?_
    rw [heq]
    rintro _ ⟨⟩
    exact not_isDigit_of_isLetter hc
  have hstring : Refuses (Peg.read reference string) (w ++ (r ++ (b ++ z))) := by
    refine refuses_string fun d hd => ⟨?_, ?_⟩ <;> (rintro rfl; exact hother _ (by decide) hd)
  have hparentheses : Refuses (Peg.read reference (next (char '(') (next .again (char ')'))))
      (w ++ (r ++ (b ++ z))) := (refuses_char (hother _ (by decide))).seq
  exact ⟨s, hs, hnull.alt (hbool.alt (hdigits.seq.token.alt (hdigits.token.alt (hstring.alt
    (hparentheses.alt hpath)))))⟩

/-- A layer whose operators do not come after its first part. -/
theorem leaves_layer {operand tail : Grammar} {part : Rule} (hl : (rule, part) ∈ layers)
    (h : Leaves (Peg.read reference operand) s r (Stands part path)) (hr : r.dropWhile isSpace = z)
    (ht : Leaves (Peg.read reference tail) z z (· = [])) :
    Leaves (Peg.read reference (.node rule (next operand tail))) s z (Stands rule path) := by
  have hparts : Leaves (Peg.read reference (next operand tail)) s z (Stands part path) := by
    refine h.next hpass (T := (· = [])) ?_ ?_
    · rw [hr]
      exact ht
    · rintro ts _ hts rfl
      simpa using hts
  refine hparts.node ?_
  rintro start _ ⟨start', us, rfl, hd⟩
  exact ⟨start, _, rfl, .layer hl hd⟩

/-- A layer whose operators do not come before its part. -/
theorem leaves_prefixed {operator operand : Grammar} (hs : Opens s)
    (ho : Refuses (Peg.read reference operator) s)
    (h : Leaves (Peg.read reference operand) s r S) :
    Leaves (Peg.read reference (next (many operator) operand)) s r S := by
  refine ho.many.next hpass (T := S) ?_ ?_
  · rw [dropWhile_of_head hs.isSpace]
    exact h
  · rintro _ _ rfl h
    exact h

omit hpass in
/-- A path in parentheses has no sign before it. -/
theorem Opens.refuses_negOp (hs : Opens s) : Refuses (Peg.read reference negOp) s := by
  cases hs with
  | name hw _ => exact (refuses_char (hw.identifier.head_ne _ (by decide))).token
  | parenthesis => exact fun _ => rfl

omit hpass in
theorem Opens.refuses_notOp (hs : Opens s) : Refuses (Peg.read reference notOp) s := by
  cases hs with
  | @name w r hw hr =>
    have hmark : '!' ∉ (w ++ r).head? := hw.identifier.head_ne r (by decide)
    exact ((refuses_char hmark).seq.both (refuses_wholeWord (by decide) hw hr)).token
  | parenthesis => exact fun _ => rfl

omit hpass in
/-- No operator between operands begins where a text ends or parentheses close. -/
theorem Closes.refuses_operators (hz : Closes z) (reference : Reading Rule) :
    Refuses (Peg.read reference Grammar.addOp) z ∧ Refuses (Peg.read reference Grammar.compareOp) z ∧
      Refuses (Peg.read reference andOp) z ∧ Refuses (Peg.read reference orOp) z := by
  cases hz <;> exact ⟨fun _ => rfl, fun _ => rfl, fun _ => rfl, fun _ => rfl⟩

/-- Every layer finds the path as its one operand, with nothing before or behind. -/
theorem leaves_orExpr (hs : Opens s) (hz : Closes z) (hr : r.dropWhile isSpace = z)
    (h : Leaves (Peg.read reference primary) s r (fun ts => ∃ tree, ts = [tree] ∧ Denotes tree (.path path))) :
    Leaves (Peg.read reference orExpr) s z (Stands .orExpr path) := by
  have hstop : z.dropWhile isSpace = z := dropWhile_of_head hz.isSpace
  obtain ⟨hadd, hcompare, handOp, horOp⟩ := hz.refuses_operators reference
  have hunary : Leaves (Peg.read reference unary) s r (Stands .unary path) := by
    refine (leaves_prefixed hpass hs hs.refuses_negOp h).node ?_
    rintro start _ ⟨tree, rfl, hd⟩
    exact ⟨start, _, rfl, .primary hd⟩
  have hadditive : Leaves (Peg.read reference additive) s z (Stands .additive path) :=
    leaves_layer hpass (by decide) hunary hr hadd.seq.many
  have hcomparison : Leaves (Peg.read reference comparison) s z (Stands .comparison path) :=
    leaves_layer hpass (by decide) hadditive hstop hcompare.seq.optional
  have hnot : Leaves (Peg.read reference notExpr) s z (Stands .notExpr path) := by
    refine (leaves_prefixed hpass hs hs.refuses_notOp hcomparison).node ?_
    rintro start _ ⟨start', us, rfl, hd⟩
    exact ⟨start, _, rfl, .layer (by decide) hd⟩
  have hand : Leaves (Peg.read reference andExpr) s z (Stands .andExpr path) :=
    leaves_layer hpass (by decide) hnot hstop handOp.seq.many
  exact leaves_layer hpass (by decide) hand hstop horOp.seq.many

/-- Around what the recursive rule reads there may be parentheses and blanks. -/
theorem leaves_parentheses (ha : Spacing a) (hs : ∀ c ∈ s.head?, isSpace c = false)
    (h : Leaves reference s (')' :: r) S) :
    Leaves (Peg.read reference primary) ('(' :: (a ++ s)) r S := by
  have hagain : Leaves (Peg.read reference .again) s (')' :: r) S := h
  have hinside : Leaves (Peg.read reference (next .again (char ')'))) s r S := by
    refine hagain.next hpass (T := (· = [])) (leaves_char ')' r) ?_
    rintro ts _ hts rfl
    simpa using hts
  have hall : Leaves (Peg.read reference (next (char '(') (next .again (char ')')))) ('(' :: (a ++ s)) r S := by
    refine Leaves.next hpass (leaves_char '(' _) (T := S) ?_ ?_
    · rw [ha.dropWhile hs]
      exact hinside
    · rintro _ _ rfl h
      exact h
  have hnull : Refuses (Peg.read reference nullLiteral) ('(' :: (a ++ s)) := fun _ => rfl
  have hbool : Refuses (Peg.read reference boolLiteral) ('(' :: (a ++ s)) := fun _ => rfl
  have hdigits : Refuses (Peg.read reference digits) ('(' :: (a ++ s)) := fun _ => rfl
  have hstring : Refuses (Peg.read reference string) ('(' :: (a ++ s)) := fun _ => rfl
  exact hnull.alt (hbool.alt (hdigits.seq.token.alt (hdigits.token.alt (hstring.alt hall.alt))))

/-- A source is an operand layer between blanks and the end. -/
theorem leaves_expression (ha : Spacing a) (hs : ∀ c ∈ s.head?, isSpace c = false)
    (h : Leaves reference s [] (Stands .orExpr path)) :
    Leaves (Peg.read reference expression) (a ++ s) []
      (fun ts => ∃ start tree more, ts = [.node .expression start (tree :: more)] ∧ Denotes tree (.path path)) := by
  have hagain : Leaves (Peg.read reference .again) s [] (Stands .orExpr path) := h
  have hended : Leaves (Peg.read reference (.token .ending .ended)) [] [] (fun _ => True) :=
    fun k => ⟨k, _, rfl, trivial⟩
  have hparts : Leaves (Peg.read reference (.seq spaces (next .again (.token .ending .ended)))) (a ++ s) []
      (fun ts => ∃ tree more, ts = tree :: more ∧ Denotes tree (.path path)) := by
    refine Leaves.behind hpass ?_
    rw [ha.dropWhile hs]
    refine hagain.next hpass hended ?_
    rintro _ more ⟨start, us, rfl, hd⟩ -
    exact ⟨_, more, rfl, hd⟩
  refine hparts.node ?_
  rintro start _ ⟨tree, more, rfl, hd⟩
  exact ⟨start, tree, more, rfl, hd⟩

end

theorem PathSource.opens (h : PathSource u path) (hs : EndsWord s) : Opens (u ++ s) := by
  cases h with
  | bare hw h =>
    rw [List.append_assoc]
    exact .name hw (h.endsWord hs)
  | parenthesized => exact .parenthesis

/-- With enough levels: each pair of parentheses around the path takes one more. -/
theorem leaves_pathSource (h : PathSource u path) : ∃ n, ∀ m ≥ n, ∀ b z, Spacing b → Closes z →
    Leaves (Peg.readLevel orExpr m) (u ++ (b ++ z)) z (Stands .orExpr path) := by
  induction h with
  | @bare w r p hw h =>
    refine ⟨1, fun m hm b z hb hz => ?_⟩
    obtain ⟨m, rfl⟩ := Nat.exists_eq_add_of_le' hm
    have hpass : Peg.Passing (Peg.readLevel orExpr m) := Peg.readLevel_passing rfl m
    obtain ⟨s, hs, hprimary⟩ := leaves_primary hpass hw h hb hz
    rw [List.append_assoc]
    exact leaves_orExpr hpass (.name hw (h.endsWord (hb.endsWord hz.endsWord))) hz hs hprimary
  | @parenthesized a u c p ha hc hu ih =>
    obtain ⟨n, hn⟩ := ih
    refine ⟨n + 1, fun m hm b z hb hz => ?_⟩
    obtain ⟨m, rfl⟩ := Nat.exists_eq_add_of_le' (Nat.le_trans (Nat.le_add_left 1 n) hm)
    have hpass : Peg.Passing (Peg.readLevel orExpr m) := Peg.readLevel_passing rfl m
    have hinside := hn m (by omega) c (')' :: (b ++ z)) hc .parenthesis
    have hopens : Opens (u ++ (c ++ ')' :: (b ++ z))) :=
      hu.opens (hc.endsWord (Closes.parenthesis).endsWord)
    have hprimary := leaves_parentheses hpass ha hopens.isSpace hinside
    have htext : '(' :: (a ++ (u ++ (c ++ [')']))) ++ (b ++ z) =
        '(' :: (a ++ (u ++ (c ++ ')' :: (b ++ z)))) := by simp
    rw [htext]
    refine leaves_orExpr hpass .parenthesis hz (hb.dropWhile hz.isSpace) (hprimary.imp ?_)
    rintro _ ⟨start, us, rfl, hd⟩
    exact ⟨_, rfl, hd⟩

/-- However a path is written, the rules derive a tree that denotes it. -/
theorem exists_derived_path (ha : Spacing a) (hb : Spacing b) (h : PathSource u path) :
    ∃ tree, Derived (a ++ (u ++ b)) tree ∧ Denotes tree (.path path) := by
  obtain ⟨n, hn⟩ := leaves_pathSource h
  -- Enough levels for the parentheses of the path, and for every text of this length to nest within.
  obtain ⟨m, hm⟩ : ∃ m, m = n + (a ++ (u ++ b)).length := ⟨_, rfl⟩
  have hwithin : nestsWithin m 0 .outside (a ++ (u ++ b)) = true := nestsWithin_of_length _ _ (by omega)
  have hopens : Opens (u ++ b) := h.opens (by simpa using hb.endsWord Closes.ended.endsWord)
  have hleaves := hn (m + 1) (by omega) b [] hb .ended
  rw [List.append_nil] at hleaves
  obtain ⟨l, _, hread, start, tree, more, rfl, hd⟩ :=
    leaves_expression (Peg.readLevel_passing rfl (m + 1)) ha hopens.isSpace hleaves 0
  exact ⟨tree, (derived_iff_read hwithin).mpr ⟨_, _, _, hread⟩, hd⟩

/-- A text is read as the path that it is written as, and no other text is read as that path. -/
theorem parse_eq_path_iff : parse s = .ok (.path path) ↔ nestingOk s = true ∧
    ∃ a u b, s = a ++ (u ++ b) ∧ Spacing a ∧ Spacing b ∧ PathSource u path := by
  constructor
  · intro h
    obtain ⟨tree, hd, hdepth, -⟩ := parse_eq_ok_iff_denotes.mp h
    exact ⟨(hd.nestsWithin_iff maxNesting).mpr hdepth, exists_pathSource h⟩
  · rintro ⟨hn, a, u, b, rfl, ha, hb, hu⟩
    obtain ⟨tree, hd, hdenotes⟩ := exists_derived_path ha hb hu
    exact parse_eq_ok_iff_denotes.mpr ⟨tree, hd, (hd.nestsWithin_iff maxNesting).mp hn, hdenotes⟩

/-- A path in parentheses is the path that stands in them. -/
theorem parse_inside (ha : Spacing a) (hb : Spacing b) (hv : Spacing v) (hu : PathSource u path)
    (hn : nestingOk (a ++ ('(' :: (b ++ (u ++ (v ++ [')']))) ++ r)) = true) :
    parse (b ++ (u ++ v)) = .ok (.path path) := by
  refine parse_eq_path_iff.mpr ⟨?_, b, u, v, rfl, hb, hv, hu⟩
  have hsame : isWhitespace = isSpace := funext isWhitespace_eq
  have htext : '(' :: (b ++ (u ++ (v ++ [')']))) ++ r = '(' :: (b ++ (u ++ v) ++ ')' :: r) := by simp
  rw [nestingOk, ← nestsWithin_dropWhile, hsame, ha.dropWhile (by simp [isSpace]), htext] at hn
  have hinside : nestsWithin maxNesting 1 .outside (b ++ (u ++ v) ++ ')' :: r) = true := hn
  exact nestsWithin_mono (Nat.zero_le 1) (nestsWithin_left hinside)

end DynamicSql.Expr
