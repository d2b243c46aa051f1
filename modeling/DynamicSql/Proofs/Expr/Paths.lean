import DynamicSql.Proofs.Expr.Acceptance

/-!
Texts that are nothing but a path. Main statement: they are a name and its segments, with blanks between and
any number of parentheses around, and every such text is read as the path in its usual form.
-/
namespace DynamicSql.Expr

open Peg (Place Reading Reads Stretch)
open Grammar

def Spacing (s : Text) : Prop := ∀ c ∈ s, isSpace c = true

theorem Spacing.nil : Spacing [] := List.forall_mem_nil _

theorem Spacing.append {a b : Text} (ha : Spacing a) (hb : Spacing b) : Spacing (a ++ b) :=
  List.forall_mem_append.mpr ⟨ha, hb⟩

theorem isBlank_of_isSpace {c : Char} (h : isSpace c = true) : Text.isBlank c = true := by
  rcases isSpace_cases h with rfl | rfl | rfl | rfl <;> decide

theorem Spacing.isBlank {a : Text} (ha : Spacing a) : ∀ c ∈ a, Text.isBlank c = true :=
  fun c hc => isBlank_of_isSpace (ha c hc)

/-- A segment as it is written, and in its usual form. -/
inductive Segment : Text → Text → Prop
  | name {b w} (hb : Spacing b) (hw : IsIdentifier w) : Segment ('.' :: (b ++ w)) ('.' :: w)
  | number {b w} (hb : Spacing b) (hw : Digits w) : Segment ('.' :: (b ++ w)) ('[' :: (w ++ [']']))
  | index {b c w} (hb : Spacing b) (hc : Spacing c) (hw : Digits w) :
      Segment ('[' :: (b ++ (w ++ (c ++ [']'])))) ('[' :: (w ++ [']']))
  | key {b c q w s} (hb : Spacing b) (hc : Spacing c) (hq : q = '\x27' ∨ q = '\x22') (hw : Inner q w)
      (hs : Unescapes w s) : Segment ('[' :: (b ++ (q :: (w ++ q :: (c ++ [']']))))) ('.' :: s)

/-- What follows the first name of a path, as it is written and in its usual form. -/
inductive Trail : Text → Text → Prop
  | nil : Trail [] []
  | cons {a w v r p} (ha : Spacing a) (hs : Segment w v) (h : Trail r p) : Trail (a ++ (w ++ r)) (v ++ p)

/-- A text that is a path, or a path in parentheses, and the path in its usual form. -/
inductive PathSource : Text → Text → Prop
  | bare {w r p} (hw : IsName w) (h : Trail r p) : PathSource (w ++ r) (w ++ p)
  | parenthesized {a u b p} (ha : Spacing a) (hb : Spacing b) (h : PathSource u p) :
      PathSource ('(' :: (a ++ (u ++ (b ++ [')'])))) p

variable {reference : Reading Rule} {w r p path : Text} {a b : Text} {t : Tree} {ts us : List Tree} {q : Char}

/-! What is read as a path is written as one. -/

theorem reads_blanks : Reads (fun w ts => Spacing w ∧ ts = []) (Peg.read reference spaces) := reads_spaces

theorem reads_mark (c : Char) : Reads (fun w ts => w = [c] ∧ ts = []) (Peg.read reference (char c)) :=
  .one fun d hd => by simpa using hd

theorem reads_ident :
    Reads (fun w ts => IsIdentifier w ∧ ∃ start, ts = [.leaf .ident start w]) (Peg.read reference ident) := by
  have hletter : Reads (fun w ts => (∃ c, w = [c] ∧ isLetter c = true) ∧ ts = [])
      (Peg.read reference (.one isLetter)) := .one fun c hc => ⟨⟨c, rfl, hc⟩, rfl⟩
  have hone : Reads (fun w ts => (∃ c, w = [c] ∧ isNameChar c = true) ∧ ts = [])
      (Peg.read reference (.one isNameChar)) := .one fun c hc => ⟨⟨c, rfl, hc⟩, rfl⟩
  have hchars : Reads (fun w ts => (∀ c ∈ w, isNameChar c = true) ∧ ts = [])
      (Peg.read reference (.star (.one isNameChar))) := by
    refine hone.star ⟨by simp, rfl⟩ ?_
    rintro _ _ v _ ⟨⟨c, rfl, hc⟩, rfl⟩ ⟨hv, rfl⟩
    exact ⟨List.forall_mem_cons.mpr ⟨hc, hv⟩, rfl⟩
  have hall : Reads (fun w _ => IsIdentifier w)
      (Peg.read reference (.seq (.one isLetter) (.star (.one isNameChar)))) := by
    refine hletter.seq hchars ?_
    rintro _ _ v _ ⟨⟨c, rfl, hc⟩, -⟩ ⟨hv, -⟩
    exact ⟨hc, hv⟩
  exact hall.token fun _ _ start hw => ⟨hw, start, rfl⟩

theorem reads_index :
    Reads (fun w ts => Digits w ∧ ∃ start, ts = [.leaf .index start w]) (Peg.read reference index) :=
  reads_digits.token fun _ _ start hw => ⟨hw.1, start, rfl⟩

def Quoted (w : Text) (ts : List Tree) : Prop :=
  ∃ q v start start', (q = '\x27' ∨ q = '\x22') ∧ Inner q v ∧ w = q :: (v ++ [q]) ∧
    ts = [.node .string start [.leaf .inner start' v]]

theorem reads_quotedKey : Reads Quoted (Peg.read reference string) := by
  have hquoted : ∀ q, q = '\x27' ∨ q = '\x22' → Reads (fun w ts => ∃ q v start, (q = '\x27' ∨ q = '\x22') ∧
      Inner q v ∧ w = q :: (v ++ [q]) ∧ ts = [.leaf .inner start v]) (Peg.read reference (quoted q)) := by
    intro q hq
    have hrest : Reads (fun w ts => ∃ v start, Inner q v ∧ w = v ++ [q] ∧ ts = [.leaf .inner start v])
        (Peg.read reference (.seq (inner q) (char q))) := by
      refine reads_inner.seq (reads_mark q) ?_
      rintro v _ _ _ ⟨hv, start, rfl⟩ ⟨rfl, rfl⟩
      exact ⟨v, start, hv, rfl, rfl⟩
    refine (reads_mark q).seq hrest ?_
    rintro _ _ _ _ ⟨rfl, rfl⟩ ⟨v, start, hv, rfl, rfl⟩
    exact ⟨q, v, start, hq, hv, rfl, rfl⟩
  refine ((hquoted _ (.inl rfl)).alt (hquoted _ (.inr rfl))).node ?_
  rintro _ _ start ⟨q, v, start', hq, hv, rfl, rfl⟩
  exact ⟨q, v, start, start', hq, hv, rfl, rfl⟩

/-- Trees that put a segment in its usual form before others. -/
def Puts (v : Text) (ts : List Tree) : Prop := ∀ us p, Segments us p → Segments (ts ++ us) (v ++ p)

theorem puts_name (start : Nat) (w : Text) : Puts ('.' :: w) [.leaf .ident start w] := fun _ _ h => .name h

theorem puts_index (start : Nat) (w : Text) : Puts ('[' :: (w ++ [']'])) [.leaf .index start w] := by
  intro us p h
  simpa using Segments.index h

theorem puts_key {start start' : Nat} {v : Text} (h : Unescapes w v) :
    Puts ('.' :: v) [.node .string start [.leaf .inner start' w]] := fun _ _ hp => .key h hp

/-- Two parts with blanks between. -/
theorem reads_apart {first second : Grammar} {S T U : Text → List Tree → Prop}
    (h : Reads S (Peg.read reference first)) (h' : Reads T (Peg.read reference second))
    (hu : ∀ w ts b v us, S w ts → Spacing b → T v us → U (w ++ (b ++ v)) (ts ++ us)) :
    Reads U (Peg.read reference (next first second)) := by
  have hbehind : Reads (fun w ts => ∃ b v, w = b ++ v ∧ Spacing b ∧ T v ts)
      (Peg.read reference (.seq spaces second)) := by
    refine reads_blanks.seq h' ?_
    rintro b _ v us ⟨hb, rfl⟩ hv
    exact ⟨b, v, rfl, hb, hv⟩
  refine h.seq hbehind ?_
  rintro w ts _ us hw ⟨b, v, rfl, hb, hv⟩
  exact hu w ts b v us hw hb hv

/-- Whatever is read as a segment is one, and has trees that write it. -/
theorem reads_segment :
    Reads (fun w ts => ∃ v, Segment w v ∧ Puts v ts) (Peg.read reference pathSegment) := by
  have hdot : Reads (fun w ts => ∃ v, Segment w v ∧ Puts v ts)
      (Peg.read reference (next (char '.') (.alt ident index))) := by
    have hpart : Reads (fun w ts => (IsIdentifier w ∧ ∃ start, ts = [.leaf .ident start w]) ∨
        (Digits w ∧ ∃ start, ts = [.leaf .index start w])) (Peg.read reference (.alt ident index)) :=
      (reads_ident.imp fun _ _ => .inl).alt (reads_index.imp fun _ _ => .inr)
    refine reads_apart (reads_mark '.') hpart ?_
    rintro _ _ b v _ ⟨rfl, rfl⟩ hb (⟨hv, start, rfl⟩ | ⟨hv, start, rfl⟩)
    · exact ⟨_, by simpa using Segment.name hb hv, puts_name start v⟩
    · exact ⟨_, by simpa using Segment.number hb hv, puts_index start v⟩
  have hbracket : Reads (fun w ts => ∃ v, Segment w v ∧ Puts v ts)
      (Peg.read reference (next (char '[') (next (.alt index string) (char ']')))) := by
    have hpart : Reads (fun w ts => (Digits w ∧ ∃ start, ts = [.leaf .index start w]) ∨ Quoted w ts)
        (Peg.read reference (.alt index string)) :=
      (reads_index.imp fun _ _ => .inl).alt (reads_quotedKey.imp fun _ _ => .inr)
    have hclosed : Reads (fun w ts => ∃ v c, w = v ++ (c ++ [']']) ∧ Spacing c ∧
        ((Digits v ∧ ∃ start, ts = [.leaf .index start v]) ∨ Quoted v ts))
        (Peg.read reference (next (.alt index string) (char ']'))) := by
      refine reads_apart hpart (reads_mark ']') ?_
      rintro v ts c _ _ hv hc ⟨rfl, rfl⟩
      exact ⟨v, c, rfl, hc, by simpa using hv⟩
    refine reads_apart (reads_mark '[') hclosed ?_
    rintro _ _ b _ _ ⟨rfl, rfl⟩ hb ⟨v, c, rfl, hc, (⟨hv, start, rfl⟩ | ⟨q, v, start, start', hq, hv, rfl, rfl⟩)⟩
    · exact ⟨_, .index hb hc hv, puts_index start v⟩
    · obtain ⟨s, hs⟩ := hv.exists_unescapes
      exact ⟨_, by simpa using Segment.key hb hc hq hv hs, puts_key hs⟩
  exact hdot.alt hbracket

/-- Segments as they are written, the blanks after them, and their trees. -/
def Followed (w : Text) (ts : List Tree) : Prop :=
  ∃ r b p, w = r ++ b ∧ Spacing b ∧ Trail r p ∧ Segments ts p

theorem reads_followed : Reads Followed (Peg.read reference segments) := by
  have hturn : Reads (fun w ts => ∃ a v u, w = a ++ v ∧ Spacing a ∧ Segment v u ∧ Puts u ts)
      (Peg.read reference (.seq spaces pathSegment)) := by
    refine reads_blanks.seq reads_segment ?_
    rintro a _ v ts ⟨ha, rfl⟩ ⟨u, hv, hts⟩
    exact ⟨a, v, u, rfl, ha, hv, hts⟩
  have hturns : Reads (fun w ts => ∃ p, Trail w p ∧ Segments ts p)
      (Peg.read reference (.star (.seq spaces pathSegment))) := by
    refine hturn.star ⟨[], .nil, .nil⟩ ?_
    rintro _ ts r us ⟨a, v, u, rfl, ha, hv, hts⟩ ⟨p, hr, hus⟩
    exact ⟨u ++ p, by simpa using Trail.cons ha hv hr, hts us p hus⟩
  have hsome : Reads (fun w ts => (w = [] ∧ ts = []) ∨ ∃ v r u p, w = v ++ r ∧ Segment v u ∧ Trail r p ∧
      Segments ts (u ++ p)) (Peg.read reference (many pathSegment)) := by
    refine Reads.alt (reads_segment.seq hturns ?_) (.empty (.inl ⟨rfl, rfl⟩))
    rintro v ts r us ⟨u, hv, hts⟩ ⟨p, hr, hus⟩
    exact .inr ⟨v, r, u, p, rfl, hv, hr, hts us p hus⟩
  refine reads_blanks.seq hsome ?_
  rintro a _ w ts ⟨ha, rfl⟩ (⟨rfl, rfl⟩ | ⟨v, r, u, p, rfl, hv, hr, hts⟩)
  · exact ⟨[], a, [], by simp, ha, .nil, .nil⟩
  · exact ⟨a ++ (v ++ r), [], u ++ p, by simp, .nil, .cons ha hv hr, hts⟩

def Nonblank (p : Place) : Prop := ∀ c ∈ p.rest.head?, isSpace c = false

theorem nonblank_skip (p : Place) : Nonblank (skip true p) := by
  intro c hc
  have hnot := List.head?_dropWhile_not isWhitespace p.rest
  rw [show (skip true p).rest = p.rest.dropWhile isWhitespace from rfl] at hc
  rw [Option.mem_def.mp hc] at hnot
  rw [← isWhitespace_eq]
  simpa using hnot

theorem skip_nonblank {p : Place} (h : Nonblank p) : skip true p = p := by
  obtain ⟨k, s⟩ := p
  cases s with
  | nil => rfl
  | cons c s =>
    have hc : isWhitespace c = false := by
      rw [isWhitespace_eq]
      exact h c rfl
    simp [skip, hc]

/-- Wherever one tree is read that denotes a path, the path stands there, and blanks after it. -/
def Alone (reading : Reading Rule) : Prop :=
  ∀ p q t, reading p = some (q, [t]) → Nonblank p → ∀ path, Denotes t (.path path) →
    ∃ u b, Stretch p (u ++ b) q ∧ Spacing b ∧ PathSource u path

def Treeful (w : Text) (ts : List Tree) : Prop := ts = [] → w = []

/-- Only a path denotes one; every other node hands on what is in it. -/
theorem Denotes.of_path {rule : Rule} {start : Nat} (hr : rule ≠ .path)
    (h : Denotes (.node rule start ts) (.path path)) : ∃ t, ts = [t] ∧ Denotes t (.path path) := by
  cases h with
  | path => exact absurd rfl hr
  | layer _ h => exact ⟨_, rfl, h⟩
  | primary h => exact ⟨_, rfl, h⟩

section

variable {operand body tail : Grammar} {rule : Rule}

/-- A node around a path by itself adds no text. -/
theorem Alone.node (hr : rule ≠ .path) (h : Alone (Peg.read reference body)) :
    Alone (Peg.read reference (.node rule body)) := by
  intro p q t hp hblank path hd
  rw [Peg.read_node, Option.map_eq_some_iff] at hp
  obtain ⟨⟨stop, parts⟩, hparts, heq⟩ := hp
  cases heq
  obtain ⟨t, rfl, ht⟩ := hd.of_path hr
  exact h p stop t hparts hblank path ht

/-- A turn that leaves a tree makes the repetition leave one as soon as it passes anything. -/
theorem treeful_many (h : Reads (fun _ ts => ts ≠ []) (Peg.read reference body)) :
    Reads Treeful (Peg.read reference (many body)) := by
  have hturn : Reads (fun _ ts => ts ≠ []) (Peg.read reference (.seq spaces body)) := by
    refine reads_blanks.seq h ?_
    rintro _ _ _ us ⟨-, rfl⟩ hus
    exact hus
  have hturns : Reads (fun _ _ => True) (Peg.read reference (.star (.seq spaces body))) :=
    hturn.star trivial fun _ _ _ _ _ _ => trivial
  refine Reads.alt (h.seq hturns ?_) (.empty fun _ => rfl)
  rintro w ts v us hts - hnil
  exact absurd (List.append_eq_nil_iff.mp hnil).1 hts

/-- An operand, and then nothing that leaves a tree. -/
theorem Alone.next (hone : Reads (fun _ ts => ts ≠ []) (Peg.read reference operand))
    (h : Alone (Peg.read reference operand)) (htail : Reads Treeful (Peg.read reference tail)) :
    Alone (Peg.read reference (Grammar.next operand tail)) := by
  intro p q t hp hblank path hd
  obtain ⟨p₁, ts, others, hoperand, hbehind, heq⟩ := Peg.read_seq_eq_some_iff.mp hp
  obtain ⟨p₂, blanks, us, hspaces, hus, rfl⟩ := Peg.read_seq_eq_some_iff.mp hbehind
  obtain ⟨c, hc, hcs, rfl⟩ := reads_blanks _ _ _ hspaces
  obtain ⟨-, -, hts⟩ := hone _ _ _ hoperand
  obtain ⟨rfl, rfl⟩ : ts = [t] ∧ us = [] := by
    cases ts with
    | nil => exact absurd rfl hts
    | cons x ts => simpa [eq_comm, and_assoc] using heq
  obtain ⟨v, hv, hnil⟩ := htail _ _ _ hus
  obtain rfl := hnil rfl
  obtain rfl := hv.eq_of_nil
  obtain ⟨u, b, hstretch, hb, hu⟩ := h p p₁ t hoperand hblank path hd
  exact ⟨u, b ++ c, by simpa using hstretch.append hc, hb.append hcs, hu⟩

/-- Operators, of which there are none where a path stands, before an operand. -/
theorem Alone.prefixed (hpass : Peg.Passing reference)
    (hop : Reads (fun _ ts => ts ≠ []) (Peg.read reference body))
    (hone : Reads (fun _ ts => ts ≠ []) (Peg.read reference operand)) (h : Alone (Peg.read reference operand)) :
    Alone (Peg.read reference (Grammar.next (many body) operand)) := by
  intro p q t hp hblank path hd
  obtain ⟨p₁, ops, others, hops, hbehind, heq⟩ := Peg.read_seq_eq_some_iff.mp hp
  rw [read_behind_spaces hpass] at hbehind
  obtain ⟨-, -, hts⟩ := hone _ _ _ hbehind
  obtain ⟨rfl, rfl⟩ : ops = [] ∧ others = [t] := by
    rcases List.append_eq_singleton_iff.mp heq.symm with h | ⟨-, rfl⟩
    · exact h
    · exact absurd rfl hts
  obtain ⟨v, hv, hnil⟩ := treeful_many hop _ _ _ hops
  obtain rfl := hnil rfl
  obtain rfl := hv.eq_of_nil
  rw [skip_nonblank hblank] at hbehind
  exact h p₁ q t hbehind hblank path hd

theorem treeful_optional (h : Reads (fun _ ts => ts ≠ []) (Peg.read reference body)) :
    Reads Treeful (Peg.read reference (Peg.optional body)) :=
  .alt (h.imp fun _ _ hne heq => absurd heq hne) (.empty fun _ => rfl)

end

theorem Denotes.ne_leaf {rule : Rule} {start : Nat} (h : Denotes t (.path path)) : t ≠ .leaf rule start w := by
  rintro rfl
  cases h

/-- No literal is a path. -/
theorem not_denotes_string {start start' : Nat} {v : Text} :
    ¬ Denotes (.node .string start [.leaf .inner start' v]) (.path path) := by
  intro h
  obtain ⟨_, heq, ht⟩ := h.of_path (by decide)
  cases heq
  exact ht.ne_leaf rfl

theorem Alone.token {rule : Rule} {body : Grammar} : Alone (Peg.read reference (.token rule body)) := by
  intro p q t hp _ path hd
  rw [Peg.read_token, Option.map_eq_some_iff] at hp
  obtain ⟨_, -, heq⟩ := hp
  cases heq
  exact absurd rfl hd.ne_leaf

theorem alone_string : Alone (Peg.read reference string) := by
  intro p q t hp _ path hd
  obtain ⟨_, _, _, _, _, _, -, -, -, heq⟩ := reads_quotedKey p q [t] hp
  cases heq
  exact absurd hd not_denotes_string

theorem Alone.alt {first second : Grammar} (h : Alone (Peg.read reference first))
    (h' : Alone (Peg.read reference second)) : Alone (Peg.read reference (.alt first second)) := by
  intro p q t hp
  rw [read_alt, Option.or_eq_some_iff] at hp
  rcases hp with hp | ⟨-, hp⟩
  · exact h p q t hp
  · exact h' p q t hp

section

variable (hpass : Peg.Passing reference)
include hpass

/-- In parentheses a path is by itself as it is without them. -/
theorem alone_parentheses (h : Alone reference) :
    Alone (Peg.read reference (next (char '(') (next .again (char ')')))) := by
  intro p q t hp _ path hd
  obtain ⟨p₁, _, _, hopen, hbehind, heq⟩ := Peg.read_seq_eq_some_iff.mp hp
  obtain ⟨_, hstretch, rfl, rfl⟩ := reads_mark _ _ _ _ hopen
  obtain ⟨p₂, _, _, hbefore, hinside, rfl⟩ := Peg.read_seq_eq_some_iff.mp hbehind
  obtain ⟨a, ha, has, rfl⟩ := reads_blanks _ _ _ hbefore
  obtain ⟨p₃, trees, _, hagain, hlast, rfl⟩ := Peg.read_seq_eq_some_iff.mp hinside
  obtain ⟨p₄, _, _, hafter, hclose, rfl⟩ := Peg.read_seq_eq_some_iff.mp hlast
  obtain ⟨c, hc, hcs, rfl⟩ := reads_blanks _ _ _ hafter
  obtain ⟨_, hend, rfl, rfl⟩ := reads_mark _ _ _ _ hclose
  obtain rfl : trees = [t] := by simpa [eq_comm] using heq
  have hblank : Nonblank p₂ := by
    rw [read_spaces hpass] at hbefore
    cases hbefore
    exact nonblank_skip p₁
  obtain ⟨u, b, hu, hb, hpath⟩ := h p₂ p₃ t hagain hblank path hd
  refine ⟨'(' :: (a ++ (u ++ (b ++ c ++ [')']))), [], ?_, .nil, .parenthesized has (hb.append hcs) hpath⟩
  simpa using hstretch.append (ha.append (hu.append (hc.append hend)))

/-- A name stands where a path is read, as no literal is read there. -/
theorem alone_path {p q : Place} (hnull : Peg.read reference nullLiteral p = none)
    (hbool : Peg.read reference boolLiteral p = none) (hp : Peg.read reference Grammar.path p = some (q, [t]))
    (hblank : Nonblank p) (hd : Denotes t (.path path)) :
    ∃ u b, Stretch p (u ++ b) q ∧ Spacing b ∧ PathSource u path := by
  obtain ⟨k, s⟩ := p
  obtain ⟨w, r, rfl, hw, hr⟩ := Shape.exists_word s
  have hliteral : ∀ {rule ws}, (∀ v ∈ ws, v.toList ∈ reserved) →
      Peg.read reference (.token rule (wholeWord ws)) ⟨k, w ++ r⟩ = none → wholly ws w = false := by
    intro rule ws hws hnone
    rw [Peg.read_token, Option.map_eq_none_iff, read_wholeWord hws hw hr] at hnone
    simpa using hnone
  have hn := hliteral (by decide) hnull
  have hb := hliteral (by decide) hbool
  rw [read_path hpass hw hr hblank] at hp
  split at hp
  · cases hp
  · next hkeyword =>
    split at hp
    · next hid =>
      have hname : IsName w := by
        refine ⟨hid, fun hin => ?_⟩
        rcases reserved_cases hin with h | h | h
        · exact hkeyword h
        · simp [hn] at h
        · simp [hb] at h
      obtain ⟨⟨stop, parts⟩, hsegments, heq⟩ := Option.map_eq_some_iff.mp hp
      cases heq
      obtain ⟨_, hstretch, v, b, tail, rfl, hspacing, htrail, hparts⟩ := reads_followed _ _ _ hsegments
      obtain rfl : path = w ++ tail := by
        cases hd with
        | path h => rw [← h.eq_pathTail, hparts.eq_pathTail]
      have hword : Stretch ⟨k, w ++ r⟩ w ⟨k + w.length, r⟩ := ⟨rfl, rfl⟩
      exact ⟨w ++ v, b, by simpa using hword.append hstretch, hspacing, .bare hname htrail⟩
    · cases hp

theorem alone_primary (h : Alone reference) : Alone (Peg.read reference primary) := by
  intro p q t hp hblank path hd
  have hothers : Alone (Peg.read reference (Peg.choice [float, int, string,
      next (char '(') (next .again (char ')'))])) :=
    Alone.token.alt (Alone.token.alt (alone_string.alt (alone_parentheses hpass h)))
  have hassoc : Peg.read reference primary p = (Peg.read reference nullLiteral p).or
      ((Peg.read reference boolLiteral p).or ((Peg.read reference (Peg.choice [float, int, string,
        next (char '(') (next .again (char ')'))]) p).or (Peg.read reference Grammar.path p))) := by
    simp only [primary, Peg.choice, read_alt, Option.or_assoc]
  -- The last choice is read only where the two words before it are not: that tells them from names.
  rw [hassoc, Option.or_eq_some_iff, Option.or_eq_some_iff, Option.or_eq_some_iff] at hp
  rcases hp with hp | ⟨hnull, hp | ⟨hbool, hp | ⟨-, hp⟩⟩⟩
  · exact Alone.token p q t hp hblank path hd
  · exact Alone.token p q t hp hblank path hd
  · exact hothers p q t hp hblank path hd
  · exact alone_path hpass hnull hbool hp hblank hd

/-- The layers between the operands and the whole. -/
theorem alone_orExpr (hparts : Reads (Part .orExpr) reference) (h : Alone reference) :
    Alone (Peg.read reference orExpr) := by
  have hpart : ∀ {part : Rule} {g : Grammar}, Reads (Part part) (Peg.read reference g) →
      Reads (fun _ ts => ts ≠ []) (Peg.read reference g) := by
    intro part g hg
    refine hg.imp ?_
    rintro _ _ ⟨_, _, rfl, -⟩
    exact List.cons_ne_nil _ _
  have htoken : ∀ {rule : Rule} {g : Grammar}, quiet g = true →
      Reads (fun _ ts => ts ≠ []) (Peg.read reference (.token rule g)) :=
    fun hg => (reads_quiet _ hg).token fun _ _ _ _ => List.cons_ne_nil _ _
  have hturn : ∀ {op : Rule} {g operand : Grammar}, quiet g = true →
      Reads (fun _ ts => ts ≠ []) (Peg.read reference operand) →
      Reads (fun _ ts => ts ≠ []) (Peg.read reference (next (.token op g) operand)) := by
    intro op g operand hg ho
    refine reads_next (htoken hg) ho ?_
    intro ts us hts _ hnil
    exact hts (List.append_eq_nil_iff.mp hnil).1
  have hone : Reads (fun _ ts => ts ≠ []) (Peg.read reference primary) := by
    refine (reads_primary hparts).imp ?_
    rintro _ _ ⟨_, rfl, -⟩
    exact List.cons_ne_nil _ _
  have hu := hpart (reads_unary hparts)
  have ha := hpart (reads_additive hparts)
  have hc := hpart (reads_comparison hparts)
  have hn := hpart (reads_notExpr hparts)
  have hd := hpart (reads_andExpr hparts)
  have hunary : Alone (Peg.read reference unary) :=
    .node (by decide) (.prefixed hpass (htoken (by decide)) hone (alone_primary hpass h))
  have hadditive : Alone (Peg.read reference additive) :=
    .node (by decide) (.next hu hunary (treeful_many (hturn (by decide) hu)))
  have hcomparison : Alone (Peg.read reference comparison) :=
    .node (by decide) (.next ha hadditive (treeful_optional (hturn (by decide) ha)))
  have hnot : Alone (Peg.read reference notExpr) :=
    .node (by decide) (.prefixed hpass (htoken (by decide)) hc hcomparison)
  have hand : Alone (Peg.read reference andExpr) :=
    .node (by decide) (.next hn hnot (treeful_many (hturn (by decide) hn)))
  exact .node (by decide) (.next hd hand (treeful_many (hturn (by decide) hd)))

end

/-- At every level, what denotes a path is a path in blanks and parentheses. -/
theorem alone_level (level : Nat) : Alone (Peg.readLevel orExpr level) := by
  induction level with
  | zero =>
    intro p q t hp
    cases hp
  | succ level ih => exact alone_orExpr (Peg.readLevel_passing rfl level) (reads_level level) ih

/-- A text that is a path has blanks around it and nothing else. -/
theorem exists_pathSource {s : Text} (h : parse s = .ok (.path path)) : ∃ before w after,
    s = before ++ (w ++ after) ∧ Spacing before ∧ Spacing after ∧ PathSource w path := by
  obtain ⟨tree, hderived, -, hdenotes⟩ := parse_eq_ok_iff_denotes.mp h
  have hwithin : nestsWithin s.length 0 .outside s = true := nestsWithin_of_length _ s (by omega)
  obtain ⟨last, start, more, hread⟩ := (derived_iff_read hwithin).mp hderived
  rw [expression, Peg.read_node, Option.map_eq_some_iff] at hread
  obtain ⟨⟨stop, parts⟩, hparts, heq⟩ := hread
  simp only [Prod.mk.injEq, List.cons.injEq, Peg.Tree.node.injEq, and_true, true_and] at heq
  obtain ⟨rfl, -, rfl⟩ := heq
  have hpass : Peg.Passing (Peg.readLevel orExpr (s.length + 1)) := Peg.readLevel_passing rfl _
  rw [read_behind_spaces hpass] at hparts
  obtain ⟨q, trees, _, hagain, hbehind, hall⟩ := Peg.read_seq_eq_some_iff.mp hparts
  obtain ⟨e, _, leaves, hafter, hended, rfl⟩ := Peg.read_seq_eq_some_iff.mp hbehind
  obtain ⟨before, hb, hbefore, -⟩ := reads_blanks _ _ _ (read_spaces hpass ⟨0, s⟩)
  obtain ⟨after, ha, hspacing, rfl⟩ := reads_blanks _ _ _ hafter
  obtain ⟨hrest, rfl, rfl⟩ := read_ended hended
  obtain ⟨_, _, i, us, rfl, -⟩ := enclosed_level _ _ _ _ hagain
  cases hall
  obtain ⟨u, b, hu, hblanks, hpath⟩ := alone_level _ _ _ _ hagain (nonblank_skip _) path hdenotes
  refine ⟨before, u, b ++ after, ?_, hbefore, hblanks.append hspacing, hpath⟩
  simpa [hrest] using ((hb.append hu).append ha).rest

end DynamicSql.Expr
