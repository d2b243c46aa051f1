import DynamicSql.Proofs.Expr.Denotation
import DynamicSql.Proofs.Expr.Recognition
import DynamicSql.Expr.Expression

/-!
Which texts are expressions, and which ones. Main statement: a text is an expression exactly where the rules
derive a tree from it, its parentheses nest within the limit and its whole numbers have 64 bits; the expression
is then the one that the tree denotes.
-/
namespace DynamicSql

namespace Expr

open Peg (Reading Reads)
open Grammar

variable {reference : Reading Rule} {w : Text} {t : Tree} {ts us : List Tree} {op part : Rule} {q : Char}
  {α β γ : Type}

mutual

/-- The whole numbers among the literals of a tree; an index of a path is none. -/
def wholeNumbers : Tree → List Text
  | .leaf .int _ w => [w]
  | .leaf _ _ _ => []
  | .node _ _ parts => wholeNumbersOfAll parts

def wholeNumbersOfAll : List Tree → List Text
  | [] => []
  | t :: rest => wholeNumbers t ++ wholeNumbersOfAll rest

end

@[simp] theorem wholeNumbersOfAll_append (ts us : List Tree) :
    wholeNumbersOfAll (ts ++ us) = wholeNumbersOfAll ts ++ wholeNumbersOfAll us := by
  induction ts with
  | nil => rfl
  | cons t ts ih => simp [wholeNumbersOfAll, ih]

def InRange (w : Text) : Prop := value w ≤ Integer.greatest

/-- What the digits write is then an integer of the model. -/
theorem InRange.exists_ofInt? (h : InRange w) : ∃ n, Integer.ofInt? (value w) = some n := by
  cases hn : Integer.ofInt? (value w) with
  | some n => exact ⟨n, rfl⟩
  | none =>
    rw [Integer.ofInt?_eq_none_iff] at hn
    have hpos : 0 ≤ value w := Int.natCast_nonneg _
    simp only [InRange, Integer.greatest, Integer.least] at h hn
    omega

/-- Where all numbers are in range there is a result as told, and nowhere else is there one. -/
def Settles (x : Except ParseError α) (D : α → Prop) (numbers : List Text) : Prop :=
  ((∃ a, x = .ok a ∧ D a) ∧ ∀ w ∈ numbers, InRange w) ∨
    ((∃ error, x = .error error) ∧ ¬ ∀ w ∈ numbers, InRange w)

namespace Settles

variable {x : Except ParseError α} {y : Except ParseError β} {D : α → Prop} {D' : β → Prop} {E : γ → Prop}
  {ws vs : List Text}

theorem ok {a : α} (h : D a) : Settles (.ok a) D [] := .inl ⟨⟨a, rfl, h⟩, by simp⟩

theorem map (h : Settles x D ws) {f : α → β} (hf : ∀ a, D a → D' (f a)) : Settles (x.map f) D' ws := by
  rcases h with ⟨⟨a, rfl, ha⟩, hw⟩ | ⟨⟨error, rfl⟩, hw⟩
  · exact .inl ⟨⟨f a, rfl, hf a ha⟩, hw⟩
  · exact .inr ⟨⟨error, rfl⟩, hw⟩

/-- Two results, one after the other. -/
theorem both (h : Settles x D ws) (h' : Settles y D' vs) {f : α → β → γ}
    (hf : ∀ a b, D a → D' b → E (f a b)) :
    Settles (do let a ← x; let b ← y; return f a b) E (ws ++ vs) := by
  simp only [Settles, List.forall_mem_append]
  rcases h with ⟨⟨a, rfl, ha⟩, hw⟩ | ⟨⟨error, rfl⟩, hw⟩
  · rcases h' with ⟨⟨b, rfl, hb⟩, hv⟩ | ⟨⟨error, rfl⟩, hv⟩
    · exact .inl ⟨⟨f a b, rfl, hf a b ha hb⟩, hw, hv⟩
    · exact .inr ⟨⟨error, rfl⟩, fun hall => hv hall.2⟩
  · exact .inr ⟨⟨error, rfl⟩, fun hall => hw hall.1⟩

end Settles

/-- A tree is read as what it denotes, unless one of its numbers is out of range. -/
def Sense (t : Tree) : Prop := Settles (ofTree t) (Denotes t) (wholeNumbers t)

def Part (rule : Rule) (_ : Text) (ts : List Tree) : Prop :=
  ∃ start us, ts = [.node rule start us] ∧ Sense (.node rule start us)

/-- An operator makes no sense by itself. -/
theorem Sense.ne_operator (h : Sense t) (start : Nat) (w : Text) :
    t ≠ .leaf .notOp start w ∧ t ≠ .leaf .negOp start w := by
  constructor <;>
  · rintro rfl
    rcases h with ⟨⟨e, -, he⟩, -⟩ | ⟨-, hw⟩
    · cases he
    · simp [wholeNumbers] at hw

/-! Literals and paths. -/

theorem reads_digits : Reads (fun w ts => Digits w ∧ ts = []) (Peg.read reference digits) := by
  have hone : Reads (fun w ts => (∃ c, w = [c] ∧ c.isDigit = true) ∧ ts = [])
      (Peg.read reference (.one Char.isDigit)) := .one fun c hc => ⟨⟨c, rfl, hc⟩, rfl⟩
  have hstar : Reads (fun w ts => (∀ c ∈ w, c.isDigit = true) ∧ ts = [])
      (Peg.read reference (.star (.one Char.isDigit))) := by
    refine hone.star ⟨by simp, rfl⟩ ?_
    rintro _ _ v _ ⟨⟨c, rfl, hc⟩, rfl⟩ ⟨hv, rfl⟩
    exact ⟨List.forall_mem_cons.mpr ⟨hc, hv⟩, rfl⟩
  refine hone.seq hstar ?_
  rintro _ _ v _ ⟨⟨c, rfl, hc⟩, rfl⟩ ⟨hv, rfl⟩
  exact ⟨⟨by simp, List.forall_mem_cons.mpr ⟨hc, hv⟩⟩, rfl⟩

theorem reads_words (ws : List String) :
    Reads (fun w ts => (∃ v ∈ ws, v.toList = w) ∧ ts = []) (Peg.read reference (Peg.words ws)) := by
  induction ws with
  | nil => exact .one fun c hc => by simp at hc
  | cons v others ih =>
    have hv : Reads (fun w ts => (∃ u ∈ v :: others, u.toList = w) ∧ ts = [])
        (Peg.read reference (.word v.toList)) := .word ⟨⟨v, by simp, rfl⟩, rfl⟩
    cases others with
    | nil => exact hv
    | cons other others =>
      refine hv.alt (ih.imp ?_)
      rintro w ts ⟨⟨u, hu, hw⟩, hts⟩
      exact ⟨⟨u, List.mem_cons_of_mem _ hu, hw⟩, hts⟩

theorem reads_wholeWord (ws : List String) :
    Reads (fun w ts => (∃ v ∈ ws, v.toList = w) ∧ ts = []) (Peg.read reference (wholeWord ws)) := by
  have hend : Reads (fun w ts => w = [] ∧ ts = []) (Peg.read reference wordEnd) := .unless ⟨rfl, rfl⟩
  refine (reads_words ws).seq hend ?_
  rintro w _ _ _ ⟨hw, rfl⟩ ⟨rfl, rfl⟩
  exact ⟨by simpa using hw, rfl⟩

/-- The words of a table, with what they stand for. -/
theorem reads_listed {table : List (String × α)} {ws : List String} {g : Grammar}
    (h : Reads (fun w ts => (∃ v ∈ ws, v.toList = w) ∧ ts = []) (Peg.read reference g))
    (hws : ∀ v ∈ ws, v ∈ table.map Prod.fst) :
    Reads (fun w _ => ∃ x ∈ table, x.1.toList = w) (Peg.read reference g) := by
  refine h.imp ?_
  rintro _ _ ⟨⟨v, hv, rfl⟩, -⟩
  obtain ⟨x, hx, rfl⟩ := List.mem_map.mp (hws v hv)
  exact ⟨x, hx, rfl⟩

theorem sense_null : Reads (fun _ ts => ∃ t, ts = [t] ∧ Sense t) (Peg.read reference nullLiteral) :=
  (reads_wholeWord ["null"]).token fun _ _ _ _ => ⟨_, rfl, .ok .null⟩

theorem sense_bool : Reads (fun _ ts => ∃ t, ts = [t] ∧ Sense t) (Peg.read reference boolLiteral) := by
  refine (reads_wholeWord ["true", "false"]).token ?_
  rintro w _ start ⟨⟨v, hv, rfl⟩, rfl⟩
  refine ⟨_, rfl, ?_⟩
  simp only [List.mem_cons, List.not_mem_nil, or_false] at hv
  rcases hv with rfl | rfl
  · exact .ok .true
  · exact .ok .false

/-- Digits beyond 64 bits are read as well; the number is refused when the expression is built. -/
theorem sense_int : Reads (fun _ ts => ∃ t, ts = [t] ∧ Sense t) (Peg.read reference int) := by
  refine reads_digits.token fun w _ start hw => ⟨_, rfl, ?_⟩
  by_cases hrange : InRange w
  · obtain ⟨n, hn⟩ := hrange.exists_ofInt?
    have hof : ofTree (.leaf .int start w) = .ok (.literal (.int n)) := by
      rw [ofTree, hw.1.readInt?_eq, hn]
    exact .inl ⟨⟨_, hof, .int hw.1 (Integer.ofInt?_eq_some_iff.mp hn)⟩, by simpa [wholeNumbers] using hrange⟩
  · have hn : Integer.ofInt? (value w) = none :=
      Integer.ofInt?_eq_none_iff.mpr (.inr (by simpa [InRange] using hrange))
    have hof : ofTree (.leaf .int start w) = .error (.badNumber w) := by
      rw [ofTree, hw.1.readInt?_eq, hn]
    exact .inr ⟨⟨_, hof⟩, by simpa [wholeNumbers] using hrange⟩

theorem sense_float : Reads (fun _ ts => ∃ t, ts = [t] ∧ Sense t) (Peg.read reference float) := by
  have hpoint : Reads (fun w ts => w = ['.'] ∧ ts = []) (Peg.read reference (char '.')) :=
    .one fun c hc => by simpa using hc
  have hfraction : Reads (fun w ts => (∃ b, Digits b ∧ w = '.' :: b) ∧ ts = [])
      (Peg.read reference (.seq (char '.') digits)) := by
    refine hpoint.seq reads_digits ?_
    rintro _ _ b _ ⟨rfl, rfl⟩ ⟨hb, rfl⟩
    exact ⟨⟨b, hb, rfl⟩, rfl⟩
  have hall : Reads (fun w _ => ∃ a b, Digits a ∧ Digits b ∧ w = a ++ '.' :: b)
      (Peg.read reference (.seq digits (.seq (char '.') digits))) := by
    refine reads_digits.seq hfraction ?_
    rintro a _ _ _ ⟨ha, rfl⟩ ⟨⟨b, hb, rfl⟩, rfl⟩
    exact ⟨a, b, ha, hb, rfl⟩
  refine hall.token ?_
  rintro _ _ start ⟨a, b, ha, hb, rfl⟩
  have hd : Denotes (.leaf .float start (a ++ '.' :: b)) _ := .float ha hb
  exact ⟨_, rfl, .inl ⟨⟨_, hd.ofTree_eq, hd⟩, by simp [wholeNumbers]⟩⟩

/-- Whatever may stand between quotes has a text. -/
theorem Inner.exists_unescapes (h : Inner q w) : ∃ s, Unescapes w s := by
  induction h with
  | nil => exact ⟨[], .nil⟩
  | @escaped c w _ ih =>
    obtain ⟨s, hs⟩ := ih
    exact ⟨c :: s, .escaped hs⟩
  | @plain c w _ hb _ ih =>
    obtain ⟨s, hs⟩ := ih
    exact ⟨c :: s, .plain hb hs⟩

/-- A quoted text leaves one tree, with what stands between the quotes. -/
theorem reads_string : Reads (fun _ ts => ∃ start start' w s,
    ts = [.node .string start [.leaf .inner start' w]] ∧
    Unescapes w s) (Peg.read reference string) := by
  have hquoted : ∀ q, Reads (fun _ ts => ∃ start w s, ts = [.leaf .inner start w] ∧ Unescapes w s)
      (Peg.read reference (quoted q)) := by
    intro q
    have hquote : Reads (fun _ ts => ts = []) (Peg.read reference (char q)) := .one fun _ _ => rfl
    have hrest : Reads (fun _ ts => ∃ start w s, ts = [.leaf .inner start w] ∧ Unescapes w s)
        (Peg.read reference (.seq (inner q) (char q))) := by
      refine reads_inner.seq hquote ?_
      rintro w _ _ _ ⟨hw, start, rfl⟩ rfl
      obtain ⟨s, hs⟩ := hw.exists_unescapes
      exact ⟨start, w, s, rfl, hs⟩
    refine hquote.seq hrest ?_
    rintro _ _ _ _ rfl h
    exact h
  refine ((hquoted _).alt (hquoted _)).node ?_
  rintro _ _ start ⟨start', w, s, rfl, hs⟩
  exact ⟨start, start', w, s, rfl, hs⟩

theorem sense_string : Reads (fun _ ts => ∃ t, ts = [t] ∧ Sense t) (Peg.read reference string) := by
  refine reads_string.imp ?_
  rintro _ _ ⟨start, start', w, s, rfl, hs⟩
  have hd : Denotes (.node .string start [.leaf .inner start' w]) _ := .string hs
  exact ⟨_, rfl, .inl ⟨⟨_, hd.ofTree_eq, hd⟩, by simp [wholeNumbers, wholeNumbersOfAll]⟩⟩

theorem Segments.append {p p' : Text} (h : Segments ts p) (h' : Segments us p') :
    Segments (ts ++ us) (p ++ p') := by
  induction h with
  | nil => exact h'
  | name _ ih => simpa using Segments.name ih
  | index _ ih => simpa using Segments.index ih
  | key hs _ ih => simpa using Segments.key hs ih

/-- The numbers in brackets are no literals. -/
theorem Segments.wholeNumbersOfAll_eq {p : Text} (h : Segments ts p) : wholeNumbersOfAll ts = [] := by
  induction h with
  | nil => rfl
  | name _ ih | index _ ih | key _ _ ih => simpa [wholeNumbersOfAll, wholeNumbers] using ih

/-- The trees of two parts, whatever the blanks between them. -/
theorem reads_next {first second : Grammar} {A B C : List Tree → Prop}
    (h : Reads (fun _ ts => A ts) (Peg.read reference first))
    (h' : Reads (fun _ ts => B ts) (Peg.read reference second)) (hc : ∀ ts us, A ts → B us → C (ts ++ us)) :
    Reads (fun _ ts => C ts) (Peg.read reference (next first second)) := by
  have hbehind : Reads (fun _ ts => B ts) (Peg.read reference (.seq spaces second)) := by
    refine reads_spaces.seq h' ?_
    rintro _ _ _ us ⟨-, rfl⟩ hb
    exact hb
  exact h.seq hbehind fun _ ts _ us ha hb => hc ts us ha hb

theorem reads_many {body : Grammar} {A B : List Tree → Prop}
    (h : Reads (fun _ ts => A ts) (Peg.read reference body))
    (hnil : B []) (hcons : ∀ ts us, A ts → B us → B (ts ++ us)) :
    Reads (fun _ ts => B ts) (Peg.read reference (many body)) := by
  have hbehind : Reads (fun _ ts => A ts) (Peg.read reference (.seq spaces body)) := by
    refine reads_spaces.seq h ?_
    rintro _ _ _ us ⟨-, rfl⟩ ha
    exact ha
  have hstar : Reads (fun _ ts => B ts) (Peg.read reference (.star (.seq spaces body))) :=
    hbehind.star hnil fun _ ts _ us ha hb => hcons ts us ha hb
  have hsome : Reads (fun _ ts => B ts) (Peg.read reference (.seq body (.star (.seq spaces body)))) :=
    h.seq hstar fun _ ts _ us ha hb => hcons ts us ha hb
  exact hsome.alt (.empty hnil)

/-- Whichever way a segment is written, its trees are segments of a path. -/
theorem reads_pathSegment : Reads (fun _ ts => ∃ p, Segments ts p) (Peg.read reference pathSegment) := by
  have hmark : ∀ c, Reads (fun _ ts => ts = []) (Peg.read reference (char c)) := fun c => .one fun _ _ => rfl
  have hname : Reads (fun _ ts => ∃ p, Segments ts p) (Peg.read reference ident) :=
    (reads_quiet _ (by decide)).token fun w _ start _ => ⟨_, .name (w := w) .nil⟩
  have hindex : Reads (fun _ ts => ∃ p, Segments ts p) (Peg.read reference index) :=
    (reads_quiet _ (by decide)).token fun w _ start _ => ⟨_, .index (w := w) .nil⟩
  have hkey : Reads (fun _ ts => ∃ p, Segments ts p) (Peg.read reference string) := by
    refine reads_string.imp ?_
    rintro _ _ ⟨start, start', w, s, rfl, hs⟩
    exact ⟨_, .key hs .nil⟩
  have hdot : Reads (fun _ ts => ∃ p, Segments ts p)
      (Peg.read reference (next (char '.') (.alt ident index))) := by
    refine reads_next (hmark '.') (hname.alt hindex) ?_
    rintro _ us rfl h
    exact h
  have hclose : Reads (fun _ ts => ∃ p, Segments ts p)
      (Peg.read reference (next (.alt index string) (char ']'))) := by
    refine reads_next (hindex.alt hkey) (hmark ']') ?_
    rintro ts _ h rfl
    simpa using h
  refine hdot.alt (reads_next (hmark '[') hclose ?_)
  rintro _ us rfl h
  exact h

theorem sense_path : Reads (fun _ ts => ∃ t, ts = [t] ∧ Sense t) (Peg.read reference Grammar.path) := by
  have hsegments : Reads (fun _ ts => ∃ p, Segments ts p) (Peg.read reference (many pathSegment)) := by
    refine reads_many reads_pathSegment ⟨[], .nil⟩ ?_
    rintro ts us ⟨p, h⟩ ⟨p', h'⟩
    exact ⟨p ++ p', h.append h'⟩
  have hname : Reads (fun _ ts => ∃ start w, ts = [.leaf .ident start w]) (Peg.read reference ident) :=
    (reads_quiet _ (by decide)).token fun w _ start _ => ⟨start, w, rfl⟩
  have hnames : Reads (fun _ ts => ∃ start w us p, ts = .leaf .ident start w :: us ∧ Segments us p)
      (Peg.read reference (next ident (many pathSegment))) := by
    refine reads_next hname hsegments ?_
    rintro _ us ⟨start, w, rfl⟩ ⟨p, h⟩
    exact ⟨start, w, us, p, rfl, h⟩
  have hfree : Reads (fun _ ts => ts = []) (Peg.read reference (.unless keyword)) := .unless rfl
  have hparts : Reads (fun _ ts => ∃ start w us p, ts = .leaf .ident start w :: us ∧ Segments us p)
      (Peg.read reference (next (.unless keyword) (next ident (many pathSegment)))) := by
    refine reads_next hfree hnames ?_
    rintro _ us rfl h
    exact h
  refine hparts.node ?_
  rintro _ _ start ⟨start', w, us, p, rfl, h⟩
  have hd : Denotes (.node .path start (.leaf .ident start' w :: us)) _ := .path h
  refine ⟨_, rfl, .inl ⟨⟨_, hd.ofTree_eq, hd⟩, ?_⟩⟩
  simp [wholeNumbers, wholeNumbersOfAll, h.wholeNumbersOfAll_eq]

/-! Operators before an operand. -/

theorem reads_operators {rule : Rule} {body : Grammar} (h : Reads (fun _ _ => True) (Peg.read reference body)) :
    Reads (fun _ ts => Operators rule ts) (Peg.read reference (many (.token rule body))) := by
  have hone : Reads (fun _ ts => Operators rule ts) (Peg.read reference (.token rule body)) :=
    h.token fun w _ start _ => by simp [Operators]
  exact reads_many hone (by simp [Operators]) fun ts us hts hus => List.forall_mem_append.mpr ⟨hts, hus⟩

theorem wholeNumbersOfAll_operators {rule : Rule} (hr : rule ≠ .int) (h : Operators rule ts) :
    wholeNumbersOfAll ts = [] := by
  induction ts with
  | nil => rfl
  | cons t ts ih =>
    obtain ⟨start, w, rfl⟩ := h t List.mem_cons_self
    rw [wholeNumbersOfAll, ih fun x hx => h x (List.mem_cons_of_mem _ hx), wholeNumbers]
    · rfl
    · exact hr

/-- What a rule does that reads operators of one kind before one operand. -/
structure Prefixing (outer op : Rule) (wrap : Nat → Expr → Expr) (Operand : Tree → Prop) : Prop where
  operator : op = .notOp ∨ op = .negOp
  ofTree_eq : ∀ start parts, ofTree (.node outer start parts) = ofPrefixed wrap 0 parts
  bare : ∀ {start t e}, Operand t → Denotes t e → Denotes (.node outer start [t]) e
  wrapped : ∀ {start ops t e}, Operators op ops → ops ≠ [] → Denotes t e →
    Denotes (.node outer start (ops ++ [t])) (wrap ops.length e)

/-- The operand of a negation is a comparison, a layer of its own. -/
theorem prefixing_not : Prefixing .notExpr .notOp .not fun t => ∃ start us, t = .node .comparison start us where
  operator := .inl rfl
  ofTree_eq _ _ := by rw [ofTree]
  bare := by
    rintro _ _ _ ⟨start, us, rfl⟩ he
    exact .layer (by decide) he
  wrapped := .not

/-- The operand of a sign may be anything that makes sense. -/
theorem prefixing_neg : Prefixing .unary .negOp .neg fun _ => True where
  operator := .inr rfl
  ofTree_eq _ _ := by rw [ofTree]
  bare _ := .primary
  wrapped := .neg

namespace Prefixing

variable {outer : Rule} {wrap : Nat → Expr → Expr} {Operand : Tree → Prop}

/-- Operators before an operand make sense where the operand does. -/
theorem sense (hrule : Prefixing outer op wrap Operand) {ops : List Tree} (ho : Operators op ops)
    (ht : Operand t) (h : Sense t) (start : Nat) : Sense (.node outer start (ops ++ [t])) := by
  have hof : ofTree (.node outer start (ops ++ [t])) = (ofTree t).map (counted wrap (0 + ops.length)) := by
    rw [hrule.ofTree_eq, ofPrefixed_operators hrule.operator ho h.ne_operator]
  have hop : op ≠ .int := by
    rcases hrule.operator with rfl | rfl <;> decide
  have hnumbers : wholeNumbers (.node outer start (ops ++ [t])) = wholeNumbers t := by
    simp [wholeNumbers, wholeNumbersOfAll_operators hop ho, wholeNumbersOfAll]
  rw [Sense, hof, hnumbers, Nat.zero_add]
  refine h.map fun e he => ?_
  by_cases hops : ops = []
  · subst hops
    exact hrule.bare ht he
  · simpa [counted, hops] using hrule.wrapped ho hops he

theorem reads (hrule : Prefixing outer op wrap Operand) {operator operand : Grammar}
    (ho : Reads (fun _ _ => True) (Peg.read reference operator))
    (h : Reads (fun _ ts => ∃ t, ts = [t] ∧ Operand t ∧ Sense t) (Peg.read reference operand)) :
    Reads (Part outer) (Peg.read reference (.node outer (next (many (.token op operator)) operand))) := by
  have hops : Reads (fun _ ts => Operators op ts) (Peg.read reference (many (.token op operator))) :=
    reads_operators ho
  have hparts : Reads (fun _ ts => ∀ start, Sense (.node outer start ts))
      (Peg.read reference (next (many (.token op operator)) operand)) := by
    refine reads_next hops h ?_
    rintro ops _ ho ⟨t, rfl, ht, hs⟩ start
    exact hrule.sense ho ht hs start
  exact hparts.node fun _ ts start hs => ⟨start, ts, rfl, hs start⟩

end Prefixing

/-! Chains of operands. -/

/-- Operators with an operand behind each of them. -/
inductive Turns (op part : Rule) (spelled : Text → Prop) : List Tree → Prop
  | nil : Turns op part spelled []
  | cons {start w start' us ts} (hw : spelled w) (h : Sense (.node part start' us))
      (hs : Turns op part spelled ts) :
      Turns op part spelled (.leaf op start w :: .node part start' us :: ts)

theorem Turns.append {spelled : Text → Prop} (h : Turns op part spelled ts) (h' : Turns op part spelled us) :
    Turns op part spelled (ts ++ us) := by
  induction h with
  | nil => exact h'
  | cons hw hsense _ ih => exact .cons hw hsense ih

theorem reads_turns (op : Rule) {spelled : Text → Prop} {operator operand : Grammar}
    (ho : Reads (fun w _ => spelled w) (Peg.read reference operator))
    (h : Reads (Part part) (Peg.read reference operand)) :
    Reads (fun _ ts => Turns op part spelled ts)
      (Peg.read reference (many (next (.token op operator) operand))) := by
  have hop : Reads (fun _ ts => ∃ start w, ts = [.leaf op start w] ∧ spelled w)
      (Peg.read reference (.token op operator)) := ho.token fun w _ start hw => ⟨start, w, rfl, hw⟩
  have hturn : Reads (fun _ ts => Turns op part spelled ts)
      (Peg.read reference (next (.token op operator) operand)) := by
    refine reads_next hop h ?_
    rintro _ _ ⟨start, w, rfl, hw⟩ ⟨start', us, rfl, hs⟩
    exact .cons hw hs .nil
  exact reads_many hturn .nil fun ts us h h' => h.append h'

/-- The operands are built one after the other; the operators between them have no number. -/
theorem Turns.settles_ofOperands {spelled : Text → Prop} (hop : op ≠ .int) {start : Nat}
    (h : Sense (.node part start us)) (hs : Turns op part spelled ts) :
    Settles (ofOperands (.node part start us :: ts)) (Operands op part (.node part start us :: ts))
      (wholeNumbersOfAll (.node part start us :: ts)) := by
  induction hs generalizing start us with
  | nil =>
    rw [ofOperands, wholeNumbersOfAll]
    have hnone : Settles (ofOperands []) (fun es => es = []) (wholeNumbersOfAll []) := .ok rfl
    refine h.both hnone ?_
    rintro e es he rfl
    exact .last he
  | @cons start' w start'' vs ts hw hsense _ ih =>
    have hrest := ih hsense
    have hof : ofOperands (.node part start us :: .leaf op start' w :: .node part start'' vs :: ts) =
        (do
          let e ← ofTree (.node part start us)
          let es ← ofOperands (.node part start'' vs :: ts)
          return e :: es) := by
      rw [ofOperands, ofOperands]
    have hnumbers :
        wholeNumbersOfAll (.node part start us :: .leaf op start' w :: .node part start'' vs :: ts) =
        wholeNumbers (.node part start us) ++ wholeNumbersOfAll (.node part start'' vs :: ts) := by
      rw [wholeNumbersOfAll, wholeNumbersOfAll, wholeNumbers]
      · rfl
      · exact hop
    rw [hof, hnumbers]
    exact h.both hrest fun e es he hes => .cons he hes

/-- A chain is one operand alone, or has two at least. -/
theorem Operands.chain_cases {es : List Expr} (h : Operands op part ts es) :
    (∃ start us e, ts = [.node part start us] ∧ es = [e] ∧ Denotes (.node part start us) e) ∨
      2 ≤ es.length := by
  cases h with
  | last h => exact .inl ⟨_, _, _, rfl, rfl, h⟩
  | cons h hs =>
    right
    have hpos := hs.length_pos
    rw [List.length_cons]
    omega

/-- What a rule does that reads operands with operators of one kind between them. -/
structure Chaining (outer op part : Rule) (join : List Expr → Expr) : Prop where
  operator : op ≠ .int
  layer : (outer, part) ∈ layers
  ofTree_eq : ∀ start parts, ofTree (.node outer start parts) = (ofOperands parts).map (chain join)
  joined : ∀ {start ts es}, Operands op part ts es → 2 ≤ es.length → Denotes (.node outer start ts) (join es)

theorem chaining_or : Chaining .orExpr .orOp .andExpr .or where
  operator := by decide
  layer := by decide
  ofTree_eq _ _ := by rw [ofTree]
  joined := .or

theorem chaining_and : Chaining .andExpr .andOp .notExpr .and where
  operator := by decide
  layer := by decide
  ofTree_eq _ _ := by rw [ofTree]
  joined := .and

namespace Chaining

variable {outer : Rule} {join : List Expr → Expr}

/-- A chain makes sense where its operands do; of one operand it is that operand. -/
theorem sense (hrule : Chaining outer op part join) {start start' : Nat} {spelled : Text → Prop}
    (h : Sense (.node part start' us)) (hs : Turns op part spelled ts) :
    Sense (.node outer start (.node part start' us :: ts)) := by
  rw [Sense, hrule.ofTree_eq, wholeNumbers]
  refine (hs.settles_ofOperands hrule.operator h).map fun es hes => ?_
  rcases hes.chain_cases with ⟨_, _, e, heq, rfl, he⟩ | hl
  · rw [heq]
    exact .layer hrule.layer he
  · rw [chain_of_two hl]
    exact hrule.joined hes hl

theorem reads (hrule : Chaining outer op part join) {operator operand : Grammar}
    (ho : Reads (fun _ _ => True) (Peg.read reference operator))
    (h : Reads (Part part) (Peg.read reference operand)) :
    Reads (Part outer)
      (Peg.read reference (.node outer (next operand (many (next (.token op operator) operand))))) := by
  have hparts : Reads (fun _ ts => ∀ start, Sense (.node outer start ts))
      (Peg.read reference (next operand (many (next (.token op operator) operand)))) := by
    refine reads_next h (reads_turns op ho h) ?_
    rintro _ us ⟨start', vs, rfl, hs⟩ ht start
    exact hrule.sense hs ht
  exact hparts.node fun _ ts start hs => ⟨start, ts, rfl, hs start⟩

end Chaining

/-- The addends are built one after the other, each with the sign before it. -/
theorem Turns.settles_ofAddends
    (hs : Turns .addOp .unary (fun w => ∃ x ∈ signs, x.1.toList = w) ts) :
    Settles (ofAddends ts) (Addends ts) (wholeNumbersOfAll ts) := by
  induction hs with
  | nil => exact .ok .nil
  | @cons start _ start' us ts hw hsense _ ih =>
    obtain ⟨⟨op, sign⟩, hmem, rfl⟩ := hw
    rw [ofAddends, wholeNumbersOfAll, wholeNumbersOfAll]
    have hsign : addOp (op, sign).1.toList = sign := addOp_of_mem hmem
    rw [hsign]
    exact hsense.both ih fun e es he hes => .cons hmem he hes

theorem ofTree_additive (start : Nat) (parts : List Tree) :
    ofTree (.node .additive start parts) = ofSum parts := by rw [ofTree]

theorem ofTree_comparison (start : Nat) (parts : List Tree) :
    ofTree (.node .comparison start parts) = ofComparison parts := by rw [ofTree]

/-- A layer without an operator of its own is read as what it is made of. -/
theorem Sense.alone {outer : Rule} {start start' : Nat} (hl : (outer, part) ∈ layers)
    (hof : ofTree (.node outer start [.node part start' us]) = ofTree (.node part start' us))
    (h : Sense (.node part start' us)) : Sense (.node outer start [.node part start' us]) := by
  rw [Sense, hof, wholeNumbers, wholeNumbersOfAll, wholeNumbersOfAll, List.append_nil]
  rcases h with ⟨⟨e, he, hd⟩, hw⟩ | herror
  · exact .inl ⟨⟨e, he, .layer hl hd⟩, hw⟩
  · exact .inr herror

theorem sense_additive {start start' : Nat} (h : Sense (.node .unary start' us))
    (hs : Turns .addOp .unary (fun w => ∃ x ∈ signs, x.1.toList = w) ts) :
    Sense (.node .additive start (.node .unary start' us :: ts)) := by
  by_cases hts : ts = []
  · subst hts
    exact h.alone (by decide) (by rw [ofTree_additive, ofSum])
  · have hof : ofSum (.node .unary start' us :: ts) = (do
        let e ← ofTree (.node .unary start' us)
        let es ← ofAddends ts
        return .sum e es) := by
      rw [ofSum]
      exact hts
    rw [Sense, ofTree_additive, hof, wholeNumbers, wholeNumbersOfAll]
    refine h.both hs.settles_ofAddends fun e es he hes => .sum he hes ?_
    rintro rfl
    cases hes
    exact hts rfl

theorem sense_comparison {start start' start'' i : Nat} {vs : List Tree} {x : String × CompareOp}
    (hx : x ∈ comparisons) (h : Sense (.node .additive start' us)) (h' : Sense (.node .additive start'' vs)) :
    Sense (.node .comparison start
      [.node .additive start' us, .leaf .compareOp i x.1.toList, .node .additive start'' vs]) := by
  rw [Sense, ofTree, ofComparison, wholeNumbers, wholeNumbersOfAll, wholeNumbersOfAll, wholeNumbersOfAll,
    wholeNumbersOfAll, List.append_nil]
  exact h.both h' fun l r hl hr => compareOp_of_mem hx ▸ .compare hx hl hr

/-! The rules, from the operands up. -/

section

variable (h : Reads (Part .orExpr) reference)
include h

theorem reads_primary : Reads (fun _ ts => ∃ t, ts = [t] ∧ Sense t) (Peg.read reference primary) := by
  have hmark : ∀ c, Reads (fun _ ts => ts = []) (Peg.read reference (char c)) := fun c => .one fun _ _ => rfl
  have hagain : Reads (fun _ ts => ∃ t, ts = [t] ∧ Sense t) (Peg.read reference .again) := by
    have hpart : Reads (Part .orExpr) (Peg.read reference .again) := h
    refine hpart.imp ?_
    rintro _ _ ⟨start, us, rfl, hs⟩
    exact ⟨_, rfl, hs⟩
  have hinside : Reads (fun _ ts => ∃ t, ts = [t] ∧ Sense t) (Peg.read reference (next .again (char ')'))) := by
    refine reads_next hagain (hmark ')') ?_
    rintro ts _ ht rfl
    simpa using ht
  have hparentheses : Reads (fun _ ts => ∃ t, ts = [t] ∧ Sense t)
      (Peg.read reference (next (char '(') (next .again (char ')')))) := by
    refine reads_next (hmark '(') hinside ?_
    rintro _ us rfl ht
    exact ht
  exact sense_null.alt (sense_bool.alt (sense_float.alt (sense_int.alt (sense_string.alt
    (hparentheses.alt sense_path)))))

theorem reads_unary : Reads (Part .unary) (Peg.read reference unary) := by
  refine prefixing_neg.reads ((reads_quiet _ (by decide)).imp fun _ _ _ => trivial) ((reads_primary h).imp ?_)
  rintro _ _ ⟨t, rfl, ht⟩
  exact ⟨t, rfl, trivial, ht⟩

theorem reads_additive : Reads (Part .additive) (Peg.read reference additive) := by
  have hop : Reads (fun w _ => ∃ x ∈ signs, x.1.toList = w) (Peg.read reference (Peg.words ["+", "-"])) :=
    reads_listed (reads_words _) (by decide)
  have hunary := reads_unary h
  have hturns := reads_turns .addOp hop hunary
  have hparts : Reads (fun _ ts => ∀ start, Sense (.node .additive start ts))
      (Peg.read reference (next unary (many (next Grammar.addOp unary)))) := by
    refine reads_next hunary hturns ?_
    rintro _ vs ⟨start', us, rfl, hs⟩ hv start
    exact sense_additive hs hv
  exact hparts.node fun _ ts start hs => ⟨start, ts, rfl, hs start⟩

theorem reads_comparison : Reads (Part .comparison) (Peg.read reference comparison) := by
  have hspelled : Reads (fun w _ => ∃ x ∈ comparisons, x.1.toList = w)
      (Peg.read reference (.alt (Peg.words ["==", "!=", "<=", ">=", "<", ">"])
        (wholeWord ["neq", "eq", "lte", "lt", "gte", "gt"]))) :=
    (reads_listed (reads_words _) (by decide)).alt (reads_listed (reads_wholeWord _) (by decide))
  have hop : Reads (fun _ ts => ∃ start x, x ∈ comparisons ∧ ts = [.leaf .compareOp start x.1.toList])
      (Peg.read reference Grammar.compareOp) := by
    refine hspelled.token ?_
    rintro _ _ start ⟨x, hx, rfl⟩
    exact ⟨start, x, hx, rfl⟩
  have hadditive := reads_additive h
  have hright : Reads (fun _ ts => ts = [] ∨ ∃ i x start us, x ∈ comparisons ∧
      ts = [.leaf .compareOp i x.1.toList, .node .additive start us] ∧ Sense (.node .additive start us))
      (Peg.read reference (Peg.optional (next Grammar.compareOp additive))) := by
    refine Reads.alt (reads_next hop hadditive ?_) (.empty (.inl rfl))
    rintro _ _ ⟨i, x, hx, rfl⟩ ⟨start, us, rfl, hs⟩
    exact .inr ⟨i, x, start, us, hx, rfl, hs⟩
  have hparts : Reads (fun _ ts => ∀ start, Sense (.node .comparison start ts))
      (Peg.read reference (next additive (Peg.optional (next Grammar.compareOp additive)))) := by
    refine reads_next hadditive hright ?_
    rintro _ _ ⟨start', us, rfl, hs⟩ (rfl | ⟨i, x, start'', vs, hx, rfl, hv⟩) start
    · exact hs.alone (by decide) (by rw [ofTree_comparison, ofComparison])
    · exact sense_comparison hx hs hv
  exact hparts.node fun _ ts start hs => ⟨start, ts, rfl, hs start⟩

theorem reads_notExpr : Reads (Part .notExpr) (Peg.read reference notExpr) := by
  refine prefixing_not.reads ((reads_quiet _ (by decide)).imp fun _ _ _ => trivial) ((reads_comparison h).imp ?_)
  rintro _ _ ⟨start, us, rfl, hs⟩
  exact ⟨_, rfl, ⟨start, us, rfl⟩, hs⟩

theorem reads_andExpr : Reads (Part .andExpr) (Peg.read reference andExpr) :=
  chaining_and.reads ((reads_quiet _ (by decide)).imp fun _ _ _ => trivial) (reads_notExpr h)

theorem reads_orExpr : Reads (Part .orExpr) (Peg.read reference orExpr) :=
  chaining_or.reads ((reads_quiet _ (by decide)).imp fun _ _ _ => trivial) (reads_andExpr h)

end

/-- Whatever the grammar reads as an expression inside parentheses makes sense, at every level. -/
theorem reads_level (level : Nat) : Reads (Part .orExpr) (Peg.readLevel orExpr level) :=
  Peg.readLevel_reads (fun _ => reads_orExpr) level

variable {s : Text} {tree : Tree}

/-- What the rules derive makes sense, but for numbers out of range. -/
theorem Derived.sense (h : Derived s tree) : Sense tree := by
  have hone : ∀ w ts, Part .orExpr w ts → ∃ t, ts = [t] := by
    rintro w _ ⟨start, us, rfl, -⟩
    exact ⟨_, rfl⟩
  obtain ⟨before, w, after, -, -, -, start, us, htree, hs⟩ := h.surrounded hone reads_level
  cases htree
  exact hs

/-- A text has one tree at most. -/
theorem Derived.unique {tree' : Tree} (h : Derived s tree) (h' : Derived s tree') : tree = tree' := by
  have heq := Derives.deterministic h h'
  simpa using heq

theorem parse_eq_ok_iff_tree {e : Expr} :
    parse s = .ok e ↔ ∃ tree, parseTree s = .ok tree ∧ ofTree tree = .ok e := by
  rw [parse]
  cases parseTree s with
  | error error => simp [Except.bind]
  | ok tree => simp [Except.bind]

/-- The machine and the building of expressions, told by the rules and by denotation. -/
theorem parse_eq_ok_iff_denotes {e : Expr} : parse s = .ok e ↔
    ∃ tree, Derived s tree ∧ parenthesisDepth tree ≤ maxNesting ∧ Denotes tree e := by
  rw [parse_eq_ok_iff_tree]
  constructor
  · rintro ⟨tree, htree, he⟩
    obtain ⟨hd, hdepth⟩ := parseTree_eq_ok_iff_derived.mp htree
    rcases hd.sense with ⟨⟨e', he', hdenotes⟩, -⟩ | ⟨⟨error, herror⟩, -⟩
    · rw [he'] at he
      cases he
      exact ⟨tree, hd, hdepth, hdenotes⟩
    · rw [herror] at he
      cases he
  · rintro ⟨tree, hd, hdepth, hdenotes⟩
    exact ⟨tree, parseTree_eq_ok_iff_derived.mpr ⟨hd, hdepth⟩, hdenotes.ofTree_eq⟩

/-- A tree denotes something exactly where its whole numbers have 64 bits. -/
theorem Derived.exists_denotes_iff (h : Derived s tree) :
    (∃ e, Denotes tree e) ↔ ∀ w ∈ wholeNumbers tree, InRange w := by
  rcases h.sense with ⟨⟨e, -, hd⟩, hw⟩ | ⟨⟨error, herror⟩, hw⟩
  · exact ⟨fun _ => hw, fun _ => ⟨e, hd⟩⟩
  · refine ⟨fun ⟨e, hd⟩ => ?_, fun hall => absurd hall hw⟩
    rw [hd.ofTree_eq] at herror
    cases herror

end Expr

namespace Expression

open DynamicSql.Expr

theorem parse_eq_ok_iff {s : Text} {x : Expression} :
    parse s = .ok x ↔ Expr.parse s = .ok x.expr ∧ x.source = Text.trim s := by
  obtain ⟨source, expr⟩ := x
  rw [parse]
  cases Expr.parse s with
  | error error => simp
  | ok e => simp [and_comm, eq_comm]

/--
Reading accepts exactly the language of the rules, within the limits on parentheses and on whole numbers, and
what it gives is what the derivation denotes.
-/
theorem parse_accepts_grammar (s : Text) :
    ((∃ x, parse s = .ok x) ↔ ∃ tree, Derived s tree ∧ parenthesisDepth tree ≤ maxNesting ∧
      ∀ w ∈ wholeNumbers tree, InRange w) ∧
    ∀ x, parse s = .ok x ↔ x.source = Text.trim s ∧
      ∃ tree, Derived s tree ∧ parenthesisDepth tree ≤ maxNesting ∧ Denotes tree x.expr := by
  have hiff : ∀ x, parse s = .ok x ↔ x.source = Text.trim s ∧
      ∃ tree, Derived s tree ∧ parenthesisDepth tree ≤ maxNesting ∧ Denotes tree x.expr := by
    intro x
    rw [parse_eq_ok_iff, parse_eq_ok_iff_denotes, and_comm]
  refine ⟨⟨?_, ?_⟩, hiff⟩
  · rintro ⟨x, hx⟩
    obtain ⟨-, tree, hd, hdepth, hdenotes⟩ := (hiff x).mp hx
    exact ⟨tree, hd, hdepth, hd.exists_denotes_iff.mp ⟨_, hdenotes⟩⟩
  · rintro ⟨tree, hd, hdepth, hw⟩
    obtain ⟨e, hdenotes⟩ := hd.exists_denotes_iff.mpr hw
    exact ⟨⟨Text.trim s, e⟩, (hiff _).mpr ⟨rfl, tree, hd, hdepth, hdenotes⟩⟩

end Expression

end DynamicSql
