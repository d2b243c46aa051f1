import DynamicSql.Proofs.Expr.Depth
import DynamicSql.Proofs.Expr.Derivation

/-!
The machine and the rules. Main statement: on every text whose parentheses nest no deeper than the limit, the
machine, which stops at that depth, reads what the rules derive, which stop nowhere; so the rules derive
exactly one thing from any text.
-/
namespace DynamicSql.Expr

open Peg (Place Reading Reads)
open Grammar
open Phrase (allOf firstOf)

variable {reference : Reading Rule} {first second body : Grammar} {e e' : Phrase} {name : RuleName}
  {P Q : Text → Prop} {spaced : Bool} {limit d : Nat}

/-- Where the text that is left is as told, the phrase derives what is read. -/
def Agrees (P : Text → Prop) (spaced : Bool) (e : Phrase) (reading : Reading Rule) : Prop :=
  ∀ p, P p.rest → Derives spaced e p (reading p)

def Everywhere (_ : Text) : Prop := True

/-- What is left after a reading that began at a place of the first kind. -/
def Leads (P : Text → Prop) (reading : Reading Rule) (Q : Text → Prop) : Prop :=
  ∀ p q ts, P p.rest → reading p = some (q, ts) → Q q.rest

def BlankFree (P : Text → Prop) : Prop := ∀ s, P s → P (s.dropWhile isWhitespace)

theorem leads_everywhere (reading : Reading Rule) : Leads P reading Everywhere := fun _ _ _ _ _ => trivial

theorem blankFree_everywhere : BlankFree Everywhere := fun _ _ => trivial

/-- Behind skipped blanks the condition still holds. -/
theorem skip_rest (h : BlankFree P) {p : Place} (hp : P p.rest) : P (skip true p).rest := h p.rest hp

theorem isWhitespace_eq (c : Char) : isWhitespace c = isSpace c := by
  simp [isWhitespace, isSpace, Bool.or_assoc]

theorem read_spaces (hpass : Peg.Passing reference) (p : Place) :
    Peg.read reference spaces p = some (skip true p, []) := by
  have hsame : isWhitespace = isSpace := funext isWhitespace_eq
  rw [spaces, read_star_one hpass, skip, hsame]
  rfl

/-- Blanks ahead of a grammar move the place from which it reads. -/
theorem read_behind_spaces (hpass : Peg.Passing reference) (p : Place) :
    Peg.read reference (.seq spaces body) p = Peg.read reference body (skip true p) := by
  rw [Peg.read_seq, read_spaces hpass]
  exact Option.map_id'

theorem read_alt (p : Place) : Peg.read reference (.alt first second) p =
    (Peg.read reference first p).or (Peg.read reference second p) := by
  rw [Peg.read]
  cases Peg.read reference first p <;> rfl

theorem derives_rule (spaced : Bool) (name : RuleName) {p : Place} {x : Option (Place × List Tree)}
    (h : Derives ((production name).kind.spaced spaced) (production name).body p x) :
    Derives spaced (.rule name) p (x.map fun r => (r.1, (production name).kind.trees p r.1 r.2)) := by
  cases x with
  | none => exact .ruleFails h
  | some r => exact .rule h

namespace Agrees

/-- Agreement carries over to a stronger condition on what is left. -/
theorem mono {reading : Reading Rule} (h : Agrees P spaced e reading) (hp : ∀ s, Q s → P s) :
    Agrees Q spaced e reading := fun p hq => h p (hp _ hq)

theorem anywhere {reading : Reading Rule} (h : Agrees Everywhere spaced e reading) :
    Agrees P spaced e reading :=
  h.mono fun _ _ => trivial

theorem word (w : String) : Agrees P spaced (.word w) (Peg.read reference (.word w.toList)) := by
  intro p _
  rw [Peg.read]
  cases h : Text.after? w.toList p.rest with
  | none =>
    refine .wordFails fun rest hr => ?_
    rw [Text.after?_eq_some_iff.mpr hr] at h
    cases h
  | some rest => exact .word (Text.after?_eq_some_iff.mp h)

theorem one {accepts : Char → Bool} : Agrees P spaced (.one accepts) (Peg.read reference (.one accepts)) := by
  intro p _
  rw [read_one]
  split
  · next c rest hr =>
    by_cases hc : accepts c = true
    · rw [if_pos hc]
      exact .one hr hc
    · rw [if_neg hc]
      exact .oneFails fun x hx => by simp_all
  · next hr => exact .oneFails (by simp [hr])

theorem char {w : String} {c : Char} (hw : w.toList = [c]) :
    Agrees P spaced (.word w) (Peg.read reference (char c)) := by
  intro p hp
  have hsame : Peg.read reference (.word [c]) p = Peg.read reference (Grammar.char c) p := by
    rw [read_word_cons, Peg.read_seq]
    cases Peg.read reference (Grammar.char c) p with
    | none => rfl
    | some r => simp [Peg.read, Text.after?]
  rw [← hsame, ← hw]
  exact word w p hp

/-- One character, where the phrase names some of them apart. -/
theorem oneOf {f g accepts : Char → Bool} (h : Agrees P spaced e (Peg.read reference (.one f)))
    (h' : Agrees P spaced e' (Peg.read reference (.one g))) (ha : ∀ c, accepts c = (f c || g c)) :
    Agrees P spaced (.or e e') (Peg.read reference (.one accepts)) := by
  intro p hp
  have hf := h p hp
  have hg := h' p hp
  rw [read_one] at hf hg ⊢
  split
  · next c rest hr =>
    simp only [hr] at hf hg
    rw [ha]
    by_cases hc : f c = true
    · simp only [hc, if_true, Bool.true_or] at hf ⊢
      exact .orFirst hf
    · simp only [hc, Bool.false_eq_true, if_false, Bool.false_or] at hf ⊢
      exact .orSecond hf hg
  · next hr =>
    simp only [hr] at hf hg
    exact .orSecond hf hg

theorem or (h : Agrees P spaced e (Peg.read reference first))
    (h' : Agrees P spaced e' (Peg.read reference second)) :
    Agrees P spaced (.or e e') (Peg.read reference (.alt first second)) := by
  intro p hp
  have hf := h p hp
  rw [Peg.read]
  split
  · next hr => exact .orSecond (hr ▸ hf) (h' p hp)
  · next hr => exact .orFirst (hr ▸ hf)

theorem without (h : Agrees P spaced e (Peg.read reference body)) :
    Agrees P spaced (.without e) (Peg.read reference (.unless body)) := by
  intro p hp
  have hb := h p hp
  rw [Peg.read_unless]
  split
  · next hr => exact .without (hr ▸ hb)
  · next hr => exact .withoutFails (hr ▸ hb)

theorem optional (h : Agrees P spaced e (Peg.read reference body)) :
    Agrees P spaced (.optional e) (Peg.read reference (Peg.optional body)) := by
  intro p hp
  have hb := h p hp
  rw [Peg.optional, Peg.read]
  split
  · next hr => exact .absent (hr ▸ hb)
  · next hr => exact .optional (hr ▸ hb)

/-- The second part is read where the first one leads; nothing is skipped between them. -/
theorem seq (h : Agrees P false e (Peg.read reference first)) (hl : Leads P (Peg.read reference first) Q)
    (h' : Agrees Q false e' (Peg.read reference second)) :
    Agrees P false (.seq e e') (Peg.read reference (.seq first second)) := by
  intro p hp
  have hf := h p hp
  rw [Peg.read_seq]
  split
  · next hr => exact .firstFails (hr ▸ hf)
  · next q ts hr =>
    have hs := h' q (hl p q ts hp hr)
    cases hread : Peg.read reference second q with
    | none => exact .secondFails (hr ▸ hf) (hread ▸ hs)
    | some r => exact .seq (hr ▸ hf) (hread ▸ hs)

/-- Between the parts blanks are skipped, which keep the condition of the second. -/
theorem next (hpass : Peg.Passing reference) (h : Agrees P true e (Peg.read reference first))
    (hl : Leads P (Peg.read reference first) Q) (hq : BlankFree Q)
    (h' : Agrees Q true e' (Peg.read reference second)) :
    Agrees P true (.seq e e') (Peg.read reference (Grammar.next first second)) := by
  intro p hp
  have hf := h p hp
  rw [Grammar.next, Peg.read_seq]
  split
  · next hr => exact .firstFails (hr ▸ hf)
  · next q ts hr =>
    have hs := h' (skip true q) (skip_rest hq (hl p q ts hp hr))
    rw [read_behind_spaces hpass]
    cases hread : Peg.read reference second (skip true q) with
    | none => exact .secondFails (hr ▸ hf) (hread ▸ hs)
    | some r => exact .seq (hr ▸ hf) (hread ▸ hs)

/-- The turns of a repetition, the first of which has no blanks before it. -/
theorem turns (hb : Peg.Passing (Peg.read reference body))
    (h : ∀ p, P p.rest → Derives spaced e (skip spaced p) (Peg.read reference body p))
    (hl : Leads P (Peg.read reference body) P) :
    Agrees P spaced (.more e) (Peg.read reference (.star body)) := by
  intro p
  induction hn : p.rest.length using Nat.strongRecOn generalizing p with
  | _ n ih =>
    subst hn
    intro hp
    have hf := h p hp
    rw [Peg.read_star hb]
    split
    · next hr => exact .moreEmpty (hr ▸ hf)
    · next q ts hr =>
      have hmore := ih q.rest.length (hb p q ts hr) q rfl (hl p q ts hp hr)
      obtain ⟨r, hstar⟩ : ∃ r, Peg.read reference (.star body) q = some r := by
        cases hs : Peg.read reference (.star body) q with
        | some r => exact ⟨r, rfl⟩
        | none =>
          rw [hs] at hmore
          cases hmore
      rw [hstar] at hmore ⊢
      exact .more (hr ▸ hf) hmore

/-- A repetition ends, because each turn passes a character and leads where the next may begin. -/
theorem star (hb : Peg.Passing (Peg.read reference body)) (h : Agrees P false e (Peg.read reference body))
    (hl : Leads P (Peg.read reference body) P) :
    Agrees P false (.star e) (Peg.read reference (.star body)) := by
  intro p hp
  have hmore := turns hb h hl p hp
  generalize Peg.read reference (.star body) p = x at hmore
  cases hmore with
  | more hf hs => exact .star hf hs
  | moreEmpty hf => exact .starEmpty hf

/-- Turns of a body are one turn, and more behind it. -/
theorem read_many (p : Place) : Peg.read reference (Grammar.many body) p =
    match Peg.read reference body p with
    | none => some (p, [])
    | some (q, ts) =>
      match Peg.read reference (.star (.seq spaces body)) q with
      | none => some (p, [])
      | some r => some (r.1, ts ++ r.2) := by
  rw [Grammar.many, Peg.optional, Peg.read, Peg.read_seq]
  rcases Peg.read reference body p with _ | ⟨q, ts⟩
  · rfl
  · simp only
    cases Peg.read reference (.star (.seq spaces body)) q <;> rfl

theorem many (hpass : Peg.Passing reference) (hb : body.passes = true)
    (h : Agrees P true e (Peg.read reference body)) (hl : Leads P (Peg.read reference body) P)
    (hp : BlankFree P) : Agrees P true (.star e) (Peg.read reference (Grammar.many body)) := by
  intro p hrest
  have hf := h p hrest
  have hagain : Peg.Passing (Peg.read reference (.seq spaces body)) :=
    Peg.read_passing hpass _ (by simp [Peg.passes, hb])
  have hbody : ∀ p, Peg.read reference (.seq spaces body) p = Peg.read reference body (skip true p) :=
    read_behind_spaces hpass
  have hmore : Agrees P true (.more e) (Peg.read reference (.star (.seq spaces body))) :=
    turns hagain (fun p hp' => hbody p ▸ h _ (skip_rest hp hp'))
      (fun p q ts hp' hr => hl (skip true p) q ts (skip_rest hp hp') (hbody p ▸ hr))
  rw [read_many]
  split
  · next hr => exact .starEmpty (hr ▸ hf)
  · next q ts hr =>
    have hq := hmore q (hl p q ts hrest hr)
    split
    · next hs =>
      rw [hs] at hq
      cases hq
    · next last hs => exact .star (hr ▸ hf) (hs ▸ hq)

/-! A rule, from its body. -/

/-- A named rule adds its own tree, as its kind has it. -/
theorem rule {kind : Kind} (hk : (production name).kind = kind) {inner outer : Reading Rule}
    (h : Agrees P (kind.spaced spaced) (production name).body inner)
    (ho : ∀ p, outer p = (inner p).map fun r => (r.1, kind.trees p r.1 r.2)) :
    Agrees P spaced (.rule name) outer := by
  subst hk
  intro p hp
  rw [ho]
  exact derives_rule spaced name (h p hp)

theorem atomic {r : Rule} (hk : (production name).kind = .atomic r)
    (h : Agrees P false (production name).body (Peg.read reference body)) :
    Agrees P spaced (.rule name) (Peg.read reference (.token r body)) :=
  rule hk h fun p => Peg.read_token reference body p r

theorem compound {r : Rule} (hk : (production name).kind = .compound r)
    (h : Agrees P false (production name).body (Peg.read reference body)) :
    Agrees P spaced (.rule name) (Peg.read reference (.node r body)) :=
  rule hk h fun p => Peg.read_node reference body p r

theorem shown {r : Rule} (hk : (production name).kind = .shown r)
    (h : Agrees P spaced (production name).body (Peg.read reference body)) :
    Agrees P spaced (.rule name) (Peg.read reference (.node r body)) :=
  rule hk h fun p => Peg.read_node reference body p r

theorem silent (hk : (production name).kind = .silent)
    (h : Agrees P spaced (production name).body (Peg.read reference body)) :
    Agrees P spaced (.rule name) (Peg.read reference body) :=
  rule hk h fun _ => Option.map_id'.symm

end Agrees

/-! The tokens, at every place. -/

theorem agrees_words (ws : List String) :
    Agrees P spaced (firstOf (ws.map .word)) (Peg.read reference (Peg.words ws)) := by
  induction ws with
  | nil => exact .one
  | cons w others ih =>
    cases others with
    | nil => exact .word w
    | cons other others => exact (Agrees.word w).or ih

theorem agrees_identChar : Agrees P spaced (.rule .identChar) (Peg.read reference (.one isNameChar)) := by
  have hrest : Agrees P spaced (firstOf [.word "_", .word "$"])
      (Peg.read reference (.one fun c => c = '_' || c = '$')) :=
    .oneOf (.char rfl) (.char rfl) fun c => rfl
  refine .silent rfl (.oneOf .one hrest fun c => ?_)
  simp only [isNameChar, isLetter, Char.isAlphanum]
  cases c.isAlpha <;> cases c.isDigit <;> simp

theorem agrees_wholeWord (ws : List String) :
    Agrees Everywhere false (allOf [firstOf (ws.map .word), .without (.rule .identChar)])
      (Peg.read reference (wholeWord ws)) :=
  (agrees_words ws).seq (leads_everywhere _) agrees_identChar.without

theorem agrees_orOp : Agrees P spaced (.rule .orOp) (Peg.read reference orOp) :=
  .atomic rfl ((Agrees.word "||").or (agrees_wholeWord ["or"])).anywhere

theorem agrees_andOp : Agrees P spaced (.rule .andOp) (Peg.read reference andOp) :=
  .atomic rfl ((Agrees.word "&&").or (agrees_wholeWord ["and"])).anywhere

theorem agrees_notOp : Agrees P spaced (.rule .notOp) (Peg.read reference notOp) := by
  have hmark : Agrees Everywhere false (allOf [.word "!", .without (.word "=")])
      (Peg.read reference (.seq (char '!') (.unless (char '=')))) :=
    .seq (.char rfl) (leads_everywhere _) (Agrees.char rfl).without
  exact .atomic rfl (hmark.or (agrees_wholeWord ["not"])).anywhere

theorem agrees_compareOp : Agrees P spaced (.rule .compareOp) (Peg.read reference Grammar.compareOp) := by
  have hmarks : Agrees Everywhere false
      (firstOf [.word "==", .word "!=", .word "<=", .word ">=", .word "<", .word ">"])
      (Peg.read reference (Peg.words ["==", "!=", "<=", ">=", "<", ">"])) :=
    agrees_words ["==", "!=", "<=", ">=", "<", ">"]
  exact .atomic rfl (hmarks.or (agrees_wholeWord ["neq", "eq", "lte", "lt", "gte", "gt"])).anywhere

theorem agrees_addOp : Agrees P spaced (.rule .addOp) (Peg.read reference Grammar.addOp) :=
  .atomic rfl (agrees_words ["+", "-"])

theorem agrees_negOp : Agrees P spaced (.rule .negOp) (Peg.read reference negOp) :=
  .atomic rfl (.char rfl)

theorem agrees_null : Agrees P spaced (.rule .null) (Peg.read reference nullLiteral) :=
  .atomic rfl (agrees_wholeWord ["null"]).anywhere

theorem agrees_bool : Agrees P spaced (.rule .bool) (Peg.read reference boolLiteral) :=
  .atomic rfl (agrees_wholeWord ["true", "false"]).anywhere

theorem agrees_keyword : Agrees P spaced (.rule .keyword) (Peg.read reference keyword) :=
  .atomic rfl (agrees_wholeWord ["and", "or", "not", "neq", "eq", "lte", "lt", "gte", "gt"]).anywhere

section

variable (hpass : Peg.Passing reference)
include hpass

theorem agrees_digits : Agrees Everywhere false (Phrase.atLeastOnce (.one Char.isDigit))
    (Peg.read reference digits) :=
  .seq .one (leads_everywhere _) (.star (Peg.read_passing hpass _ rfl) .one (leads_everywhere _))

theorem agrees_float : Agrees P spaced (.rule .float) (Peg.read reference float) := by
  have hfraction : Agrees Everywhere false (allOf [.word ".", Phrase.atLeastOnce (.one Char.isDigit)])
      (Peg.read reference (.seq (char '.') digits)) :=
    .seq (.char rfl) (leads_everywhere _) (agrees_digits hpass)
  exact .atomic rfl ((agrees_digits hpass).seq (leads_everywhere _) hfraction).anywhere

theorem agrees_int : Agrees P spaced (.rule .int) (Peg.read reference int) :=
  .atomic rfl (agrees_digits hpass).anywhere

theorem agrees_index : Agrees P spaced (.rule .index) (Peg.read reference index) :=
  .atomic rfl (agrees_digits hpass).anywhere

theorem agrees_ident : Agrees P spaced (.rule .ident) (Peg.read reference ident) := by
  have hletter : Agrees Everywhere false (firstOf [.one Char.isAlpha, .word "_", .word "$"])
      (Peg.read reference (.one isLetter)) := by
    have hrest : Agrees Everywhere false (firstOf [.word "_", .word "$"])
        (Peg.read reference (.one fun c => c = '_' || c = '$')) :=
      .oneOf (.char rfl) (.char rfl) fun c => rfl
    exact .oneOf .one hrest fun c => by simp only [isLetter, Bool.or_assoc]
  have hchars : Agrees Everywhere false (.star (.rule .identChar))
      (Peg.read reference (.star (.one isNameChar))) :=
    .star (Peg.read_passing hpass _ rfl) agrees_identChar (leads_everywhere _)
  exact .atomic rfl (hletter.seq (leads_everywhere _) hchars).anywhere

/-- What stands between quotes, for either of them. -/
theorem agrees_innerBody {w : String} {q : Char} (hw : w.toList = [q]) :
    Agrees Everywhere false
      (.star (firstOf [allOf [.word "\\", .any], allOf [.without (firstOf [.word w, .word "\\"]), .any]]))
      (Peg.read reference (.star (innerBody q))) := by
  have hany : Agrees Everywhere false .any (Peg.read reference (.one fun _ => true)) := .one
  have hescape : Agrees Everywhere false (allOf [.word "\\", .any])
      (Peg.read reference (.seq (char '\\') (.one fun _ => true))) :=
    .seq (.char rfl) (leads_everywhere _) hany
  have hplain : Agrees Everywhere false (allOf [.without (firstOf [.word w, .word "\\"]), .any])
      (Peg.read reference (.seq (.unless (.alt (char q) (char '\\'))) (.one fun _ => true))) :=
    ((Agrees.char hw).or (.char rfl)).without.seq (leads_everywhere _) hany
  exact .star (Peg.read_passing hpass _ rfl) (hescape.or hplain) (leads_everywhere _)

theorem agrees_string : Agrees P spaced (.rule .string) (Peg.read reference string) := by
  have hsingle : Agrees Everywhere false (allOf [.word "\x27", .rule .singleInner, .word "\x27"])
      (Peg.read reference (quoted '\x27')) :=
    .seq (.char rfl) (leads_everywhere _)
      (.seq (.atomic rfl (agrees_innerBody hpass rfl)) (leads_everywhere _) (.char rfl))
  have hdouble : Agrees Everywhere false (allOf [.word "\x22", .rule .doubleInner, .word "\x22"])
      (Peg.read reference (quoted '\x22')) :=
    .seq (.char rfl) (leads_everywhere _)
      (.seq (.atomic rfl (agrees_innerBody hpass rfl)) (leads_everywhere _) (.char rfl))
  exact .compound rfl (hsingle.or hdouble).anywhere

theorem agrees_literal : Agrees P spaced (.rule .literal)
    (Peg.read reference (Peg.choice [nullLiteral, boolLiteral, float, int, string])) :=
  .silent rfl (agrees_null.or (agrees_bool.or ((agrees_float hpass).or ((agrees_int hpass).or
    (agrees_string hpass)))))

end

/-! The rules with blanks between their parts. -/

/-- Parentheses that follow stay within the limit, and so many are open. -/
def Within (limit d : Nat) (s : Text) : Prop := nestsWithin limit d .outside s = true

/-- Blanks open and close nothing. -/
theorem nestsWithin_dropWhile (s : Text) :
    nestsWithin limit d .outside (s.dropWhile isWhitespace) = nestsWithin limit d .outside s := by
  induction s with
  | nil => rfl
  | cons c s ih =>
    by_cases hc : isWhitespace c = true
    · rw [List.dropWhile_cons_of_pos hc, ih]
      rw [isWhitespace_eq] at hc
      rcases isSpace_cases hc with rfl | rfl | rfl | rfl <;> rfl
    · rw [List.dropWhile_cons_of_neg hc]

theorem blankFree_within : BlankFree (Within limit d) := fun s hs => by
  rw [Within, nestsWithin_dropWhile]
  exact hs

def Inside (limit d : Nat) (s : Text) : Prop := d < limit ∧ Within limit (d + 1) s

theorem blankFree_inside : BlankFree (Inside limit d) := fun s hs => ⟨hs.1, blankFree_within s hs.2⟩

/-- Behind an opening parenthesis one more is open, which the limit admits. -/
theorem leads_parenthesis : Leads (Within limit d) (Peg.read reference (char '(')) (Inside limit d) := by
  intro p q ts hp hr
  rw [char, read_one] at hr
  split at hr
  · next c rest hrest =>
    split at hr
    · next hc =>
      cases hr
      simp only [decide_eq_true_eq] at hc
      subst hc
      rw [Within, hrest, nestsWithin] at hp
      simpa [Inside, Within] using hp
    · cases hr
  · cases hr

/-- What weighs its trees closes what it opens. -/
theorem leads_of_weighs {reading : Reading Rule} (hd : d ≤ limit) (h : Reads Weighs reading) :
    Leads (Within limit d) reading (Within limit d) := by
  intro p q ts hp hr
  obtain ⟨w, hw, hweighs⟩ := h p q ts hr
  rw [Within, hw.rest, hweighs limit d q.rest hd] at hp
  exact hp.2

section

variable (hpass : Peg.Passing reference) (hd : d ≤ limit)
include hpass hd

/-- Operands with one kind of operator between them. -/
theorem agrees_chain {operand operator : Grammar} {x op : Phrase} (hq : quiet operator = true)
    (hb : operator.passes = true) (hop : Agrees (Within limit d) true op (Peg.read reference operator))
    (hw : Reads Weighs (Peg.read reference operand))
    (hx : Agrees (Within limit d) true x (Peg.read reference operand)) :
    Agrees (Within limit d) true (allOf [x, .star (allOf [op, x])])
      (Peg.read reference (next operand (many (next operator operand)))) := by
  have hturn : Agrees (Within limit d) true (allOf [op, x]) (Peg.read reference (next operator operand)) :=
    .next hpass hop (leads_of_weighs hd (weighs_quiet hq)) blankFree_within hx
  have hturns : Agrees (Within limit d) true (.star (allOf [op, x]))
      (Peg.read reference (many (next operator operand))) :=
    .many hpass (by simp [next, Peg.passes, hb]) hturn
      (leads_of_weighs hd (weighs_next (weighs_quiet hq) hw)) blankFree_within
  exact .next hpass hx (leads_of_weighs hd hw) blankFree_within hturns

/-- Operators of one kind before an operand. -/
theorem agrees_prefixed {operand operator : Grammar} {x op : Phrase} (hq : quiet operator = true)
    (hb : operator.passes = true) (hop : Agrees (Within limit d) true op (Peg.read reference operator))
    (hx : Agrees (Within limit d) true x (Peg.read reference operand)) :
    Agrees (Within limit d) true (allOf [.star op, x]) (Peg.read reference (next (many operator) operand)) := by
  have hw : Reads Weighs (Peg.read reference operator) := weighs_quiet hq
  exact .next hpass (.many hpass hb hop (leads_of_weighs hd hw) blankFree_within)
    (leads_of_weighs hd (weighs_many hw)) blankFree_within hx

variable (hagain : d < limit → Agrees (Within limit (d + 1)) true (.rule .orExpr) reference)
include hagain

omit hd in
/-- Inside parentheses the grammar refers back to the whole; the limit pays for the level. -/
theorem agrees_parentheses : Agrees (Within limit d) true (allOf [.word "(", .rule .orExpr, .word ")"])
    (Peg.read reference (next (char '(') (next .again (char ')')))) := by
  have hinside : Agrees (Inside limit d) true (allOf [.rule .orExpr, .word ")"])
      (Peg.read reference (next .again (char ')'))) :=
    .next hpass (fun p hp => hagain hp.1 p hp.2) (leads_everywhere _) blankFree_everywhere (.char rfl)
  exact .next hpass (.char rfl) leads_parenthesis blankFree_inside hinside

omit hagain in
theorem agrees_path : Agrees (Within limit d) true (.rule .path) (Peg.read reference Grammar.path) := by
  have hname : Agrees (Within limit d) true (firstOf [.rule .ident, .rule .index])
      (Peg.read reference (.alt ident index)) := (agrees_ident hpass).or (agrees_index hpass)
  have hkey : Agrees (Within limit d) true (firstOf [.rule .index, .rule .string])
      (Peg.read reference (.alt index string)) := (agrees_index hpass).or (agrees_string hpass)
  have hdot : Agrees (Within limit d) true (allOf [.word ".", firstOf [.rule .ident, .rule .index]])
      (Peg.read reference (next (char '.') (.alt ident index))) :=
    .next hpass (.char rfl) (leads_of_weighs hd (weighs_quiet (by decide))) blankFree_within hname
  have hclose : Agrees (Within limit d) true (allOf [firstOf [.rule .index, .rule .string], .word "]"])
      (Peg.read reference (next (.alt index string) (char ']'))) :=
    .next hpass hkey (leads_everywhere _) blankFree_everywhere (.char rfl)
  have hbracket : Agrees (Within limit d) true
      (allOf [.word "[", firstOf [.rule .index, .rule .string], .word "]"])
      (Peg.read reference (next (char '[') (next (.alt index string) (char ']')))) :=
    .next hpass (.char rfl) (leads_of_weighs hd (weighs_quiet (by decide))) blankFree_within hclose
  have hsegment : Agrees (Within limit d) true (.rule .pathSegment) (Peg.read reference pathSegment) :=
    .silent rfl (hdot.or hbracket)
  have hsegments : Agrees (Within limit d) true (.star (.rule .pathSegment))
      (Peg.read reference (many pathSegment)) :=
    .many hpass rfl hsegment (leads_of_weighs hd weighs_pathSegment) blankFree_within
  have hnames : Agrees (Within limit d) true (allOf [.rule .ident, .star (.rule .pathSegment)])
      (Peg.read reference (next ident (many pathSegment))) :=
    .next hpass (agrees_ident hpass) (leads_of_weighs hd (weighs_quiet (by decide))) blankFree_within hsegments
  exact .shown rfl (.next hpass agrees_keyword.without (leads_of_weighs hd (weighs_quiet rfl)) blankFree_within
    hnames)

theorem agrees_primary : Agrees (Within limit d) true (.rule .primary) (Peg.read reference primary) := by
  have hall := (agrees_literal hpass).or ((agrees_parentheses hpass hagain).or (agrees_path hpass hd))
  refine .silent rfl fun p hp => ?_
  have hassoc : Peg.read reference primary p = Peg.read reference
      (.alt (Peg.choice [nullLiteral, boolLiteral, float, int, string])
        (.alt (next (char '(') (next .again (char ')'))) Grammar.path)) p := by
    simp only [primary, Peg.choice, read_alt, Option.or_assoc]
  rw [hassoc]
  exact hall p hp

variable (henclosed : Reads Enclosed reference)

theorem agrees_unary : Agrees (Within limit d) true (.rule .unary) (Peg.read reference unary) :=
  .shown rfl (agrees_prefixed hpass hd (by decide) rfl agrees_negOp (agrees_primary hpass hd hagain))

include henclosed

theorem agrees_additive : Agrees (Within limit d) true (.rule .additive) (Peg.read reference additive) :=
  .shown rfl (agrees_chain hpass hd (by decide) rfl agrees_addOp (weighs_unary henclosed)
    (agrees_unary hpass hd hagain))

theorem agrees_comparison :
    Agrees (Within limit d) true (.rule .comparison) (Peg.read reference comparison) := by
  have hadditive := agrees_additive hpass hd hagain henclosed
  have hright : Agrees (Within limit d) true (allOf [.rule .compareOp, .rule .additive])
      (Peg.read reference (next Grammar.compareOp additive)) :=
    .next hpass agrees_compareOp (leads_of_weighs hd (weighs_quiet (by decide))) blankFree_within hadditive
  exact .shown rfl (.next hpass hadditive (leads_of_weighs hd (weighs_additive henclosed)) blankFree_within
    hright.optional)

theorem agrees_notExpr : Agrees (Within limit d) true (.rule .notExpr) (Peg.read reference notExpr) :=
  .shown rfl (agrees_prefixed hpass hd (by decide) rfl agrees_notOp
    (agrees_comparison hpass hd hagain henclosed))

theorem agrees_andExpr : Agrees (Within limit d) true (.rule .andExpr) (Peg.read reference andExpr) :=
  .shown rfl (agrees_chain hpass hd (by decide) rfl agrees_andOp (weighs_notExpr henclosed)
    (agrees_notExpr hpass hd hagain henclosed))

theorem agrees_orExpr : Agrees (Within limit d) true (.rule .orExpr) (Peg.read reference orExpr) :=
  .shown rfl (agrees_chain hpass hd (by decide) rfl agrees_orOp (weighs_andExpr henclosed)
    (agrees_andExpr hpass hd hagain henclosed))

end

/-- Each pair of parentheses takes one of the levels that are left, and the limit counts both. -/
theorem agrees_level (level : Nat) (h : level + d = limit) :
    Agrees (Within limit d) true (.rule .orExpr) (Peg.readLevel orExpr (level + 1)) := by
  induction level generalizing d with
  | zero =>
    -- The innermost level: as many parentheses are open as the limit admits.
    refine agrees_orExpr (Peg.readLevel_passing rfl 0) (by omega) (fun hlt => ?_) (enclosed_level 0)
    omega
  | succ level ih =>
    refine agrees_orExpr (Peg.readLevel_passing rfl _) (by omega) (fun hlt => ?_) (enclosed_level _)
    exact ih (by omega)

/-- Within the limit on parentheses the grammar derives what it reads. -/
theorem derives_expression {s : Text} (h : nestsWithin limit 0 .outside s = true) :
    Derives true (.rule .expression) ⟨0, s⟩
      (Peg.read (Peg.readLevel orExpr (limit + 1)) Grammar.expression ⟨0, s⟩) := by
  have hpass : Peg.Passing (Peg.readLevel orExpr (limit + 1)) := Peg.readLevel_passing rfl _
  have hended : Agrees Everywhere true .ending
      (Peg.read (Peg.readLevel orExpr (limit + 1)) (.token .ending .ended)) := by
    intro p _
    rw [Peg.read_token, Peg.read]
    by_cases hr : p.rest = []
    · simpa [hr] using Derives.ending hr
    · simpa [hr] using Derives.endingFails hr
  have hexpr : Agrees (Within limit 0) true (.rule .orExpr)
      (Peg.read (Peg.readLevel orExpr (limit + 1)) .again) := agrees_level limit (Nat.add_zero limit)
  have hparts : Agrees (Within limit 0) true (allOf [.rule .orExpr, .ending])
      (Peg.read (Peg.readLevel orExpr (limit + 1)) (next .again (.token .ending .ended))) :=
    .next hpass hexpr (leads_everywhere _) blankFree_everywhere hended
  have hstart : Derives true (allOf [.start, .rule .orExpr, .ending]) ⟨0, s⟩
      (Peg.read (Peg.readLevel orExpr (limit + 1))
        (.seq spaces (next .again (.token .ending .ended))) ⟨0, s⟩) := by
    have hrest := hparts (skip true ⟨0, s⟩) (skip_rest blankFree_within (p := ⟨0, s⟩) h)
    rw [read_behind_spaces hpass]
    cases hread : Peg.read (Peg.readLevel orExpr (limit + 1)) (next .again (.token .ending .ended))
        (skip true ⟨0, s⟩) with
    | none => exact .secondFails (.start rfl) (hread ▸ hrest)
    | some r => exact .seq (.start rfl) (hread ▸ hrest)
  exact derives_rule true .expression hstart

/-- From every text the rules derive one thing, a tree or a failure. -/
theorem existsUnique_derives (s : Text) : ∃! x, Derives true (.rule .expression) ⟨0, s⟩ x := by
  have hwithin : nestsWithin s.length 0 .outside s = true := nestsWithin_of_length _ s (by omega)
  exact ⟨_, derives_expression hwithin, fun _ h => h.deterministic (derives_expression hwithin)⟩

end DynamicSql.Expr
