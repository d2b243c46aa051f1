import DynamicSql.Proofs.Expr.Agreement
import Mathlib.Logic.Relation

/-!
How far the rules go into parentheses on any text, also where they fail or take another choice. Whatever is asked
for on the way is an attempt. Main statement: on a text whose parentheses nest within the limit, no attempt
stands inside more of them than the limit admits.
-/
namespace DynamicSql.Expr

open Peg (Place Reading Reads)
open Grammar
open Phrase (allOf)
open Relation (ReflTransGen)

/-- A phrase that is asked for at a place, and how many parentheses are open around it. -/
structure Attempt where
  opened : Nat
  spaced : Bool
  phrase : Phrase
  place : Place

/-- What follows a parenthesis in its own rule stands inside it. -/
def Phrase.opens : Phrase → Nat
  | .word w => if w = "(" then 1 else 0
  | _ => 0

/--
What an attempt asks for itself. A second part is asked for behind a first one that was derived, a second
choice where the first one failed.
-/
inductive Asks : Attempt → Attempt → Prop
  | rule {k spaced name p} : Asks ⟨k, spaced, .rule name, p⟩
      ⟨k, (production name).kind.spaced spaced, (production name).body, p⟩
  | first {k spaced first second p} : Asks ⟨k, spaced, .seq first second, p⟩ ⟨k, spaced, first, p⟩
  | second {k spaced first second p q ts} (h : Derives spaced first p (some (q, ts))) :
      Asks ⟨k, spaced, .seq first second, p⟩ ⟨k + first.opens, spaced, second, skip spaced q⟩
  | orFirst {k spaced first second p} : Asks ⟨k, spaced, .or first second, p⟩ ⟨k, spaced, first, p⟩
  | orSecond {k spaced first second p} (h : Derives spaced first p none) :
      Asks ⟨k, spaced, .or first second, p⟩ ⟨k, spaced, second, p⟩
  | optional {k spaced body p} : Asks ⟨k, spaced, .optional body, p⟩ ⟨k, spaced, body, p⟩
  | star {k spaced body p} : Asks ⟨k, spaced, .star body, p⟩ ⟨k, spaced, body, p⟩
  | starMore {k spaced body p q ts} (h : Derives spaced body p (some (q, ts))) :
      Asks ⟨k, spaced, .star body, p⟩ ⟨k, spaced, .more body, q⟩
  | more {k spaced body p} : Asks ⟨k, spaced, .more body, p⟩ ⟨k, spaced, body, skip spaced p⟩
  | moreMore {k spaced body p q ts} (h : Derives spaced body (skip spaced p) (some (q, ts))) :
      Asks ⟨k, spaced, .more body, p⟩ ⟨k, spaced, .more body, q⟩
  | without {k spaced body p} : Asks ⟨k, spaced, .without body, p⟩ ⟨k, spaced, body, p⟩

/-- What is asked for, sooner or later, where a text is read as an expression. -/
def Attempted (s : Text) : Attempt → Prop := ReflTransGen Asks ⟨0, true, .rule .expression, ⟨0, s⟩⟩

/-! Phrases that ask for no parenthesis. -/

def RuleName.parenFree : RuleName → Bool
  | .expression | .orExpr | .andExpr | .notExpr | .comparison | .additive | .unary | .primary => false
  | _ => true

def Phrase.parenFree : Phrase → Bool
  | .word w => w != "("
  | .one _ | .start | .ending => true
  | .rule name => name.parenFree
  | .seq first second | .or first second => first.parenFree && second.parenFree
  | .optional body | .star body | .more body | .without body => body.parenFree

/-! Phrases on the way to parentheses. -/

/-- Where the parentheses that follow stay within the limit, they still do behind the phrase. -/
def Keeps (limit : Nat) (e : Phrase) : Prop :=
  ∀ d p q ts, d ≤ limit → Within limit d p.rest → Derives true e p (some (q, ts)) → Within limit d q.rest

/--
A phrase that is asked for where the parentheses that follow are within the limit, and that asks for its parts
where they still are; a last part without parentheses may stand anywhere.
-/
inductive Guarded (limit : Nat) : Phrase → Prop
  | free {e} (h : e.parenFree = true) : Guarded limit e
  | word {w} : Guarded limit (.word w)
  | rule {name} : Guarded limit (.rule name)
  | seq {e e'} (h : Guarded limit e) (ho : e.opens = 0) (hk : Keeps limit e) (h' : Guarded limit e') :
      Guarded limit (.seq e e')
  | parenthesis {e'} (h' : Guarded limit e') : Guarded limit (.seq (.word "(") e')
  | last {e e'} (h : Guarded limit e) (ho : e.opens = 0) (h' : e'.parenFree = true) : Guarded limit (.seq e e')
  | or {e e'} (h : Guarded limit e) (h' : Guarded limit e') : Guarded limit (.or e e')
  | optional {e} (h : Guarded limit e) : Guarded limit (.optional e)
  | star {e} (h : Guarded limit e) (hk : Keeps limit e) : Guarded limit (.star e)
  | more {e} (h : Guarded limit e) (hk : Keeps limit e) : Guarded limit (.more e)

variable {limit d : Nat} {e e' : Phrase} {name : RuleName} {a b : Attempt} {s : Text}

/-- A rule that opens no parenthesis has none in its body. -/
theorem parenFree_production (h : name.parenFree = true) : (production name).body.parenFree = true := by
  cases name <;> first | rfl | cases h

theorem opens_of_parenFree (h : e.parenFree = true) : e.opens = 0 := by
  cases e with
  | word w => simpa [Phrase.opens, Phrase.parenFree] using h
  | _ => rfl

/-- Without parentheses an attempt opens none, and asks for nothing that does. -/
theorem Asks.of_parenFree (h : Asks a b) (ha : a.phrase.parenFree = true) :
    b.opened = a.opened ∧ b.phrase.parenFree = true := by
  cases h with
  | rule => exact ⟨rfl, parenFree_production ha⟩
  | first | orFirst | orSecond =>
    simp only [Phrase.parenFree, Bool.and_eq_true] at ha
    simp [ha]
  | second =>
    simp only [Phrase.parenFree, Bool.and_eq_true] at ha
    exact ⟨by simp [opens_of_parenFree ha.1], ha.2⟩
  | optional | star | starMore | more | moreMore | without => exact ⟨rfl, ha⟩

namespace Keeps

/-- Of a phrase that a machine reads as well, from its trees. -/
theorem of_agrees (h : ∀ d ≤ limit, ∃ reading : Reading Rule,
    Agrees (Within limit d) true e reading ∧ Reads Weighs reading) : Keeps limit e := by
  intro d p q ts hd hp hderives
  obtain ⟨reading, hagrees, hweighs⟩ := h d hd
  exact leads_of_weighs hd hweighs p q ts hp ((hagrees p hp).deterministic hderives)

theorem seq (h : Keeps limit e) (h' : Keeps limit e') : Keeps limit (.seq e e') := by
  intro d p q ts hd hp hderives
  cases hderives with
  | seq hf hs => exact h' d _ _ _ hd (skip_rest blankFree_within (h d _ _ _ hd hp hf)) hs

theorem more (h : Keeps limit e) : Keeps limit (.more e) := by
  intro d p q ts hd hp hderives
  generalize hx : (some (q, ts) : Option (Place × List Tree)) = x at hderives
  generalize hm : Phrase.more e = phrase at hderives
  generalize ht : true = spaced at hderives
  induction hderives generalizing q ts with
  | more hf hs _ ih =>
    cases hm
    cases ht
    cases hx
    exact ih _ _ (h d _ _ _ hd (skip_rest blankFree_within hp) hf) rfl rfl rfl
  | moreEmpty =>
    cases hm
    cases hx
    exact hp
  | _ => cases hm

theorem star (h : Keeps limit e) : Keeps limit (.star e) := by
  intro d p q ts hd hp hderives
  cases hderives with
  | star hf hs => exact h.more d _ _ _ hd (h d _ _ _ hd hp hf) hs
  | starEmpty => exact hp

/-- What passes no quote and no parenthesis leaves the nesting as it is. -/
theorem of_quiet {g : Grammar} (hq : quiet g = true)
    (h : ∀ d, Agrees (Within limit d) true e (Peg.read (fun _ => none) g)) : Keeps limit e :=
  of_agrees fun d _ => ⟨_, h d, weighs_quiet hq⟩

end Keeps

/-- What the machine reads behind a parenthesis, where one more is admitted. -/
theorem agrees_inside (h : d < limit) :
    Agrees (Within limit (d + 1)) true (.rule .orExpr) (Peg.readLevel orExpr (limit - d)) := by
  obtain ⟨level, rfl⟩ : ∃ level, limit = level + (d + 1) := ⟨limit - (d + 1), by omega⟩
  have hlevel : level + (d + 1) - d = level + 1 := by omega
  rw [hlevel]
  exact agrees_level level rfl

theorem passing_inside (limit d : Nat) : Peg.Passing (Peg.readLevel orExpr (limit - d)) :=
  Peg.readLevel_passing rfl _

/-- The layers keep the limit, because what they read weighs what its trees do. -/
theorem keeps_unary : Keeps limit (.rule .unary) :=
  .of_agrees fun d hd => ⟨_, agrees_unary (passing_inside limit d) hd agrees_inside,
    weighs_unary (enclosed_level _)⟩

theorem keeps_additive : Keeps limit (.rule .additive) :=
  .of_agrees fun d hd => ⟨_, agrees_additive (passing_inside limit d) hd agrees_inside (enclosed_level _),
    weighs_additive (enclosed_level _)⟩

theorem keeps_notExpr : Keeps limit (.rule .notExpr) :=
  .of_agrees fun d hd => ⟨_, agrees_notExpr (passing_inside limit d) hd agrees_inside (enclosed_level _),
    weighs_notExpr (enclosed_level _)⟩

theorem keeps_andExpr : Keeps limit (.rule .andExpr) :=
  .of_agrees fun d hd => ⟨_, agrees_andExpr (passing_inside limit d) hd agrees_inside (enclosed_level _),
    weighs_andExpr (enclosed_level _)⟩

namespace Guarded

/-- Operands with one kind of operator between them. -/
theorem chain {x op : RuleName} (hx : Keeps limit (.rule x)) (hop : Keeps limit (.rule op)) :
    Guarded limit (allOf [.rule x, .star (allOf [.rule op, .rule x])]) :=
  .seq .rule rfl hx (.star (.seq .rule rfl hop .rule) (hop.seq hx))

/-- Operators of one kind before an operand. -/
theorem prefixed {x op : RuleName} (hop : Keeps limit (.rule op)) :
    Guarded limit (allOf [.star (.rule op), .rule x]) :=
  .seq (.star .rule hop) rfl hop.star .rule

end Guarded

/-- Every rule with parentheses asks for them only where the limit admits them. -/
theorem guarded_production (limit : Nat) (h : name.parenFree = false) :
    (production name).kind.spaced true = true ∧ Guarded limit (production name).body := by
  have horOp : Keeps limit (.rule .orOp) := .of_quiet (by decide) fun d => agrees_orOp
  have handOp : Keeps limit (.rule .andOp) := .of_quiet (by decide) fun d => agrees_andOp
  have hnotOp : Keeps limit (.rule .notOp) := .of_quiet (by decide) fun d => agrees_notOp
  have hcompareOp : Keeps limit (.rule .compareOp) := .of_quiet (by decide) fun d => agrees_compareOp
  have haddOp : Keeps limit (.rule .addOp) := .of_quiet (by decide) fun d => agrees_addOp
  have hnegOp : Keeps limit (.rule .negOp) := .of_quiet (by decide) fun d => agrees_negOp
  have hstart : Keeps limit .start := by
    intro d p q ts _ hp hderives
    cases hderives with
    | start => exact hp
  cases name with
  | expression => exact ⟨rfl, .seq (.free rfl) rfl hstart (.last .rule rfl rfl)⟩
  | orExpr => exact ⟨rfl, .chain keeps_andExpr horOp⟩
  | andExpr => exact ⟨rfl, .chain keeps_notExpr handOp⟩
  | notExpr => exact ⟨rfl, .prefixed hnotOp⟩
  | comparison => exact ⟨rfl, .seq .rule rfl keeps_additive (.optional (.seq .rule rfl hcompareOp .rule))⟩
  | additive => exact ⟨rfl, .chain keeps_unary haddOp⟩
  | unary => exact ⟨rfl, .prefixed hnegOp⟩
  | primary => exact ⟨rfl, .or .rule (.or (.parenthesis (.last .rule rfl rfl)) .rule)⟩
  | _ => cases h

/-- An opening parenthesis that was derived is one that the limit admits. -/
theorem inside_of_parenthesis {p q : Place} {ts : List Tree} (hp : Within limit d p.rest)
    (h : Derives true (.word "(") p (some (q, ts))) : Inside limit d q.rest := by
  have hagrees : Agrees (Within limit d) true (.word "(") (Peg.read (fun _ => none) (char '(')) := .char rfl
  exact leads_parenthesis p q ts hp ((hagrees p hp).deterministic h)

/-- Within the limit, and so are the parentheses that follow where the attempt may go into them. -/
structure Attempt.Bounded (limit : Nat) (a : Attempt) : Prop where
  opened : a.opened ≤ limit
  guarded : a.phrase.parenFree = true ∨
    a.spaced = true ∧ Guarded limit a.phrase ∧ Within limit a.opened a.place.rest

/-- Attempts without parentheses stay as deep as they are. -/
theorem Asks.bounded_of_parenFree (h : Asks a b) (ha : a.opened ≤ limit) (hf : a.phrase.parenFree = true) :
    b.Bounded limit := by
  obtain ⟨hk, hb⟩ := h.of_parenFree hf
  exact ⟨hk ▸ ha, .inl hb⟩

/-- What an attempt does next stays within the limit. -/
theorem Asks.bounded (h : Asks a b) (ha : a.Bounded limit) : b.Bounded limit := by
  obtain ⟨k, spaced, e, p⟩ := a
  obtain ⟨hk, hf | ⟨hs, hguarded, hw⟩⟩ := ha
  · exact h.bounded_of_parenFree hk hf
  simp only at hk hs hguarded hw
  subst hs
  cases hguarded with
  | free hf => exact h.bounded_of_parenFree hk hf
  | word => cases h
  | rule =>
    next name =>
    cases hn : name.parenFree with
    | true => exact h.bounded_of_parenFree hk hn
    | false =>
      obtain ⟨hspaced, hbody⟩ := guarded_production limit hn
      cases h
      exact ⟨hk, .inr ⟨hspaced, hbody, hw⟩⟩
  | seq hg ho hkeeps hg' =>
    cases h with
    | first => exact ⟨hk, .inr ⟨rfl, hg, hw⟩⟩
    | second hd =>
      have hq := skip_rest blankFree_within (hkeeps k _ _ _ hk hw hd)
      exact ⟨by simpa [ho] using hk, .inr ⟨rfl, hg', by simpa [ho] using hq⟩⟩
  | parenthesis hg' =>
    cases h with
    | first => exact ⟨hk, .inr ⟨rfl, .word, hw⟩⟩
    | second hd =>
      obtain ⟨hlt, hq⟩ := inside_of_parenthesis hw hd
      exact ⟨hlt, .inr ⟨rfl, hg', skip_rest blankFree_within hq⟩⟩
  | last hg ho hf =>
    cases h with
    | first => exact ⟨hk, .inr ⟨rfl, hg, hw⟩⟩
    | second => exact ⟨by simpa [ho] using hk, .inl hf⟩
  | or hg hg' =>
    cases h with
    | orFirst => exact ⟨hk, .inr ⟨rfl, hg, hw⟩⟩
    | orSecond => exact ⟨hk, .inr ⟨rfl, hg', hw⟩⟩
  | optional hg =>
    cases h with
    | optional => exact ⟨hk, .inr ⟨rfl, hg, hw⟩⟩
  | star hg hkeeps =>
    cases h with
    | star => exact ⟨hk, .inr ⟨rfl, hg, hw⟩⟩
    | starMore hd => exact ⟨hk, .inr ⟨rfl, .more hg hkeeps, hkeeps k _ _ _ hk hw hd⟩⟩
  | more hg hkeeps =>
    have hskip := skip_rest blankFree_within hw
    cases h with
    | more => exact ⟨hk, .inr ⟨rfl, hg, hskip⟩⟩
    | moreMore hd => exact ⟨hk, .inr ⟨rfl, .more hg hkeeps, hkeeps k _ _ _ hk hskip hd⟩⟩

/-- On a text that nests within the limit nothing is attempted deeper, whatever comes of it. -/
theorem Attempted.bounded (h : Attempted s a) (hs : Within limit 0 s) : a.Bounded limit := by
  induction h with
  | refl => exact ⟨Nat.zero_le limit, .inr ⟨rfl, .rule, hs⟩⟩
  | tail _ hasks ih => exact hasks.bounded ih

/-- An attempt that comes to an end is one whose own attempts do. -/
theorem Asks.derives (h : Asks a b) (ha : ∃ x, Derives a.spaced a.phrase a.place x) :
    ∃ x, Derives b.spaced b.phrase b.place x := by
  obtain ⟨x, hx⟩ := ha
  cases h with
  | rule =>
    cases hx with
    | rule hbody | ruleFails hbody => exact ⟨_, hbody⟩
  | first =>
    cases hx with
    | seq hf | firstFails hf | secondFails hf => exact ⟨_, hf⟩
  | second hd =>
    cases hx with
    | seq hf hs | secondFails hf hs =>
      cases hd.deterministic hf
      exact ⟨_, hs⟩
    | firstFails hf => cases hd.deterministic hf
  | orFirst =>
    cases hx with
    | orFirst hf | orSecond hf => exact ⟨_, hf⟩
  | orSecond hd =>
    cases hx with
    | orFirst hf => cases hd.deterministic hf
    | orSecond _ hs => exact ⟨_, hs⟩
  | optional =>
    cases hx with
    | optional hb | absent hb => exact ⟨_, hb⟩
  | star =>
    cases hx with
    | star hb | starEmpty hb => exact ⟨_, hb⟩
  | starMore hd =>
    cases hx with
    | star hb hs =>
      cases hd.deterministic hb
      exact ⟨_, hs⟩
    | starEmpty hb => cases hd.deterministic hb
  | more =>
    cases hx with
    | more hb | moreEmpty hb => exact ⟨_, hb⟩
  | moreMore hd =>
    cases hx with
    | more hb hs =>
      cases hd.deterministic hb
      exact ⟨_, hs⟩
    | moreEmpty hb => cases hd.deterministic hb
  | without =>
    cases hx with
    | without hb | withoutFails hb => exact ⟨_, hb⟩

/-- Every attempt comes to an end, on any text. -/
theorem Attempted.derives (h : Attempted s a) : ∃ x, Derives a.spaced a.phrase a.place x := by
  induction h with
  | refl => exact (existsUnique_derives s).exists
  | tail _ hasks ih => exact hasks.derives ih

/-! Without a limit every depth is reached. -/

/-- An expression that begins with a parenthesis leads to the one inside it. -/
theorem asks_inside {k n : Nat} {r : Text} : ReflTransGen Asks ⟨k, true, .rule .orExpr, ⟨n, '(' :: r⟩⟩
    ⟨k + 1, true, .rule .orExpr, skip true ⟨n + 1, r⟩⟩ := by
  have hnone : Peg.Passing (fun _ => none : Reading Rule) := fun _ _ _ h => nomatch h
  have hagreesNot : Agrees Everywhere true (.rule .notOp) (Peg.read (fun _ => none) notOp) := agrees_notOp
  have hagreesNeg : Agrees Everywhere true (.rule .negOp) (Peg.read (fun _ => none) negOp) := agrees_negOp
  have hnotOp : Derives true (.rule .notOp) ⟨n, '(' :: r⟩ none := hagreesNot _ trivial
  have hnegOp : Derives true (.rule .negOp) ⟨n, '(' :: r⟩ none := hagreesNeg _ trivial
  have hliteral : Derives true (.rule .literal) ⟨n, '(' :: r⟩ none :=
    agrees_literal (P := Everywhere) hnone _ trivial
  have hopen : Derives true (.word "(") ⟨n, '(' :: r⟩ (some (⟨n + 1, r⟩, [])) := .word rfl
  have hcomparison : ReflTransGen Asks ⟨k, true, .rule .orExpr, ⟨n, '(' :: r⟩⟩
      ⟨k, true, .rule .comparison, ⟨n, '(' :: r⟩⟩ :=
    .head .rule (.head .first (.head .rule (.head .first (.head .rule (.single (.second (.starEmpty hnotOp)))))))
  have hprimary : ReflTransGen Asks ⟨k, true, .rule .comparison, ⟨n, '(' :: r⟩⟩
      ⟨k, true, .rule .primary, ⟨n, '(' :: r⟩⟩ :=
    .head .rule (.head .first (.head .rule (.head .first (.head .rule (.single (.second (.starEmpty hnegOp)))))))
  have hinside : ReflTransGen Asks ⟨k, true, .rule .primary, ⟨n, '(' :: r⟩⟩
      ⟨k + 1, true, .rule .orExpr, skip true ⟨n + 1, r⟩⟩ :=
    .head .rule (.head (.orSecond hliteral) (.head .orFirst (.head (.second hopen) (.single .first))))
  exact (hcomparison.trans hprimary).trans hinside

/-- As many parentheses as a text begins with are asked for one inside the other. -/
theorem asks_parentheses (k p n : Nat) (r : Text) :
    ReflTransGen Asks ⟨k, true, .rule .orExpr, skip true ⟨p, List.replicate n '(' ++ r⟩⟩
      ⟨k + n, true, .rule .orExpr, skip true ⟨p + n, r⟩⟩ := by
  induction n generalizing k p with
  | zero => exact .refl
  | succ n ih =>
    have hrest := ih (k + 1) (p + 1)
    rw [Nat.add_right_comm k, Nat.add_right_comm p] at hrest
    exact asks_inside.trans hrest

/-- Behind so many parentheses as a text begins with an expression is asked for inside them all. -/
theorem attempted_parentheses (n : Nat) (r : Text) :
    Attempted (List.replicate n '(' ++ r) ⟨n, true, .rule .orExpr, skip true ⟨n, r⟩⟩ := by
  have hlevels := asks_parentheses 0 0 n r
  rw [Nat.zero_add] at hlevels
  exact .head .rule (.head (.second (.start rfl)) (.head .first hlevels))

end DynamicSql.Expr
