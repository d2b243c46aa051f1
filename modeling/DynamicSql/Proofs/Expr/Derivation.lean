import DynamicSql.Expr.Parsing

/-!
The language of expressions, told by its rules alone: rules that name each other, ordered choice, greedy
repetition, and blanks that may stand between the parts of every rule that is not a token. What a rule derives
at a place is a relation, without a machine and without a limit. Main statement: a rule derives at most one
thing at a place.
-/
namespace DynamicSql.Expr

open Peg (Place)

/-- The rules by their names; some of them leave no tree. -/
inductive RuleName where
  | expression | orExpr | andExpr | notExpr | comparison | additive | unary | primary
  | orOp | andOp | notOp | compareOp | addOp | negOp
  | literal | null | bool | float | int | string | singleInner | doubleInner
  | path | pathSegment | ident | index | identChar | keyword
  deriving DecidableEq, Repr

/-- What a rule asks for at a place. -/
inductive Phrase where
  | word (w : String)
  | one (accepts : Char → Bool)
  | start
  | ending
  | rule (name : RuleName)
  | seq (first second : Phrase)
  /-- The second only where the first fails. -/
  | or (first second : Phrase)
  | optional (body : Phrase)
  | star (body : Phrase)
  /-- The further turns of a repetition, each behind its blanks. -/
  | more (body : Phrase)
  /-- Passes nothing, where the body fails. -/
  | without (body : Phrase)

namespace Phrase

def allOf : List Phrase → Phrase
  | [] => .word ""
  | [e] => e
  | e :: others => .seq e (allOf others)

def firstOf : List Phrase → Phrase
  | [] => .one fun _ => false
  | [e] => e
  | e :: others => .or e (firstOf others)

def any : Phrase := .one fun _ => true

def atLeastOnce (body : Phrase) : Phrase := .seq body (.star body)

end Phrase

/-- The tree that a rule leaves, and whether blanks may stand inside it. -/
inductive Kind where
  /-- A node; blanks as where the rule is asked for. -/
  | shown (rule : Rule)
  /-- No tree of its own; blanks as where the rule is asked for. -/
  | silent
  /-- A leaf, without blanks. -/
  | atomic (rule : Rule)
  /-- A node, without blanks. -/
  | compound (rule : Rule)
  deriving DecidableEq, Repr

structure Production where
  kind : Kind
  body : Phrase

namespace Kind

def spaced : Kind → Bool → Bool
  | atomic _, _ | compound _, _ => false
  | shown _, outer | silent, outer => outer

def trees (p q : Place) (parts : List Tree) : Kind → List Tree
  | shown rule | compound rule => [.node rule p.passed parts]
  | silent => parts
  | atomic rule => [.leaf rule p.passed (p.rest.take (q.passed - p.passed))]

end Kind

open Phrase in
/-- The rules of the language, from the loosest operator to the names. -/
def production : RuleName → Production
  | .expression => ⟨.shown .expression, allOf [.start, .rule .orExpr, .ending]⟩
  | .orExpr => ⟨.shown .orExpr, allOf [.rule .andExpr, .star (allOf [.rule .orOp, .rule .andExpr])]⟩
  | .andExpr => ⟨.shown .andExpr, allOf [.rule .notExpr, .star (allOf [.rule .andOp, .rule .notExpr])]⟩
  | .notExpr => ⟨.shown .notExpr, allOf [.star (.rule .notOp), .rule .comparison]⟩
  | .comparison =>
    ⟨.shown .comparison, allOf [.rule .additive, .optional (allOf [.rule .compareOp, .rule .additive])]⟩
  | .additive => ⟨.shown .additive, allOf [.rule .unary, .star (allOf [.rule .addOp, .rule .unary])]⟩
  | .unary => ⟨.shown .unary, allOf [.star (.rule .negOp), .rule .primary]⟩
  | .primary =>
    ⟨.silent, firstOf [.rule .literal, allOf [.word "(", .rule .orExpr, .word ")"], .rule .path]⟩
  | .orOp => ⟨.atomic .orOp, firstOf [.word "||", allOf [.word "or", .without (.rule .identChar)]]⟩
  | .andOp => ⟨.atomic .andOp, firstOf [.word "&&", allOf [.word "and", .without (.rule .identChar)]]⟩
  | .notOp => ⟨.atomic .notOp, firstOf [allOf [.word "!", .without (.word "=")],
      allOf [.word "not", .without (.rule .identChar)]]⟩
  | .compareOp => ⟨.atomic .compareOp,
      firstOf [firstOf [.word "==", .word "!=", .word "<=", .word ">=", .word "<", .word ">"],
        allOf [firstOf [.word "neq", .word "eq", .word "lte", .word "lt", .word "gte", .word "gt"],
          .without (.rule .identChar)]]⟩
  | .addOp => ⟨.atomic .addOp, firstOf [.word "+", .word "-"]⟩
  | .negOp => ⟨.atomic .negOp, .word "-"⟩
  | .literal =>
    ⟨.silent, firstOf [.rule .null, .rule .bool, .rule .float, .rule .int, .rule .string]⟩
  | .null => ⟨.atomic .null, allOf [.word "null", .without (.rule .identChar)]⟩
  | .bool =>
    ⟨.atomic .bool, allOf [firstOf [.word "true", .word "false"], .without (.rule .identChar)]⟩
  | .float => ⟨.atomic .float,
      allOf [atLeastOnce (.one Char.isDigit), .word ".", atLeastOnce (.one Char.isDigit)]⟩
  | .int => ⟨.atomic .int, atLeastOnce (.one Char.isDigit)⟩
  | .string => ⟨.compound .string,
      firstOf [allOf [.word "\x27", .rule .singleInner, .word "\x27"],
        allOf [.word "\x22", .rule .doubleInner, .word "\x22"]]⟩
  | .singleInner => ⟨.atomic .inner,
      .star (firstOf [allOf [.word "\\", any],
        allOf [.without (firstOf [.word "\x27", .word "\\"]), any]])⟩
  | .doubleInner => ⟨.atomic .inner,
      .star (firstOf [allOf [.word "\\", any],
        allOf [.without (firstOf [.word "\x22", .word "\\"]), any]])⟩
  | .path => ⟨.shown .path,
      allOf [.without (.rule .keyword), .rule .ident, .star (.rule .pathSegment)]⟩
  | .pathSegment => ⟨.silent,
      firstOf [allOf [.word ".", firstOf [.rule .ident, .rule .index]],
        allOf [.word "[", firstOf [.rule .index, .rule .string], .word "]"]]⟩
  | .ident => ⟨.atomic .ident,
      allOf [firstOf [.one Char.isAlpha, .word "_", .word "$"], .star (.rule .identChar)]⟩
  | .index => ⟨.atomic .index, atLeastOnce (.one Char.isDigit)⟩
  | .identChar => ⟨.silent, firstOf [.one Char.isAlphanum, .word "_", .word "$"]⟩
  | .keyword => ⟨.atomic .keyword,
      allOf [firstOf [.word "and", .word "or", .word "not", .word "neq", .word "eq", .word "lte", .word "lt",
        .word "gte", .word "gt"], .without (.rule .identChar)]⟩

def isWhitespace (c : Char) : Bool := [' ', '\t', '\r', '\n'].contains c

def skip (spaced : Bool) (p : Place) : Place :=
  if spaced then
    ⟨p.passed + (p.rest.takeWhile isWhitespace).length, p.rest.dropWhile isWhitespace⟩
  else p

/-- A phrase leads from a place to another one with trees on the way, or fails there. -/
inductive Derives : Bool → Phrase → Place → Option (Place × List Tree) → Prop
  | word {spaced w p rest} (h : p.rest = w.toList ++ rest) :
      Derives spaced (.word w) p (some (⟨p.passed + w.toList.length, rest⟩, []))
  | wordFails {spaced w p} (h : ∀ rest, p.rest ≠ w.toList ++ rest) : Derives spaced (.word w) p none
  | one {spaced accepts p c rest} (h : p.rest = c :: rest) (hc : accepts c = true) :
      Derives spaced (.one accepts) p (some (⟨p.passed + 1, rest⟩, []))
  | oneFails {spaced accepts p} (h : ∀ c ∈ p.rest.head?, accepts c = false) :
      Derives spaced (.one accepts) p none
  | start {spaced p} (h : p.passed = 0) : Derives spaced .start p (some (p, []))
  | startFails {spaced p} (h : p.passed ≠ 0) : Derives spaced .start p none
  | ending {spaced p} (h : p.rest = []) :
      Derives spaced .ending p (some (p, [.leaf .ending p.passed []]))
  | endingFails {spaced p} (h : p.rest ≠ []) : Derives spaced .ending p none
  | rule {spaced name p q ts} (h : Derives ((production name).kind.spaced spaced) (production name).body p
        (some (q, ts))) :
      Derives spaced (.rule name) p (some (q, (production name).kind.trees p q ts))
  | ruleFails {spaced name p} (h : Derives ((production name).kind.spaced spaced) (production name).body p
        none) :
      Derives spaced (.rule name) p none
  | seq {spaced first second p q r ts us} (h : Derives spaced first p (some (q, ts)))
        (h' : Derives spaced second (skip spaced q) (some (r, us))) :
      Derives spaced (.seq first second) p (some (r, ts ++ us))
  | firstFails {spaced first second p} (h : Derives spaced first p none) :
      Derives spaced (.seq first second) p none
  | secondFails {spaced first second p q ts} (h : Derives spaced first p (some (q, ts)))
        (h' : Derives spaced second (skip spaced q) none) :
      Derives spaced (.seq first second) p none
  | orFirst {spaced first second p result} (h : Derives spaced first p (some result)) :
      Derives spaced (.or first second) p (some result)
  | orSecond {spaced first second p result} (h : Derives spaced first p none)
        (h' : Derives spaced second p result) :
      Derives spaced (.or first second) p result
  | optional {spaced body p result} (h : Derives spaced body p (some result)) :
      Derives spaced (.optional body) p (some result)
  | absent {spaced body p} (h : Derives spaced body p none) :
      Derives spaced (.optional body) p (some (p, []))
  | star {spaced body p q r ts us} (h : Derives spaced body p (some (q, ts)))
        (h' : Derives spaced (.more body) q (some (r, us))) :
      Derives spaced (.star body) p (some (r, ts ++ us))
  | starEmpty {spaced body p} (h : Derives spaced body p none) :
      Derives spaced (.star body) p (some (p, []))
  | more {spaced body p q r ts us} (h : Derives spaced body (skip spaced p) (some (q, ts)))
        (h' : Derives spaced (.more body) q (some (r, us))) :
      Derives spaced (.more body) p (some (r, ts ++ us))
  | moreEmpty {spaced body p} (h : Derives spaced body (skip spaced p) none) :
      Derives spaced (.more body) p (some (p, []))
  | without {spaced body p} (h : Derives spaced body p none) :
      Derives spaced (.without body) p (some (p, []))
  | withoutFails {spaced body p result} (h : Derives spaced body p (some result)) :
      Derives spaced (.without body) p none

/-- The tree that the rules derive from a whole text, between its two ends. -/
def Derived (s : Text) (tree : Tree) : Prop :=
  Derives true (.rule .expression) ⟨0, s⟩
    (some (⟨s.length, []⟩, [.node .expression 0 [tree, .leaf .ending s.length []]]))

/-- No second reading: every choice is committed and every repetition is greedy. -/
theorem Derives.deterministic {spaced : Bool} {e : Phrase} {p : Place} {x y : Option (Place × List Tree)}
    (hx : Derives spaced e p x) (hy : Derives spaced e p y) : x = y := by
  induction hx generalizing y with
  | word h =>
    cases hy with
    | word h' => rw [List.append_cancel_left (h.symm.trans h')]
    | wordFails h' => exact absurd h (h' _)
  | wordFails h =>
    cases hy with
    | word h' => exact absurd h' (h _)
    | wordFails => rfl
  | one h hc =>
    cases hy with
    | one h' =>
      rw [h] at h'
      cases h'
      rfl
    | oneFails h' => simp [h, hc] at h'
  | oneFails h =>
    cases hy with
    | one h' hc => simp [h', hc] at h
    | oneFails => rfl
  | start h | startFails h | ending h | endingFails h =>
    cases hy
    all_goals first | rfl | contradiction
  | rule _ ih =>
    cases hy with
    | rule h' =>
      cases ih h'
      rfl
    | ruleFails h' => cases ih h'
  | ruleFails _ ih =>
    cases hy with
    | rule h' => cases ih h'
    | ruleFails => rfl
  | seq _ _ ihf ihs =>
    cases hy with
    | seq hf hs =>
      cases ihf hf
      cases ihs hs
      rfl
    | firstFails hf => cases ihf hf
    | secondFails hf hs =>
      cases ihf hf
      cases ihs hs
  | firstFails _ ihf =>
    cases hy with
    | seq hf => cases ihf hf
    | firstFails => rfl
    | secondFails hf => cases ihf hf
  | secondFails _ _ ihf ihs =>
    cases hy with
    | seq hf hs =>
      cases ihf hf
      cases ihs hs
    | firstFails => rfl
    | secondFails => rfl
  | orFirst _ ih =>
    cases hy with
    | orFirst h' => exact ih h'
    | orSecond h' => cases ih h'
  | orSecond _ _ ihf ihs =>
    cases hy with
    | orFirst h' => cases ihf h'
    | orSecond _ h' => exact ihs h'
  | optional _ ih =>
    cases hy with
    | optional h' => exact ih h'
    | absent h' => cases ih h'
  | absent _ ih =>
    cases hy with
    | optional h' => cases ih h'
    | absent => rfl
  | star _ _ ihf ihs =>
    cases hy with
    | star hf hs =>
      cases ihf hf
      cases ihs hs
      rfl
    | starEmpty hf => cases ihf hf
  | more _ _ ihf ihs =>
    cases hy with
    | more hf hs =>
      cases ihf hf
      cases ihs hs
      rfl
    | moreEmpty hf => cases ihf hf
  | starEmpty _ ih =>
    cases hy with
    | star h' => cases ih h'
    | starEmpty => rfl
  | moreEmpty _ ih =>
    cases hy with
    | more h' => cases ih h'
    | moreEmpty => rfl
  | without _ ih =>
    cases hy with
    | without => rfl
    | withoutFails h' => cases ih h'
  | withoutFails _ ih =>
    cases hy with
    | without h' => cases ih h'
    | withoutFails => rfl

end DynamicSql.Expr
