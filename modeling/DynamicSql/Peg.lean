import DynamicSql.Text.Basic

/-!
Grammars with ordered choice and greedy repetition, as data, and the machine that runs them.
A grammar may refer to one rule of its own by `again`; what that reference runs is an argument of the machine,
so the machine itself is structural. Named rules leave a tree. The machine also reports the furthest
place at which a named rule was tried in vain, which is where a text that is refused goes wrong.
-/
namespace DynamicSql

inductive Peg (Rule : Type) where
  | empty
  | one (accepts : Char → Bool)
  | word (w : Text)
  | seq (first second : Peg Rule)
  | alt (first second : Peg Rule)
  /-- As often as possible. -/
  | star (body : Peg Rule)
  /-- Passes nothing, where the body cannot be matched. -/
  | unless (body : Peg Rule)
  /-- The end of the text. -/
  | ended
  /-- A rule whose text is a leaf; what is tried inside it is not reported. -/
  | token (rule : Rule) (body : Peg Rule)
  | node (rule : Rule) (body : Peg Rule)
  | again

namespace Peg

/-- A leaf has its text, a node its parts; both begin at a number of characters from the start. -/
inductive Tree (Rule : Type) where
  | leaf (rule : Rule) (start : Nat) (text : Text)
  | node (rule : Rule) (start : Nat) (children : List (Tree Rule))
  deriving Inhabited, Repr

/-- How many characters were passed, and what is left. -/
structure Place where
  passed : Nat
  rest : Text
  deriving DecidableEq, Repr

/-- Whether rules are tried inside a token, and whether failing is what is wanted. -/
structure Mode where
  inToken : Bool
  negated : Bool
  deriving DecidableEq, Repr

def Mode.outer : Mode := ⟨false, false⟩

def Mode.token (m : Mode) : Mode := { m with inToken := true }

/-- Inside two negations a match is wanted again. -/
def Mode.negate (m : Mode) : Mode := { m with negated := !m.negated }

/-- The furthest failure so far, and the place reached with the trees on the way to it. -/
structure Outcome (Rule : Type) where
  furthest : Nat
  result : Option (Place × List (Tree Rule))

/-- What a reference runs: at a place, with the furthest failure so far. -/
abbrev Run (Rule : Type) := Mode → Place → Nat → Outcome Rule

variable {Rule : Type}

/-- An unwanted end of a rule that began at `start` counts, unless it is inside a token. -/
def reported (m : Mode) (failed : Bool) (start furthest : Nat) : Nat :=
  if m.inToken || failed == m.negated then furthest else max furthest start

/--
Runs a step as long as it succeeds, at most once for each character of a text. From the text that is left
this is no limit for a step that passes something. At the end it is tried once more, in vain, for the failure
that it reports there.
-/
def iterate (step : Place → Nat → Outcome Rule) :
    Text → Place → Nat → List (Tree Rule) → Outcome Rule
  | [], here, furthest, trees => ⟨(step here furthest).furthest, some (here, trees.reverse)⟩
  | _ :: fuel, here, furthest, trees =>
    match step here furthest with
    | ⟨furthest, none⟩ => ⟨furthest, some (here, trees.reverse)⟩
    | ⟨furthest, some (next, more)⟩ => iterate step fuel next furthest (more.reverse ++ trees)

def run (reference : Run Rule) : Peg Rule → Run Rule
  | empty, _, here, furthest => ⟨furthest, some (here, [])⟩
  | one accepts, _, here, furthest =>
    match here.rest with
    | c :: rest => ⟨furthest, if accepts c then some (⟨here.passed + 1, rest⟩, []) else none⟩
    | [] => ⟨furthest, none⟩
  | word w, _, here, furthest =>
    ⟨furthest, (Text.after? w here.rest).map fun rest => (⟨here.passed + w.length, rest⟩, [])⟩
  | seq first second, m, here, furthest =>
    match run reference first m here furthest with
    | ⟨furthest, none⟩ => ⟨furthest, none⟩
    | ⟨furthest, some (next, trees)⟩ =>
      match run reference second m next furthest with
      | ⟨furthest, none⟩ => ⟨furthest, none⟩
      | ⟨furthest, some (last, more)⟩ => ⟨furthest, some (last, trees ++ more)⟩
  | alt first second, m, here, furthest =>
    match run reference first m here furthest with
    | ⟨furthest, none⟩ => run reference second m here furthest
    | outcome => outcome
  | star body, m, here, furthest => iterate (run reference body m) here.rest here furthest []
  | .unless body, m, here, furthest =>
    match run reference body m.negate here furthest with
    | ⟨furthest, none⟩ => ⟨furthest, some (here, [])⟩
    | ⟨furthest, some _⟩ => ⟨furthest, none⟩
  | ended, _, here, furthest => ⟨furthest, if here.rest = [] then some (here, []) else none⟩
  | token rule body, m, here, furthest =>
    match run reference body m.token here furthest with
    | ⟨furthest, none⟩ => ⟨reported m true here.passed furthest, none⟩
    | ⟨furthest, some (next, _)⟩ =>
      ⟨reported m false here.passed furthest,
        some (next, [.leaf rule here.passed (here.rest.take (next.passed - here.passed))])⟩
  | node rule body, m, here, furthest =>
    match run reference body m here furthest with
    | ⟨furthest, none⟩ => ⟨reported m true here.passed furthest, none⟩
    | ⟨furthest, some (next, trees)⟩ =>
      ⟨reported m false here.passed furthest, some (next, [.node rule here.passed trees])⟩
  | again, m, here, furthest => reference m here furthest

/-- The recursive rule, inside itself at most `depth` times less one. -/
def level (recursive : Peg Rule) : Nat → Run Rule
  | 0, _, _, furthest => ⟨furthest, none⟩
  | depth + 1, m, here, furthest => run (level recursive depth) recursive m here furthest

/-- Runs a grammar from the start of a text, with the recursive rule at most `depth` times inside itself. -/
def parse (grammar recursive : Peg Rule) (depth : Nat) (s : Text) : Outcome Rule :=
  run (level recursive depth) grammar .outer ⟨0, s⟩ 0

def optional (body : Peg Rule) : Peg Rule := .alt body .empty

/-- The first of several that can be matched. -/
def choice : List (Peg Rule) → Peg Rule
  | [] => .one fun _ => false
  | [body] => body
  | body :: others => .alt body (choice others)

def words (ws : List String) : Peg Rule := choice (ws.map fun w => .word w.toList)

/-- At least once. -/
def atLeastOnce (body : Peg Rule) : Peg Rule := .seq body (.star body)

end Peg

end DynamicSql
