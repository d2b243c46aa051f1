import DynamicSql.Fault
import DynamicSql.Text.Ascii
import DynamicSql.Text.Blank

/-!
How templates are read and queries written: the delimiters of placeholders and of inline splices, the style of
positional markers, the stem of the aliases that iterations make, and the name of the database.
-/
namespace DynamicSql

inductive MarkerStyle where
  /-- The same mark for every parameter. -/
  | question
  /-- A mark with the number of the parameter. -/
  | dollar
  deriving DecidableEq, Repr, Inhabited

namespace MarkerStyle

def name : MarkerStyle → String
  | question => "question"
  | dollar => "dollar"

def ofName? (s : Text) : Option MarkerStyle :=
  [question, dollar].find? fun style => style.name.toList == s

/-- Every name that a setting may use. -/
def names : MarkerStyle → List String
  | question => ["question", "?", "mysql", "sqlite"]
  | dollar => ["dollar", "$", "postgres", "postgresql"]

/-- The style that a setting names, in any case and with blanks around. -/
def read? (s : Text) : Option MarkerStyle :=
  let word := Text.toLower (Text.trim s)
  [question, dollar].find? fun style => style.names.any fun n => n.toList == word

/-- The marker of the parameter with that number, counted from one. -/
def marker : MarkerStyle → Nat → Text
  | question, _ => ['?']
  | dollar, index => '$' :: Text.ofNat index

end MarkerStyle

structure Delimiters where
  opening : Text
  closing : Text
  deriving DecidableEq, Repr, Inhabited

structure Config where
  placeholder : Delimiters := ⟨"\x7b\x7b".toList, "\x7d\x7d".toList⟩
  inlined : Delimiters := ⟨"$\x7b".toList, "\x7d".toList⟩
  marker : MarkerStyle := .question
  /-- What the alias of an iteration variable begins with. -/
  aliasStem : Text := "__frch_".toList
  databaseId : Option Text := none
  deriving DecidableEq, Repr, Inhabited

namespace Config

def default : Config := {}

def withPlaceholder (c : Config) (d : Delimiters) : Config := { c with placeholder := d }

def withInlined (c : Config) (d : Delimiters) : Config := { c with inlined := d }

def withMarker (c : Config) (style : MarkerStyle) : Config := { c with marker := style }

def withAliasStem (c : Config) (stem : Text) : Config := { c with aliasStem := stem }

def withDatabaseId (c : Config) (id : Text) : Config := { c with databaseId := some id }

/-- The delimiters with the names that settings give them. -/
def delimiterTexts (c : Config) : List (String × Text) :=
  [("placeholder_open", c.placeholder.opening), ("placeholder_close", c.placeholder.closing),
    ("inline_open", c.inlined.opening), ("inline_close", c.inlined.closing)]

/-- One opener begins the other, so a text could open both. -/
def OpenersClash (c : Config) : Prop :=
  c.inlined.opening <+: c.placeholder.opening ∨ c.placeholder.opening <+: c.inlined.opening

instance (c : Config) : Decidable c.OpenersClash :=
  inferInstanceAs (Decidable (_ ∨ _))

def emptyName (name : String) : Fault := Fault.invalidConfiguration s!"{name} must not be empty"

def clash (c : Config) : Fault :=
  let placeholder := String.ofList c.placeholder.opening
  let inlined := String.ofList c.inlined.opening
  (Fault.invalidConfiguration <|
    s!"Placeholder opener '{placeholder}' and inline opener '{inlined}' " ++
      "must not share a prefix").withHelp
    "Inline splices and placeholders are resolved in separate stages"

/-- Delimiters and the alias stem are not empty, and the two openers can be told apart. -/
def validate (c : Config) : Except Fault Unit :=
  match c.delimiterTexts.find? fun (_, text) => text.isEmpty with
  | some (name, _) => .error (emptyName name)
  | none =>
    if c.OpenersClash then .error c.clash
    else if c.aliasStem.isEmpty then .error (emptyName "iteration_prefix")
    else .ok ()

end Config

end DynamicSql
