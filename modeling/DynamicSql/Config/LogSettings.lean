import DynamicSql.Config.Environment
import DynamicSql.LogLevel

/-!
What is logged, how much and in which form, as an environment sets it.
-/
namespace DynamicSql

inductive LogFormat where
  | json | pretty | compact
  deriving DecidableEq, Repr, Inhabited

namespace LogFormat

def name : LogFormat → String
  | json => "json"
  | pretty => "pretty"
  | compact => "compact"

def read? (s : Text) : Option LogFormat :=
  let word := Text.toLower (Text.trim s)
  [json, pretty, compact].find? fun format => format.name.toList == word

end LogFormat

structure LogSettings where
  debug : Bool := false
  level : Option LogLevel := none
  format : LogFormat := .json
  deriving DecidableEq, Repr, Inhabited

namespace LogSettings

/-- The words that switch debugging on; none has a letter with a case partner outside ASCII. -/
def onWords : List String := ["true", "1", "yes"]

/-- Words that are not understood count as unset. -/
def ofEnvironment (env : Environment) : LogSettings where
  debug :=
    match env.get "SQLWEAVE_DEBUG" with
    | some word => onWords.any fun on => on.toList == Text.toLower (Text.trim word)
    | none => false
  level := (env.get "SQLWEAVE_LOG_LEVEL").bind fun word => LogLevel.read? (Text.trim word)
  format := ((env.get "SQLWEAVE_LOG_FORMAT").bind LogFormat.read?).getD .json

def enabled (s : LogSettings) : Bool := s.debug || s.level.isSome

/-- The level that was set; else `debug` when debugging, and `warn` otherwise. -/
def effectiveLevel (s : LogSettings) : LogLevel :=
  s.level.getD (if s.debug then .debug else .warn)

/-- The directive that applies the level to both parts of the library. -/
def filter (s : LogSettings) : String :=
  let level := s.effectiveLevel.name
  s!"sqlweave={level},sqlweave_core={level}"

end LogSettings

end DynamicSql
