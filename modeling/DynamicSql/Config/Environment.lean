import DynamicSql.Config
import DynamicSql.Entries

/-!
Settings from the variables of an environment: the configuration of templates, and what is logged.
-/
namespace DynamicSql

/-- Variables with their texts. -/
abbrev Environment := Entries Text

namespace Environment

def get (env : Environment) (name : String) : Option Text := Entries.get? env name.toList

def contains (env : Environment) (name : String) : Bool := (env.get name).isSome

end Environment

namespace Config

def unknownStyle (style : Text) : Fault :=
  let style := String.ofList style
  (Fault.invalidConfiguration s!"Unknown marker style '{style}'").withSuggestion
    "Use 'question' or 'dollar'"

def markerVariable : String := "SQLWEAVE_MARKER_STYLE"

def readMarker (env : Environment) : Except Fault MarkerStyle :=
  match env.get markerVariable with
  | none => .ok default.marker
  | some style =>
    match MarkerStyle.read? style with
    | some marker => .ok marker
    | none => .error (unknownStyle style)

/-- The default with what the environment sets; the result is validated. -/
def ofEnvironment (env : Environment) : Except Fault Config := do
  let marker ← readMarker env
  let text (name : String) (otherwise : Text) : Text := (env.get name).getD otherwise
  let config : Config :=
    { placeholder :=
        ⟨text "SQLWEAVE_PLACEHOLDER_OPEN" default.placeholder.opening,
          text "SQLWEAVE_PLACEHOLDER_CLOSE" default.placeholder.closing⟩
      inlined :=
        ⟨text "SQLWEAVE_INLINE_OPEN" default.inlined.opening,
          text "SQLWEAVE_INLINE_CLOSE" default.inlined.closing⟩
      marker
      databaseId := env.get "SQLWEAVE_DATABASE_ID" }
  config.validate
  return config

end Config

end DynamicSql
