import DynamicSql.Config
import DynamicSql.Json.Printing
import DynamicSql.Json.Reading
import DynamicSql.Json.Record

/-!
Configurations as documents. A field that is missing has its default.
-/
namespace DynamicSql.Config

def fieldNames : List String :=
  ["placeholder_open", "placeholder_close", "inline_open", "inline_close", "marker_style",
    "iteration_prefix", "database_id"]

def toJson (c : Config) : Json :=
  .object
    [("placeholder_open".toList, .text c.placeholder.opening),
      ("placeholder_close".toList, .text c.placeholder.closing),
      ("inline_open".toList, .text c.inlined.opening),
      ("inline_close".toList, .text c.inlined.closing),
      ("marker_style".toList, .text c.marker.name.toList),
      ("iteration_prefix".toList, .text c.aliasStem),
      ("database_id".toList, match c.databaseId with
        | some id => .text id
        | none => .null)]

/-- The field read, or its default when it is missing. -/
def field? {α : Type} (read : Json → Option α) (otherwise : α) : Option Json → Option α
  | some j => read j
  | none => some otherwise

def ofJson? (j : Json) : Option Config :=
  match j.record? fieldNames with
  | some [open?, close?, inlineOpen?, inlineClose?, marker?, stem?, id?] => do
    let opening ← field? Json.asText? default.placeholder.opening open?
    let closing ← field? Json.asText? default.placeholder.closing close?
    let inlineOpening ← field? Json.asText? default.inlined.opening inlineOpen?
    let inlineClosing ← field? Json.asText? default.inlined.closing inlineClose?
    let marker ← field? (fun j => j.asChoice?.bind MarkerStyle.ofName?) default.marker marker?
    let aliasStem ← field? Json.asText? default.aliasStem stem?
    let databaseId ← field? Json.asOptionalText? default.databaseId id?
    return ⟨⟨opening, closing⟩, ⟨inlineOpening, inlineClosing⟩, marker, aliasStem, databaseId⟩
  | _ => none

def ofJsonText? (s : Text) : Option Config := (Json.parse? s).bind ofJson?

def toJsonText (c : Config) : Text := c.toJson.print

end DynamicSql.Config
