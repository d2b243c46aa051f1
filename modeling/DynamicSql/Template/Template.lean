import DynamicSql.Template.Rendering

/-!
The second stage, in which placeholders give way to numbered markers and their values are looked up, and
templates, which run both stages.
-/
namespace DynamicSql

namespace Query

/-- The whole text of a placeholder with that content. -/
def span (d : Delimiters) (content : Text) : Text := d.opening ++ content ++ d.closing

/-- What a placeholder stands for. -/
def describe (s : Setting) (bindings : Bindings) (content : Text) (offset : Nat) :
    Except Fault Descriptor :=
  match Placeholder.parse content offset (span s.config.placeholder content) with
  | .ok p => p.describe bindings s.parameter
  | .error f => .error f

/-- The text and descriptors of tokens of which so many placeholders came before. -/
def assemble (s : Setting) (bindings : Bindings) :
    Nat → List Token → Except Fault (Text × List Descriptor)
  | _, [] => .ok ([], [])
  | count, .text t :: rest => do
    let (text, descriptors) ← assemble s bindings count rest
    return (t ++ text, descriptors)
  | count, .escaped :: rest => do
    let (text, descriptors) ← assemble s bindings count rest
    return (s.config.placeholder.opening ++ text, descriptors)
  | count, .expr content offset :: rest => do
    let d ← describe s bindings content offset
    let (text, descriptors) ← assemble s bindings (count + 1) rest
    return (s.config.marker.marker (count + 1) ++ text, d :: descriptors)

/-- The query of a text whose placeholders are resolved in the bindings and the parameter. -/
def ofText (s : Setting) (bindings : Bindings) (text : Text) : Except Halt Query := do
  let tokens ← Token.ofText s.config.placeholder text
  let (text, parameters) ← Halt.raise (assemble s bindings 0 tokens)
  return { text, parameters, bindings }

end Query

structure Template where
  root : Node
  config : Config := {}
  deriving Inhabited

namespace Template

/-- A template with a configuration that is found valid. -/
def withConfig (root : Node) (config : Config) : Except Fault Template := do
  config.validate
  return { root, config }

/-- Renders the tree, then resolves the placeholders; bindings made on the way are kept. -/
def resolve (t : Template) (parameter : Parameter) : Except Halt Query := do
  let s : Setting := ⟨parameter, t.config⟩
  let (text, bindings) ← t.root.renderText s
  Query.ofText s bindings text

end Template

end DynamicSql
