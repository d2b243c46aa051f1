import DynamicSql.Template.Context
import DynamicSql.Template.Node
import DynamicSql.Template.Renaming

/-!
The first stage: a tree and a parameter become text whose placeholders are still to be resolved, and the
bindings they are resolved in. A fault leaves the context as far as it came, with every scope and every
captured text closed.
-/
namespace DynamicSql

/-- What a resolution is given. -/
structure Setting where
  parameter : Parameter
  config : Config

/-- Steps that may fail and change the context either way. -/
abbrev Rendering := EStateM Halt Context

namespace Rendering

def update (f : Context → Context) : Rendering Unit := modify f

/-- Runs a step against an empty buffer; the outer buffer is put back, whatever happens. -/
def capture (step : Rendering Unit) : Rendering (Except Halt Text) := fun ctx =>
  match step { ctx with buffer := [] } with
  | .ok _ inner => .ok (.ok inner.buffer) { inner with buffer := ctx.buffer }
  | .error h inner => .ok (.error h) { inner with buffer := ctx.buffer }

end Rendering

namespace Setting

open Rendering

/-- Paths lead to bindings first, then into the parameter. -/
def scope (s : Setting) (ctx : Context) : Scope := ctx.lookup? s.parameter

def evaluate (s : Setting) (e : Expression) : Rendering Value := do
  let ctx ← get
  ofExcept (Halt.raise (e.evaluate (s.scope ctx)))

def test (s : Setting) (e : Expression) : Rendering Bool := do
  let v ← s.evaluate e
  return v.truthy

def bindAliased (s : Setting) (name : Text) (value : Value) : Rendering Unit :=
  update (Context.bindAliased s.config.aliasStem name value)

def bindOptional (s : Setting) (name : Option Text) (value : Value) : Rendering Unit :=
  match name with
  | some name => s.bindAliased name value
  | none => pure ()

/-- The collection of an iteration; nothing where a path leads nowhere. -/
def collection (s : Setting) (e : Expression) : Rendering (Option Value) := do
  match e.asPath? with
  | some path =>
    let ctx ← get
    return s.scope ctx path
  | none =>
    let v ← s.evaluate e
    return some v

end Setting

namespace Iteration

def missing (i : Iteration) : Fault :=
  (Fault.bindingResolution (String.ofList i.collection.source)).withHelp
    "Mark the iteration nullable to skip missing collections"

def notIterable (i : Iteration) (v : Value) : Fault :=
  Fault.notIterable (String.ofList i.collection.source) v.type.name

/-- Members of a list with their numbers, from a number on. -/
def numbered : Nat → List Value → List (Value × Value)
  | _, [] => []
  | n, v :: rest => (.ofNat n, v) :: numbered (n + 1) rest

/-- Index and item of each round: members of a list or map, or the numbers below an integer. -/
def entries? : Value → Option (List (Value × Value))
  | .list items => some (numbered 0 items)
  | .map entries => some (entries.map fun (key, v) => (.text key, v))
  | .int i =>
    if 0 ≤ i.toInt then some ((List.range i.toInt.toNat).map fun n => (.ofNat n, .ofNat n)) else none
  | _ => none

/-- The rounds of an iteration over what its collection is. -/
def rounds (i : Iteration) : Option Value → Except Fault (List (Value × Value))
  | none | some .null => if i.nullable then .ok [] else .error i.missing
  | some v =>
    match entries? v with
    | some entries => .ok entries
    | none => .error (i.notIterable v)

/-- The texts of the rounds with what goes around and between them. -/
def assemble (i : Iteration) (parts : List Text) : Text :=
  i.opening ++ Text.join i.separator parts ++ i.closing

open Rendering

/-- One round in a scope of its own, which is closed whether the body fails or not. -/
def round (s : Setting) (i : Iteration) (body : Rendering Unit) (index item : Value) :
    Rendering Text := do
  update fun ctx => ctx.pushScope.2
  s.bindOptional i.item item
  s.bindOptional i.index index
  let captured ← capture body
  let aliases ← modifyGet Context.popScope
  let text ← ofExcept captured
  let renamed ← ofExcept (Placeholder.renameAll s.config.placeholder aliases text)
  return Text.trim renamed

/-- One round after the other; rounds that come to nothing leave no text. -/
def roundsText (s : Setting) (i : Iteration) (body : Rendering Unit) :
    List (Value × Value) → Rendering (List Text)
  | [] => pure []
  | (index, item) :: rest => do
    let part ← round s i body index item
    let parts ← roundsText s i body rest
    return if part.isEmpty then parts else part :: parts

/-- An iteration without rounds leaves nothing, not even the texts around it. -/
def run (s : Setting) (i : Iteration) (body : Rendering Unit) : Rendering Unit := do
  let v ← s.collection i.collection
  let rounds ← ofExcept (Halt.raise (i.rounds v))
  if rounds.isEmpty then pure ()
  else
    let parts ← roundsText s i body rounds
    update (Context.append (i.assemble parts))

end Iteration

namespace Node

open Rendering

mutual

/-- Applies a node to the context. -/
def render (s : Setting) : Node → Rendering Unit
  | text t => update (Context.append t)
  | inlined t => do
    let ctx ← get
    let out ← ofExcept (Halt.raise (InlineText.render (s.scope ctx) t.parts))
    update (Context.append out)
  | when test body => do
    if ← s.test test then render s body else pure ()
  | choose branches otherwise => renderChoice s (renderOptional s otherwise) branches
  | forEach i body => i.run s (render s body)
  | trim rule body => do
    let captured ← capture (render s body)
    let text ← ofExcept captured
    update (Context.append (rule.apply text))
  | bind name value => do
    let v ← s.evaluate value
    s.bindAliased name v
  | mixed children => renderAll s children

/-- The first branch whose test holds, or what comes otherwise. -/
def renderChoice (s : Setting) (otherwise : Rendering Unit) :
    List (Expression × Node) → Rendering Unit
  | [] => otherwise
  | (test, body) :: rest => do
    if ← s.test test then render s body else renderChoice s otherwise rest

def renderOptional (s : Setting) : Option Node → Rendering Unit
  | some body => render s body
  | none => pure ()

def renderAll (s : Setting) : List Node → Rendering Unit
  | [] => pure ()
  | n :: rest => do
    render s n
    renderAll s rest

end

/-- The text of a tree in a fresh context, with the bindings. -/
def renderText (s : Setting) (n : Node) : Except Halt (Text × Bindings) :=
  match render s n (Context.initial s.config) with
  | .ok _ ctx => .ok (ctx.buffer, ctx.bindings)
  | .error h _ => .error h

end Node

end DynamicSql
