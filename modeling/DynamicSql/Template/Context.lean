import DynamicSql.Config
import DynamicSql.Parameter

/-!
The state of one resolution: the text so far, the named values, and the scopes of the iterations that are
open. A name bound in a scope is bound under an alias as well, which stays when the scope is closed.
-/
namespace DynamicSql

/-- Named values collected during a resolution. -/
abbrev Bindings := Entries Value

namespace Bindings

/-- The name of the parameter as a whole. -/
def parameterName : Text := "_parameter".toList

def databaseIdName : Text := "_databaseId".toList

/-- A binding comes before the parameter as a whole, and that before a field of it. -/
def root? (bindings : Bindings) (parameter : Parameter) (head : Text) : Option Value :=
  match Entries.get? bindings head with
  | some v => some v
  | none => if head = parameterName then parameter.whole? else parameter.field? head

/-- The first segment names a value; the others lead into it. -/
def resolve? (bindings : Bindings) (parameter : Parameter) (path : Text) : Option Value :=
  match Path.segments path with
  | [] => none
  | head :: rest => (root? bindings parameter head).bind fun v => v.follow rest

end Bindings

/-- A scope: its number, what its names meant before, latest first, and the aliases made in it. -/
structure Frame where
  number : Nat
  saved : List (Text × Option Value) := []
  aliases : List (Text × Text) := []
  deriving Inhabited

structure Context where
  bindings : Bindings := []
  /-- Innermost first. -/
  frames : List Frame := []
  buffer : Text := []
  /-- The next number that no scope has. -/
  unique : Nat := 0
  deriving Inhabited

namespace Context

def initial (config : Config) : Context where
  bindings := match config.databaseId with
    | some id => [(Bindings.databaseIdName, .text id)]
    | none => []

/-- A space is wanted between two texts where neither side of the joint is blank. -/
def needsSpace (buffer fragment : Text) : Bool :=
  (match buffer.getLast? with
    | some c => !Text.isBlank c
    | none => false) &&
  (match fragment with
    | c :: _ => !Text.isBlank c
    | [] => true)

/-- Blank fragments are dropped; others never run into the word before them. -/
def appendText (buffer fragment : Text) : Text :=
  if Text.allBlank fragment then buffer
  else if needsSpace buffer fragment then buffer ++ ' ' :: fragment
  else buffer ++ fragment

def append (fragment : Text) (ctx : Context) : Context :=
  { ctx with buffer := appendText ctx.buffer fragment }

def bind (name : Text) (value : Value) (ctx : Context) : Context :=
  { ctx with bindings := Entries.put name value ctx.bindings }

/-- Remembers what a name meant before the scope, the first time it is bound there. -/
def Frame.save (name : Text) (previous : Option Value) (frame : Frame) : Frame :=
  if frame.saved.any fun entry => entry.1 == name then frame
  else { frame with saved := (name, previous) :: frame.saved }

/-- Binds in the innermost scope; the name means again what it did when the scope is closed. -/
def bindScoped (name : Text) (value : Value) (ctx : Context) : Context :=
  let previous := Entries.get? ctx.bindings name
  let frames := match ctx.frames with
    | frame :: outer => Frame.save name previous frame :: outer
    | [] => []
  { ctx with bindings := Entries.put name value ctx.bindings, frames }

/-- The alias of a name in the scope with that number. -/
def aliasOf (stem name : Text) (number : Nat) : Text := stem ++ name ++ '_' :: Text.ofNat number

/-- The aliases by the last binding of their names. -/
def Frame.addAlias (name standIn : Text) (frame : Frame) : Frame :=
  { frame with aliases := (frame.aliases.filter fun entry => entry.1 != name) ++ [(name, standIn)] }

/-- Binds a name in the innermost scope, and its alias for good. -/
def bindAliased (stem name : Text) (value : Value) (ctx : Context) : Context :=
  match ctx.frames with
  | [] => ctx.bind name value
  | frame :: outer =>
    let standIn := aliasOf stem name frame.number
    bindScoped name value
      { ctx with
        bindings := Entries.put standIn value ctx.bindings
        frames := Frame.addAlias name standIn frame :: outer }

/-- Takes the next unique number. -/
def takeNumber (ctx : Context) : Nat × Context := (ctx.unique, { ctx with unique := ctx.unique + 1 })

/-- Opens a scope with a number of its own. -/
def pushScope (ctx : Context) : Nat × Context :=
  let (number, ctx) := ctx.takeNumber
  (number, { ctx with frames := { number } :: ctx.frames })

/-- Names mean again what they did, the latest first. -/
def restore : List (Text × Option Value) → Bindings → Bindings
  | [], bindings => bindings
  | (name, some v) :: rest, bindings => restore rest (Entries.put name v bindings)
  | (name, none) :: rest, bindings => restore rest (Entries.erase name bindings)

/-- Closes the innermost scope and tells its aliases. -/
def popScope (ctx : Context) : List (Text × Text) × Context :=
  match ctx.frames with
  | [] => ([], ctx)
  | frame :: outer =>
    (frame.aliases, { ctx with bindings := restore frame.saved ctx.bindings, frames := outer })

def lookup? (ctx : Context) (parameter : Parameter) (path : Text) : Option Value :=
  Bindings.resolve? ctx.bindings parameter path

end Context

end DynamicSql
