import DynamicSql.Interception.Message
import DynamicSql.Interception.Signature

/-!
Components and interceptors. A component is a target or a wrapper around a component; a wrapper hands the
operations that its interceptor declares to the interceptor, and every other call straight on. What a call
does to the world is a step on a state, which stays changed when the call fails.
-/
namespace DynamicSql

/-- Steps on a world that may fail. -/
abbrev Action (World : Type) := EStateM Failure World

/-- A call as an interceptor sees it. -/
structure Invocation (World : Type) where
  operation : Operation
  args : List Arg
  /-- Runs the operation on what lies behind, with these arguments. -/
  next : List Arg → Action World Reply

structure Interceptor (World : Type) where
  name : String
  signatures : List Signature
  intercept : Invocation World → Action World Reply

/-- A component at the end of a chain. -/
structure Target (World : Type) where
  /-- The kinds whose operations can be called. -/
  exposed : KindSet
  /-- The kinds that it says it has. -/
  declared : KindSet
  perform : (op : Operation) → op.Input → Action World op.Output

inductive Component (World : Type) where
  | target (t : Target World)
  | wrapper (inner : Component World) (interceptor : Interceptor World) (index : SignatureIndex)
      (kinds : KindSet)

variable {World : Type}

namespace Invocation

/-- The call with other arguments. -/
def withArgs (i : Invocation World) (args : List Arg) : Invocation World := { i with args }

def proceed (i : Invocation World) : Action World Reply := i.next i.args

/-- The first query among the arguments. -/
def query? (i : Invocation World) : Option Query :=
  i.args.findSome? fun
    | .query q => some q
    | _ => none

end Invocation

namespace Component

/-- The kinds that it says it has. -/
def kinds : Component World → KindSet
  | target t => t.declared
  | wrapper _ _ _ kinds => kinds

/-- The kinds whose operations can be called. -/
def exposed : Component World → KindSet
  | target t => t.exposed
  | wrapper _ _ _ kinds => kinds

/-- How many wrappers there are. -/
def layers : Component World → Nat
  | target _ => 0
  | wrapper inner _ _ _ => inner.layers + 1

def missing (kind : ComponentKind) : Failure := .fault (Fault.missingCapability kind.name)

def orFail {α : Type} : Except Fault α → Action World α
  | .ok a => pure a
  | .error f => throw (.fault f)

/-- A call in the open form, of a component that exposes those kinds and answers typed calls so. -/
def dispatchWith (exposed : KindSet) (call : (op : Operation) → op.Input → Action World op.Output)
    (op : Operation) (args : List Arg) : Action World Reply :=
  if exposed.contains op.kind then do
    let input ← orFail (op.readArgs op.input args)
    let output ← call op input
    return Operation.reply op.output output
  else throw (missing op.kind)

/-- A typed call of an operation whose kind is exposed. -/
def call : Component World → (op : Operation) → op.Input → Action World op.Output
  | target t, op, input => t.perform op input
  | wrapper inner interceptor index _, op, input =>
    if index.contains op then do
      let reply ← interceptor.intercept
        ⟨op, Operation.args op.input input, dispatchWith inner.exposed inner.call op⟩
      orFail (op.readReply op.output reply)
    else if inner.exposed.contains op.kind then inner.call op input
    else throw (missing op.kind)

/-- A call in the open form. -/
def dispatch (c : Component World) (op : Operation) (args : List Arg) : Action World Reply :=
  dispatchWith c.exposed c.call op args

/-- A call of a component that no interceptor has seen yet. -/
def invocation (c : Component World) (op : Operation) (args : List Arg) : Invocation World :=
  ⟨op, args, c.dispatch op⟩

end Component

/-- A component with an interceptor around it, for the kinds that both have. -/
structure Wrapper (World : Type) where
  target : Component World
  interceptor : Interceptor World
  index : SignatureIndex
  kinds : KindSet

def Wrapper.component (p : Wrapper World) : Component World :=
  .wrapper p.target p.interceptor p.index p.kinds

/-- What wrapping comes to: the target itself, where no kind matches, or a wrapper. -/
inductive Wrapping (World : Type) where
  | untouched (target : Component World)
  | wrapped (wrapper : Wrapper World)

namespace Wrapping

def component : Wrapping World → Component World
  | untouched target => target
  | wrapped wrapper => wrapper.component

def kinds : Wrapping World → KindSet
  | untouched target => target.kinds
  | wrapped wrapper => wrapper.kinds

end Wrapping

namespace Interceptor

def index (i : Interceptor World) : Except Fault SignatureIndex :=
  SignatureIndex.ofSignatures i.name i.signatures

/-- Wraps a component with an index that was built before. -/
def wrapWith (i : Interceptor World) (index : SignatureIndex) (c : Component World) :
    Wrapping World :=
  let kinds := c.kinds.inter index.kinds
  if kinds.isEmpty then .untouched c else .wrapped ⟨c, i, index, kinds⟩

def wrap (i : Interceptor World) (c : Component World) : Except Fault (Wrapping World) :=
  match i.index with
  | .ok index => .ok (i.wrapWith index c)
  | .error f => .error f

end Interceptor

end DynamicSql
