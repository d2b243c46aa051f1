import DynamicSql.Fault.Report
import DynamicSql.Interception.Operation
import DynamicSql.Template.Query

/-!
What goes into operations and comes out of them: in the types of the operations, and in the open form in
which interceptors see it. Reading the open form checks its shape.
-/
namespace DynamicSql

inductive Arg where
  | query (q : Query)
  | value (v : Value)
  | flag (b : Bool)
  | rows (vs : List Value)
  deriving Inhabited

def Arg.shape : Arg → String
  | query _ => "query"
  | value _ => "value"
  | flag _ => "flag"
  | rows _ => "rows"

inductive Reply where
  | unit
  | count (n : UInt64)
  | rows (vs : List Value)
  | value (v : Value)
  | query (q : Query)
  deriving Inhabited

def OutputShape.name : OutputShape → String
  | unit => "unit"
  | count => "count"
  | rows => "rows"
  | value => "value"
  | query => "query"

def Reply.shape : Reply → OutputShape
  | unit => .unit
  | count _ => .count
  | rows _ => .rows
  | value _ => .value
  | query _ => .query

/-- Why a component or interceptor failed: a fault of this library, or a message of its own. -/
inductive Failure where
  | fault (f : Fault)
  | message (text : String)
  deriving DecidableEq, Repr, Inhabited

def Failure.display : Failure → String
  | fault f => f.summary
  | message text => text

abbrev InputShape.type : InputShape → Type
  | nothing => Unit
  | query => Query
  | flag => Bool
  | rows => List Value

abbrev OutputShape.type : OutputShape → Type
  | unit => Unit
  | count => UInt64
  | rows => List Value
  | value => Value
  | query => Query

abbrev Operation.Input (op : Operation) : Type := op.input.type

abbrev Operation.Output (op : Operation) : Type := op.output.type

namespace Operation

/-- The open form of an input: no argument, or one. -/
def args : (s : InputShape) → s.type → List Arg
  | .nothing, _ => []
  | .query, q => [.query q]
  | .flag, b => [.flag b]
  | .rows, vs => [.rows vs]

def mismatch (op : Operation) (expected found : String) : Fault :=
  Fault.invocationMismatch op.display expected found

/-- The input that the first argument is. -/
def readArgs (op : Operation) : (s : InputShape) → List Arg → Except Fault s.type
  | .nothing, _ => .ok ()
  | .query, .query q :: _ => .ok q
  | .flag, .flag b :: _ => .ok b
  | .rows, .rows vs :: _ => .ok vs
  | .query, a :: _ => .error (op.mismatch "query" a.shape)
  | .flag, a :: _ => .error (op.mismatch "flag" a.shape)
  | .rows, a :: _ => .error (op.mismatch "rows" a.shape)
  | .query, [] => .error (op.mismatch "query" "no arguments")
  | .flag, [] => .error (op.mismatch "flag" "no arguments")
  | .rows, [] => .error (op.mismatch "rows" "no arguments")

/-- The open form of an output. -/
def reply : (s : OutputShape) → s.type → Reply
  | .unit, _ => .unit
  | .count, n => .count n
  | .rows, vs => .rows vs
  | .value, v => .value v
  | .query, q => .query q

/-- The output of a shape that a reply is. -/
def readReply (op : Operation) : (s : OutputShape) → Reply → Except Fault s.type
  | .unit, .unit => .ok ()
  | .count, .count n => .ok n
  | .rows, .rows vs => .ok vs
  | .value, .value v => .ok v
  | .query, .query q => .ok q
  | s, r => .error (op.mismatch s.name r.shape.name)

@[simp] theorem readArgs_args (op : Operation) (s : InputShape) (x : s.type) :
    op.readArgs s (args s x) = .ok x := by
  cases s <;> rfl

@[simp] theorem readReply_reply (op : Operation) (s : OutputShape) (y : s.type) :
    op.readReply s (reply s y) = .ok y := by
  cases s <;> rfl

end Operation

end DynamicSql
