import DynamicSql.Text.Basic

/-!
The operations that components offer. Each belongs to one kind of component, takes one argument at most, and
answers in one shape.
-/
namespace DynamicSql

inductive ComponentKind where
  | executor | statementHandler | parameterBinder | resultMaterializer
  deriving DecidableEq, Repr, Inhabited

namespace ComponentKind

def all : List ComponentKind := [executor, statementHandler, parameterBinder, resultMaterializer]

@[simp] theorem mem_all (k : ComponentKind) : k ∈ all := by cases k <;> simp [all]

def name : ComponentKind → String
  | executor => "Executor"
  | statementHandler => "StatementHandler"
  | parameterBinder => "ParameterBinder"
  | resultMaterializer => "ResultMaterializer"

def ofName? (s : String) : Option ComponentKind := all.find? fun k => k.name == s

end ComponentKind

/-- What an operation takes. -/
inductive InputShape where
  | nothing | query | flag | rows
  deriving DecidableEq, Repr, Inhabited

/-- What an operation answers. -/
inductive OutputShape where
  | unit | count | rows | value | query
  deriving DecidableEq, Repr, Inhabited

inductive Operation where
  | update | query | commit | rollback | close
  | prepare | parameterize | batch | statementUpdate | statementQuery
  | parameterObject | setParameters
  | handleResultSets | handleOutputParameters
  deriving DecidableEq, Repr, Inhabited

namespace Operation

/-- In the order of declaration. -/
def all : List Operation :=
  [update, query, commit, rollback, close,
    prepare, parameterize, batch, statementUpdate, statementQuery,
    parameterObject, setParameters,
    handleResultSets, handleOutputParameters]

@[simp] theorem mem_all (op : Operation) : op ∈ all := by cases op <;> simp [all]

def kind : Operation → ComponentKind
  | update | query | commit | rollback | close => .executor
  | prepare | parameterize | batch | statementUpdate | statementQuery => .statementHandler
  | parameterObject | setParameters => .parameterBinder
  | handleResultSets | handleOutputParameters => .resultMaterializer

/-- Every name that declares the operation on its kind; the first is its own. -/
def names : Operation → List String
  | update => ["update"]
  | query => ["query"]
  | commit => ["commit"]
  | rollback => ["rollback"]
  | close => ["close"]
  | prepare => ["prepare"]
  | parameterize => ["parameterize"]
  | batch => ["batch"]
  | statementUpdate => ["update"]
  | statementQuery => ["query"]
  | parameterObject => ["parameter_object", "getParameterObject", "parameterObject"]
  | setParameters => ["set_parameters", "setParameters"]
  | handleResultSets => ["handle_result_sets", "handleResultSets"]
  | handleOutputParameters => ["handle_output_parameters", "handleOutputParameters"]

def name (op : Operation) : String := op.names.headD ""

/-- The operation that a kind declares under a name. -/
def find? (kind : ComponentKind) (method : String) : Option Operation :=
  all.find? fun op => op.kind == kind && op.names.contains method

def ofKind (kind : ComponentKind) : List Operation := all.filter fun op => op.kind == kind

def display (op : Operation) : String :=
  let kind := op.kind.name
  let name := op.name
  s!"{kind}.{name}"

def input : Operation → InputShape
  | commit | rollback | close => .flag
  | parameterObject => .nothing
  | handleResultSets | handleOutputParameters => .rows
  | _ => .query

def output : Operation → OutputShape
  | update | statementUpdate => .count
  | query | statementQuery | setParameters | handleResultSets => .rows
  | prepare => .query
  | parameterObject => .value
  | _ => .unit

/-- A kind never declares one name for two operations. -/
theorem find?_name (op : Operation) : find? op.kind op.name = some op := by
  cases op <;> rfl

end Operation

end DynamicSql
