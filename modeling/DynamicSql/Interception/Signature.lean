import DynamicSql.Fault
import DynamicSql.Interception.KindSet

/-!
Which operations an interceptor declares. A declaration that names an operation its kind does not have, or
none at all, is refused. The index of a declaration lists the operations of each kind in the order in which
they were first declared.
-/
namespace DynamicSql

structure Signature where
  kind : ComponentKind
  method : String
  deriving DecidableEq, Repr, Inhabited

namespace Signature

def display (s : Signature) : String :=
  let kind := s.kind.name
  let method := s.method
  s!"{kind}.{method}"

def operation? (s : Signature) : Option Operation := Operation.find? s.kind s.method

end Signature

structure SignatureIndex where
  /-- Kinds in the order in which they first came, each with its operations. -/
  entries : List (ComponentKind × List Operation)
  deriving DecidableEq, Repr, Inhabited

namespace SignatureIndex

def addOperation (op : Operation) (ops : List Operation) : List Operation :=
  if op ∈ ops then ops else ops ++ [op]

def addEntry (op : Operation) :
    List (ComponentKind × List Operation) → List (ComponentKind × List Operation)
  | [] => [(op.kind, [op])]
  | (kind, ops) :: rest =>
    if kind = op.kind then (kind, addOperation op ops) :: rest else (kind, ops) :: addEntry op rest

def unknown (interceptor : String) (s : Signature) : Fault :=
  (Fault.unknownOperation s.kind.name s.method).withHelp s!"Declared by interceptor {interceptor}"

/-- Adds the signatures to entries; the first that names no operation is the fault. -/
def collect (interceptor : String) (entries : List (ComponentKind × List Operation)) :
    List Signature → Except Fault (List (ComponentKind × List Operation))
  | [] => .ok entries
  | s :: rest =>
    match s.operation? with
    | some op => collect interceptor (addEntry op entries) rest
    | none => .error (unknown interceptor s)

def ofSignatures (interceptor : String) (signatures : List Signature) :
    Except Fault SignatureIndex :=
  match collect interceptor [] signatures with
  | .error f => .error f
  | .ok [] => .error (Fault.noSignatures interceptor)
  | .ok entries => .ok ⟨entries⟩

def kinds (index : SignatureIndex) : KindSet := KindSet.ofList (index.entries.map Prod.fst)

def operations? (index : SignatureIndex) (kind : ComponentKind) : Option (List Operation) :=
  index.entries.lookup kind

def contains (index : SignatureIndex) (op : Operation) : Bool :=
  match index.operations? op.kind with
  | some ops => ops.contains op
  | none => false

/-- All operations, kind by kind. -/
def operations (index : SignatureIndex) : List Operation := index.entries.flatMap Prod.snd

def size (index : SignatureIndex) : Nat := index.operations.length

def isEmpty (index : SignatureIndex) : Bool := index.entries.isEmpty

end SignatureIndex

end DynamicSql
