import DynamicSql.Interception.Operation

/-!
Sets of component kinds. Members are listed in the order in which the kinds are declared.
-/
namespace DynamicSql

structure KindSet where
  executor : Bool := false
  statementHandler : Bool := false
  parameterBinder : Bool := false
  resultMaterializer : Bool := false
  deriving DecidableEq, Repr, Inhabited

namespace KindSet

def empty : KindSet := {}

def contains (s : KindSet) : ComponentKind → Bool
  | .executor => s.executor
  | .statementHandler => s.statementHandler
  | .parameterBinder => s.parameterBinder
  | .resultMaterializer => s.resultMaterializer

def insert (s : KindSet) : ComponentKind → KindSet
  | .executor => { s with executor := true }
  | .statementHandler => { s with statementHandler := true }
  | .parameterBinder => { s with parameterBinder := true }
  | .resultMaterializer => { s with resultMaterializer := true }

def inter (s t : KindSet) : KindSet :=
  ⟨s.executor && t.executor, s.statementHandler && t.statementHandler,
    s.parameterBinder && t.parameterBinder, s.resultMaterializer && t.resultMaterializer⟩

def ofList (kinds : List ComponentKind) : KindSet := kinds.foldl insert empty

def toList (s : KindSet) : List ComponentKind := ComponentKind.all.filter s.contains

def size (s : KindSet) : Nat := s.toList.length

def isEmpty (s : KindSet) : Bool := s == empty

/-- Members between braces. -/
def display (s : KindSet) : String :=
  let names := ", ".intercalate (s.toList.map ComponentKind.name)
  "\x7b" ++ names ++ "\x7d"

@[ext] theorem ext_contains {s t : KindSet} (h : ∀ k, s.contains k = t.contains k) : s = t := by
  cases s; cases t
  have h1 := h .executor
  have h2 := h .statementHandler
  have h3 := h .parameterBinder
  have h4 := h .resultMaterializer
  simp_all [contains]

@[simp] theorem contains_empty (k : ComponentKind) : empty.contains k = false := by
  cases k <;> rfl

@[simp] theorem contains_insert (s : KindSet) (k l : ComponentKind) :
    (s.insert k).contains l = (s.contains l || decide (k = l)) := by
  cases k <;> cases l <;> simp [insert, contains]

@[simp] theorem contains_inter (s t : KindSet) (k : ComponentKind) :
    (s.inter t).contains k = (s.contains k && t.contains k) := by
  cases k <;> rfl

@[simp] theorem mem_toList {s : KindSet} {k : ComponentKind} :
    k ∈ s.toList ↔ s.contains k = true := by simp [toList]

theorem isEmpty_iff {s : KindSet} : s.isEmpty = true ↔ ∀ k, s.contains k = false := by
  constructor
  · intro h k
    have h : s = empty := by simpa [isEmpty] using h
    simp [h]
  · intro h
    have h : s = empty := ext_contains (by simpa using h)
    simp [isEmpty, h]

end KindSet

end DynamicSql
