import DynamicSql.Interception.Component
import DynamicSql.Text.Quoted

/-!
Chains of interceptors. The first registered is the outermost: it sees each call first. The index of an
interceptor is built when the chain is first applied, and kept.
-/
namespace DynamicSql

structure Chain.Slot (World : Type) where
  interceptor : Interceptor World
  index : Option SignatureIndex

/-- Interceptors in the order of registration. -/
structure Chain (World : Type) where
  slots : List (Chain.Slot World)

namespace Chain

variable {World : Type}

def empty : Chain World := ⟨[]⟩

def register (chain : Chain World) (i : Interceptor World) : Chain World :=
  ⟨chain.slots ++ [⟨i, none⟩]⟩

/-- Registers an interceptor that is switched on. -/
def registerIf (on : Bool) (chain : Chain World) (i : Interceptor World) : Chain World :=
  if on then chain.register i else chain

def ofList (interceptors : List (Interceptor World)) : Chain World :=
  ⟨interceptors.map fun i => ⟨i, none⟩⟩

def interceptors (chain : Chain World) : List (Interceptor World) :=
  chain.slots.map Slot.interceptor

def names (chain : Chain World) : List String := chain.interceptors.map Interceptor.name

def size (chain : Chain World) : Nat := chain.slots.length

def isEmpty (chain : Chain World) : Bool := chain.slots.isEmpty

/-- The names, quoted. -/
def display (chain : Chain World) : Text := Text.quotedList (chain.names.map String.toList)

/-- The index that was kept, or a new one. -/
def Slot.indexed (slot : Slot World) : Except Fault SignatureIndex :=
  match slot.index with
  | some index => .ok index
  | none => slot.interceptor.index

/-- Wraps from the last slot to the first; indices built before a fault are kept. -/
def applySlots : List (Slot World) → Component World →
    Except Fault (Component World) × List (Slot World)
  | [], c => (.ok c, [])
  | slot :: rest, c =>
    match applySlots rest c with
    | (.error f, rest) => (.error f, slot :: rest)
    | (.ok inner, rest) =>
      match slot.indexed with
      | .error f => (.error f, slot :: rest)
      | .ok index =>
        (.ok (slot.interceptor.wrapWith index inner).component,
          { slot with index := some index } :: rest)

/-- The component with every interceptor around it that matches, and the chain with its indices. -/
def applyAll (chain : Chain World) (c : Component World) :
    Except Fault (Component World) × Chain World :=
  let (outcome, slots) := applySlots chain.slots c
  (outcome, ⟨slots⟩)

/-- The same component, made by wrapping with one interceptor after the other. -/
def wrapAll : List (Interceptor World) → Component World → Except Fault (Component World)
  | [], c => .ok c
  | i :: rest, c =>
    match wrapAll rest c with
    | .error f => .error f
    | .ok inner =>
      match i.wrap inner with
      | .ok wrapped => .ok wrapped.component
      | .error f => .error f

end Chain

end DynamicSql
