import DynamicSql.Text.Ascii

/-!
Levels of logging, from errors alone to everything.
-/
namespace DynamicSql

inductive LogLevel where
  | error | warn | info | debug | trace
  deriving DecidableEq, Repr, Inhabited

namespace LogLevel

def all : List LogLevel := [error, warn, info, debug, trace]

def name : LogLevel → String
  | error => "error"
  | warn => "warn"
  | info => "info"
  | debug => "debug"
  | trace => "trace"

/-- Levels are numbered from the quietest, which is one. -/
def number : LogLevel → Nat
  | error => 1
  | warn => 2
  | info => 3
  | debug => 4
  | trace => 5

/-- What is logged at one level is logged at every later one. -/
def includes (threshold level : LogLevel) : Bool := decide (level.number ≤ threshold.number)

/-- A number, or a name in any case. -/
def read? (s : Text) : Option LogLevel :=
  match Text.readNat? Integer.bound64 s with
  | some n => all.find? fun level => level.number == n
  | none => all.find? fun level => Text.equalIgnoringCase level.name.toList s

end LogLevel

end DynamicSql
