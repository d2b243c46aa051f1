import DynamicSql.Interception.CallTimes
import DynamicSql.LogLevel
import DynamicSql.Text.Quoted

/-!
Logging of statements. The interceptor numbers the calls, passes each on, and logs what is started, what is
completed, what was slow and what failed, as far as its level asks for it.
-/
namespace DynamicSql

structure LogEvent where
  level : LogLevel
  message : String
  /-- Names and texts of what the event tells. -/
  fields : List (String × String)
  deriving DecidableEq, Repr, Inhabited

structure StatementLog where
  /-- Nothing is logged without a level. -/
  level : Option LogLevel := some .info
  /-- Microseconds from which a statement is slow. -/
  slowFrom : UInt64 := 1000000
  logParameters : Bool := false
  /-- Bytes of a statement that are logged; zero for all of them. -/
  maxBytes : Nat := 500
  label : String := "sqlweave"
  deriving DecidableEq, Repr, Inhabited

/-- Where a log finds the time and its own counter, and leaves its events. -/
structure LogAccess (World : Type) where
  clock : World → Duration
  /-- Takes the number of the next call. -/
  takeNumber : World → UInt64 × World
  emit : LogEvent → World → World

namespace StatementLog

variable {World : Type}

def logs (log : StatementLog) (level : LogLevel) : Bool :=
  match log.level with
  | some threshold => threshold.includes level
  | none => false

/-- The longest part from the start that takes no more than so many bytes. -/
def takeBytes : Nat → Text → Text
  | _, [] => []
  | limit, c :: r => if c.utf8Size ≤ limit then c :: takeBytes (limit - c.utf8Size) r else []

def truncate (log : StatementLog) (sql : Text) : Text :=
  if log.maxBytes = 0 ∨ Text.byteLength sql ≤ log.maxBytes then sql
  else takeBytes log.maxBytes sql ++ "...".toList

def labelled (log : StatementLog) (what : String) : String :=
  let label := log.label
  s!"[{label}] {what}"

def numberField (number : UInt64) : String × String := ("call_id", toString number)

def sqlField (log : StatementLog) (sql : Text) : String × String :=
  ("sql", String.ofList (log.truncate sql))

/-- A number that may be absent. -/
def optionalNumber : Option Nat → String
  | some n => s!"Some({n})"
  | none => "None"

def started (log : StatementLog) (invocation : Invocation World) (number : UInt64) : List LogEvent :=
  if log.logs .debug then
    let sql := (invocation.query?.map Query.text).getD []
    let expressions := (invocation.query?.map Query.expressions).getD []
    let parameters : List (String × String) :=
      if log.logParameters && log.logs .trace then
        [("params", String.ofList (Text.quotedList expressions))]
      else []
    [⟨.debug, log.labelled "Starting statement",
      [numberField number, ("operation", invocation.operation.display), log.sqlField sql] ++
        parameters⟩]
  else []

def affected? : Reply → Option Nat
  | .count n => some n.toNat
  | _ => none

def returned? : Reply → Option Nat
  | .rows vs => some vs.length
  | _ => none

def durationFields (d : Duration) : List (String × String) :=
  [("duration_us", toString d.microseconds), ("duration_ms", toString (d.microseconds / 1000))]

/-- A slow statement is a warning; any other is only information. -/
def completed (log : StatementLog) (sql : Text) (reply : Reply) (number : UInt64) (took : Duration) :
    List LogEvent :=
  if log.slowFrom ≤ took.microseconds && log.logs .warn then
    [⟨.warn, log.labelled "Slow statement detected",
      [numberField number] ++ durationFields took ++
        [log.sqlField sql, ("threshold_us", toString log.slowFrom)]⟩]
  else if log.logs .info then
    [⟨.info, log.labelled "Statement completed",
      [numberField number, ("duration_us", toString took.microseconds),
        ("rows_affected", optionalNumber (affected? reply)),
        ("rows_returned", optionalNumber (returned? reply))]⟩]
  else []

def failed (log : StatementLog) (sql : Text) (failure : Failure) (number : UInt64) : List LogEvent :=
  if log.logs .error then
    [⟨.error, log.labelled "Statement failed",
      [numberField number, log.sqlField sql, ("error", failure.display)]⟩]
  else []

/-- Logs updates and queries of executors. -/
def interceptor (log : StatementLog) (access : LogAccess World) : Interceptor World where
  name := "LoggingInterceptor"
  signatures := CallTimes.defaultSignatures
  intercept invocation := fun world =>
    let (number, world) := access.takeNumber world
    let emitAll (events : List LogEvent) (world : World) : World :=
      events.foldl (fun world event => access.emit event world) world
    let sql := (invocation.query?.map Query.text).getD []
    let world := emitAll (log.started invocation number) world
    match invocation.proceed world with
    | .ok reply after =>
      let took : Duration := ⟨(access.clock after).nanoseconds - (access.clock world).nanoseconds⟩
      .ok reply (emitAll (log.completed sql reply number took) after)
    | .error e after => .error e (emitAll (log.failed sql e number) after)

end StatementLog

end DynamicSql
