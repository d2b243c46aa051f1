import DynamicSql.Interception.Component

/-!
Measuring how long calls take. The interceptor passes every call on and records the time it took, whether it
failed or not. Sums are kept in 64 bits and wrap.
-/
namespace DynamicSql

/-- A duration in nanoseconds. -/
structure Duration where
  nanoseconds : UInt64
  deriving DecidableEq, Repr, Inhabited

namespace Duration

def microseconds (d : Duration) : UInt64 := d.nanoseconds / 1000

def milliseconds (d : Duration) : UInt64 := d.nanoseconds / 1000000

end Duration

structure CallTimes where
  total : Duration := ⟨0⟩
  calls : UInt64 := 0
  failures : UInt64 := 0
  last : Duration := ⟨0⟩
  deriving DecidableEq, Repr, Inhabited

namespace CallTimes

/-- The mean duration, which is nothing before the first call. -/
def average (t : CallTimes) : Duration :=
  if t.calls = 0 then ⟨0⟩ else ⟨t.total.nanoseconds / t.calls⟩

def record (elapsed : Duration) (failed : Bool) (t : CallTimes) : CallTimes where
  total := ⟨t.total.nanoseconds + elapsed.nanoseconds⟩
  calls := t.calls + 1
  failures := if failed then t.failures + 1 else t.failures
  last := elapsed

/-- Updates and queries of executors. -/
def defaultSignatures : List Signature := [⟨.executor, "update"⟩, ⟨.executor, "query"⟩]

variable {World : Type}

/-- Times the calls of a world with a clock, and records them in it. -/
def interceptor (clock : World → Duration) (update : (CallTimes → CallTimes) → World → World)
    (signatures : List Signature) : Interceptor World where
  name := "TimingInterceptor"
  signatures := signatures
  intercept invocation := fun world =>
    let elapsed (after : World) : Duration :=
      ⟨(clock after).nanoseconds - (clock world).nanoseconds⟩
    match invocation.proceed world with
    | .ok reply after => .ok reply (update (record (elapsed after) false) after)
    | .error e after => .error e (update (record (elapsed after) true) after)

end CallTimes

end DynamicSql
