import DynamicSql.Interception.StatementLog
import DynamicSql.Proofs.Interception.Composition

/-!
Interceptors that only look on. Main statement: behind interceptors that pass calls on as they are, a target is
called once, with the same argument, and its result or its failure is that of the call. What they record for
themselves is not seen by the target.
-/
namespace DynamicSql

open Component

variable {World Seen α : Type} {view : World → Seen} {op : Operation} {i : Interceptor World}
  {chain : Chain World}

/-- The same result or the same failure, in worlds that look alike. -/
inductive Ending.Alike (view : World → Seen) : Ending World α → Ending World α → Prop where
  | ok {a v w} : view v = view w → Alike view (.ok a v) (.ok a w)
  | error {e v w} : view v = view w → Alike view (.error e v) (.error e w)

namespace Ending

theorem Alike.trans {r s t : Ending World α} (h : Alike view r s) (h' : Alike view s t) : Alike view r t := by
  cases h with
  | ok hv =>
    cases h' with
    | ok hw => exact .ok (hv.trans hw)
  | error hv =>
    cases h' with
    | error hw => exact .error (hv.trans hw)

theorem alike_inWorld {r : Ending World α} {w : World} (h : view w = view r.world) :
    Alike view (r.inWorld w) r := by
  cases r with
  | ok a v => exact .ok h
  | error e v => exact .error h

@[simp] theorem inWorld_world (r : Ending World α) : r.inWorld r.world = r := by cases r <;> rfl

def map {β : Type} (f : α → β) : Ending World α → Ending World β
  | .ok a w => .ok (f a) w
  | .error e w => .error e w

@[simp] theorem world_map {β : Type} (f : α → β) (r : Ending World α) : (r.map f).world = r.world := by
  cases r <;> rfl

end Ending

/--
The handler passes every call on with the arguments it came with, and what comes back as it is; what it changes
in the world, before and after, is out of view.
-/
def Interceptor.PassesOn (view : World → Seen) (i : Interceptor World) : Prop :=
  ∀ op args w, ∃ (before : World) (after : Ending World Reply → World),
    view before = view w ∧ (∀ r, view (after r) = view r.world) ∧
      i.Takes op args w (.proceeds args before fun r => .ends (r.inWorld (after r)))

namespace Component

/-- The call that goes on does what is inside, with the reply in its general form. -/
theorem onward_args (inner : op.Input → Action World op.Output) (x : op.Input) (w : World) :
    onward op inner (Operation.args op.input x) w = Ending.map (Operation.reply op.output) (inner x w) := by
  rw [onward_carried (Operation.carries_args op x)]
  simp only [bind, EStateM.bind]
  cases inner x w <;> rfl

theorem settle_map_inWorld (r : Ending World op.Output) (w : World) :
    settle op ((Ending.map (Operation.reply op.output) r).inWorld w) = r.inWorld w := by
  cases r with
  | ok y v => exact settle_reply op y w
  | error e v => rfl

end Component

/-- An interceptor that passes on does something before and after, and calls what is inside once. -/
theorem Interceptor.PassesOn.around (h : i.PassesOn view) (op : Operation) (x : op.Input) (w : World) :
    ∃ (before : World) (after : Ending World op.Output → World), view before = view w ∧
      (∀ r, view (after r) = view r.world) ∧
      ∀ inner, i.around op inner x w = Ending.inWorld (after (inner x before)) (inner x before) := by
  obtain ⟨before, after, hbefore, hafter, hcourse⟩ := h op (Operation.args op.input x) w
  refine ⟨before, fun r => after (r.map (Operation.reply op.output)), hbefore, fun r => ?_, fun inner => ?_⟩
  · rw [hafter, Ending.world_map]
  · rw [Interceptor.around, hcourse, Course.run, Course.run, onward_args, settle_map_inWorld]

/-- Handlers that pass calls on come to one call of what they stand around. -/
theorem nested_passesOn {handlers : List (Interceptor World)} (h : ∀ i ∈ handlers, i.PassesOn view) (op : Operation)
    (x : op.Input) (w : World) :
    ∃ (before : World) (after : Ending World op.Output → World), view before = view w ∧
      (∀ r, view (after r) = view r.world) ∧
      ∀ run, nested op handlers run x w = Ending.inWorld (after (run x before)) (run x before) := by
  induction handlers generalizing w with
  | nil => exact ⟨w, Ending.world, rfl, fun _ => rfl, fun run => (Ending.inWorld_world (run x w)).symm⟩
  | cons i later ih =>
    obtain ⟨outer, close, houter, hclose, haround⟩ := (h i List.mem_cons_self).around op x w
    obtain ⟨before, after, hbefore, hafter, hnested⟩ :=
      ih (fun j hj => h j (List.mem_cons_of_mem i hj)) outer
    refine ⟨before, fun r => close (r.inWorld (after r)), hbefore.trans houter, fun r => ?_, fun run => ?_⟩
    · rw [hclose, Ending.world_inWorld, hafter]
    · change i.around op (nested op later run) x w = _
      rw [haround, hnested, Ending.inWorld_inWorld]

/-! The interceptors of this library look on. -/

def Ending.failed : Ending World α → Bool
  | .ok _ _ => false
  | .error _ _ => true

/-- Taking times passes a call on, whatever the clock says. -/
theorem CallTimes.interceptor_passesOn (clock : World → Duration)
    {update : (CallTimes → CallTimes) → World → World} (hu : ∀ f w, view (update f w) = view w)
    (signatures : List Signature) : (CallTimes.interceptor clock update signatures).PassesOn view := by
  intro op args w
  refine ⟨w, fun r => update (record ⟨(clock r.world).nanoseconds - (clock w).nanoseconds⟩ r.failed) r.world,
    rfl, fun r => hu _ _, fun next => ?_⟩
  simp only [CallTimes.interceptor, Invocation.proceed, Course.run]
  cases next args w <;> rfl

def LogAccess.emitAll (access : LogAccess World) (events : List LogEvent) (w : World) : World :=
  events.foldl (fun world event => access.emit event world) w

/-- Writing several events is no more seen than writing one. -/
theorem LogAccess.view_emitAll {access : LogAccess World} (he : ∀ event w, view (access.emit event w) = view w)
    (events : List LogEvent) (w : World) : view (access.emitAll events w) = view w := by
  induction events generalizing w with
  | nil => rfl
  | cons event rest ih => exact (ih _).trans (he event w)

namespace StatementLog

def statement (args : List Arg) : Text :=
  ((⟨.query, args, fun _ => throw default⟩ : Invocation Unit).query?.map Query.text).getD []

/-- The world in which a logged call is passed on. -/
def begun (log : StatementLog) (access : LogAccess World) (op : Operation) (args : List Arg) (w : World) : World :=
  access.emitAll (log.started (⟨op, args, fun _ => throw default⟩ : Invocation World) (access.takeNumber w).1)
    (access.takeNumber w).2

/-- What is logged when the call comes back. -/
def concluded (log : StatementLog) (sql : Text) (number : UInt64) (took : Duration) :
    Ending World Reply → List LogEvent
  | .ok reply _ => log.completed sql reply number took
  | .error e _ => log.failed sql e number

theorem interceptor_passesOn (log : StatementLog) {access : LogAccess World}
    (ht : ∀ w, view (access.takeNumber w).2 = view w) (he : ∀ event w, view (access.emit event w) = view w) :
    (log.interceptor access).PassesOn view := by
  intro op args w
  refine ⟨log.begun access op args w, fun r => access.emitAll
    (log.concluded (statement args) (access.takeNumber w).1
      ⟨(access.clock r.world).nanoseconds - (access.clock (log.begun access op args w)).nanoseconds⟩ r) r.world,
    (LogAccess.view_emitAll he _ _).trans (ht w), fun r => LogAccess.view_emitAll he _ _, fun next => ?_⟩
  -- what is logged at the start does not depend on what the handler proceeds to
  simp only [interceptor, Invocation.proceed, Course.run, begun, LogAccess.emitAll, started, Invocation.query?]
  cases next args _ <;> rfl

end StatementLog

namespace Chain

/--
In a chain of interceptors that pass calls on, a call comes to one call of the target, with the same argument, in
a world that looks the same: whatever the target is, its result or failure is that of the call. So a target that
does nothing by what is out of view answers as it does without the chain, and every failure is its own.
-/
theorem applyAll_transparent (hc : chain.Reachable) (hp : ∀ i ∈ chain.interceptors, i.PassesOn view) (op : Operation)
    (x : op.Input) (w : World) :
    ∃ (before : World) (after : Ending World op.Output → World),
      view before = view w ∧ (∀ r, view (after r) = view r.world) ∧
      ∀ base c, base.kinds = base.exposed → (chain.applyAll base).1 = .ok c → c.exposed.contains op.kind = true →
        c.call op x w = Ending.inWorld (after (base.call op x before)) (base.call op x before) ∧
        (∀ e v, c.call op x w = .error e v → ∃ u, base.call op x before = .error e u) ∧
        ((∀ v, view v = view w → Ending.Alike view (base.call op x v) (base.call op x w)) →
          Ending.Alike view (c.call op x w) (base.call op x w)) := by
  have hhandlers : ∀ i ∈ chain.interceptors.filter (·.Declares op), i.PassesOn view :=
    fun i hi => hp i (List.mem_filter.mp hi).1
  obtain ⟨before, after, hbefore, hafter, hnested⟩ := nested_passesOn hhandlers op x w
  refine ⟨before, after, hbefore, hafter, fun base c hb h he => ?_⟩
  have hcall : c.call op x w = Ending.inWorld (after (base.call op x before)) (base.call op x before) := by
    rw [call_of_wrapAll hb ((hc.applyAll base).symm.trans h) he, hnested]
  refine ⟨hcall, fun e v herror => ?_, fun hblind => ?_⟩
  · rw [hcall] at herror
    cases hr : base.call op x before with
    | ok y u =>
      rw [hr] at herror
      cases herror
    | error f u =>
      rw [hr] at herror
      cases herror
      exact ⟨u, rfl⟩
  · rw [hcall]
    exact (Ending.alike_inWorld (hafter _)).trans (hblind before hbefore)

end Chain

/-! An executor that is logged and timed. -/

structure Monitored where
  /-- The statements that the executor was given. -/
  statements : List Text
  number : UInt64
  events : List LogEvent
  times : CallTimes

namespace Monitored

def clock (w : Monitored) : Duration := ⟨1000000000 * UInt64.ofNat w.statements.length⟩

def access : LogAccess Monitored where
  clock := clock
  takeNumber w := (w.number, { w with number := w.number + 1 })
  emit event w := { w with events := w.events ++ [event] }

def updateTimes (f : CallTimes → CallTimes) (w : Monitored) : Monitored := { w with times := f w.times }

def timing : Interceptor Monitored := CallTimes.interceptor clock updateTimes CallTimes.defaultSignatures

def logging : Interceptor Monitored := StatementLog.interceptor {} access

def executor : Target Monitored where
  exposed := .ofList [.executor]
  declared := .ofList [.executor]
  perform
    | .update, q => fun w => .ok (1 : UInt64) { w with statements := w.statements ++ [q.text] }
    | .query, q => fun w => .error (.message "timeout") { w with statements := w.statements ++ [q.text] }
    | _, _ => throw (.message "unsupported")

def observers : Chain Monitored := Chain.ofList [logging, timing]

theorem observers_passOn (i : Interceptor Monitored) (hi : i ∈ observers.interceptors) : i.PassesOn statements := by
  have hi : i ∈ [logging, timing] := hi
  simp only [List.mem_cons, List.not_mem_nil, or_false] at hi
  cases hi with
  | inl h =>
    subst h
    exact StatementLog.interceptor_passesOn {} (fun _ => rfl) (fun _ _ => rfl)
  | inr h =>
    subst h
    have hkept : ∀ f w, statements (updateTimes f w) = statements w := fun _ _ => rfl
    exact CallTimes.interceptor_passesOn clock hkept CallTimes.defaultSignatures

/-- Each call gives the executor its statement once, and has its result or its failure. -/
theorem observers_transparent : ∃ c, (observers.applyAll (.target executor)).1 = .ok c ∧
    (∃ v, c.call .update { text := "DELETE".toList } ⟨[], 0, [], {}⟩ = .ok (1 : UInt64) v ∧
      v.statements = ["DELETE".toList]) ∧
    ∃ v, c.call .query { text := "SELECT".toList } ⟨[], 0, [], {}⟩ = .error (.message "timeout") v ∧
      v.statements = ["SELECT".toList] := by
  have hreach : observers.Reachable := Chain.reachable_ofList [logging, timing]
  have hagree : (Component.target executor).kinds = (Component.target executor).exposed := rfl
  obtain ⟨c, h, he⟩ : ∃ c, (observers.applyAll (.target executor)).1 = .ok c ∧ c.exposed.contains .executor = true :=
    ⟨_, rfl, rfl⟩
  refine ⟨c, h, ?_, ?_⟩
  · obtain ⟨before, after, hbefore, hafter, hcall⟩ :=
      Chain.applyAll_transparent hreach observers_passOn .update { text := "DELETE".toList } ⟨[], 0, [], {}⟩
    obtain ⟨hsame, -, -⟩ := hcall _ c hagree h he
    refine ⟨_, hsame, (hafter _).trans ?_⟩
    change before.statements ++ ["DELETE".toList] = _
    rw [hbefore, List.nil_append]
  · obtain ⟨before, after, hbefore, hafter, hcall⟩ :=
      Chain.applyAll_transparent hreach observers_passOn .query { text := "SELECT".toList } ⟨[], 0, [], {}⟩
    obtain ⟨hsame, -, -⟩ := hcall _ c hagree h he
    refine ⟨_, hsame, (hafter _).trans ?_⟩
    change before.statements ++ ["SELECT".toList] = _
    rw [hbefore, List.nil_append]

end Monitored

end DynamicSql
