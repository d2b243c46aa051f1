import DynamicSql.Proofs.Interception.Course
import DynamicSql.Proofs.Interception.Exposure

/-!
Chains as compositions. Main statement: a call of a wrapped component runs the handlers of those interceptors
that declare the operation, and no others, one inside the other in the order of registration, around the
operation of the target.
-/
namespace DynamicSql

open Component

variable {World : Type} {op : Operation} {i : Interceptor World} {base c : Component World}
  {chain : Chain World} {interceptors : List (Interceptor World)}

/-- Handlers one inside the other, the first outermost, around an operation. -/
def nested (op : Operation) (handlers : List (Interceptor World)) (run : op.Input → Action World op.Output) :
    op.Input → Action World op.Output :=
  handlers.foldr (fun i inner => i.around op inner) run

/-- `outer` calls the handler with the input, and `next` is what the handler proceeds to: a call of `inner`. -/
structure Stage (op : Operation) (i : Interceptor World) (inner outer : op.Input → Action World op.Output)
    (next : List Arg → Action World Reply) : Prop where
  /-- The first argument goes on, and the output or the failure comes back as it is. -/
  proceeds : ∀ args x w, op.Carries args x →
    (∀ y v, inner x w = .ok y v → next args w = .ok (Operation.reply op.output y) v) ∧
    ∀ e v, inner x w = .error e v → next args w = .error e v
  /-- A first argument of another shape does not go on. -/
  refuses : ∀ args w, (∀ x, ¬ op.Carries args x) →
    next args w = .error (.fault (Fault.invocationMismatch op.display op.input.name (Operation.found args))) w
  replies : ∀ x w y v, i.intercept ⟨op, Operation.args op.input x, next⟩ w = .ok (Operation.reply op.output y) v →
    outer x w = .ok y v
  /-- A reply of another shape is a failure. -/
  misreplies : ∀ x w r v, i.intercept ⟨op, Operation.args op.input x, next⟩ w = .ok r v →
    (∀ y, r ≠ Operation.reply op.output y) →
      outer x w = .error (.fault (Fault.invocationMismatch op.display op.output.name r.shape.name)) v
  fails : ∀ x w e v, i.intercept ⟨op, Operation.args op.input x, next⟩ w = .error e v → outer x w = .error e v
  /-- A handler that ends without proceeding settles the call, and nothing behind it has touched the world. -/
  stops : ∀ x w ending, i.Takes op (Operation.args op.input x) w (.ends ending) → outer x w = settle op ending

theorem stage_around (i : Interceptor World) (inner : op.Input → Action World op.Output) :
    Stage op i inner (i.around op inner) (onward op inner) where
  proceeds args x w h := by
    rw [onward_carried h]
    constructor
    · intro y v hy
      simp [bind, EStateM.bind, hy]
      rfl
    · intro e v he
      simp [bind, EStateM.bind, he]
  refuses args w h := by
    rw [onward_refused h]
    rfl
  replies x w y v h := by rw [Interceptor.around, h, settle_reply]
  misreplies x w r v h hr := by
    rw [Interceptor.around, h, settle_refused hr]
    rfl
  fails x w e v h := by rw [Interceptor.around, h, settle]
  stops x w ending h := by rw [Interceptor.around, h, Course.run]

/-- A call of what wrapping made, of a kind that it exposes. -/
theorem call_of_wrapAll (hb : base.kinds = base.exposed) (h : Chain.wrapAll interceptors base = .ok c)
    (he : c.exposed.contains op.kind = true) :
    c.call op = nested op (interceptors.filter (·.Declares op)) (base.call op) := by
  induction interceptors generalizing c with
  | nil =>
    obtain rfl := Except.ok.inj h
    rfl
  | cons i later ih =>
    obtain ⟨inner, hinner, hexposed, hcases⟩ := Chain.wrapAll_cons_cases hb h he
    have hinnermost := ih hinner hexposed
    by_cases hd : i.Declares op
    · rw [List.filter_cons_of_pos (by simpa using hd)]
      obtain ⟨hn, -⟩ | ⟨index, kinds, rfl, hcontains⟩ := hcases
      · exact absurd hd hn
      · rw [call_around (hcontains.mpr hd) hexposed, hinnermost]
        rfl
    · rw [List.filter_cons_of_neg (by simpa using hd)]
      obtain ⟨-, rfl⟩ | ⟨index, kinds, rfl, hcontains⟩ := hcases
      · exact hinnermost
      · rw [call_undeclared (fun hi => hd (hcontains.mp hi)) hexposed, hinnermost]

namespace Chain

/--
Where all declarations are valid and the target exposes what it says, a call of a kind that the wrapped
component exposes is the composition of the handlers that declare the operation, and each of them is a stage in
front of those registered after it and of the target.
-/
theorem applyAll_composes (hc : chain.Reachable) (hv : ∀ i ∈ chain.interceptors, i.Valid)
    (hb : base.kinds = base.exposed) :
    ∃ c, (chain.applyAll base).1 = .ok c ∧ ∀ op, c.exposed.contains op.kind = true →
      c.call op = nested op (chain.interceptors.filter (·.Declares op)) (base.call op) ∧
      ∀ earlier i later, chain.interceptors.filter (·.Declares op) = earlier ++ i :: later →
        ∃ next, Stage op i (nested op later (base.call op)) (nested op (i :: later) (base.call op)) next := by
  obtain ⟨c, h⟩ := (exists_wrapAll_iff base).mpr hv
  refine ⟨c, (hc.applyAll base).trans h, fun op he => ⟨call_of_wrapAll hb h he, ?_⟩⟩
  intro earlier i later _
  exact ⟨_, stage_around i (nested op later (base.call op))⟩

end Chain

/-! An executor behind two interceptors, in a world that lists the statements that were run. -/

def restrict : Arg → Arg
  | .query q => .query { q with text := q.text ++ " WHERE tenant = 7".toList }
  | a => a

def tenant : Interceptor (List Text) where
  name := "tenant"
  signatures := [⟨.executor, "query"⟩]
  intercept call := (call.withArgs (call.args.map restrict)).proceed

/-- Answers updates without running them, and commits by mistake with a count. -/
def readOnly : Interceptor (List Text) where
  name := "readOnly"
  signatures := [⟨.executor, "update"⟩, ⟨.executor, "commit"⟩]
  intercept _ := return .count 0

def desk (kinds : List ComponentKind) : Target (List Text) where
  exposed := .ofList kinds
  declared := .ofList kinds
  perform
    | .update, q => fun w => .ok (1 : UInt64) (w ++ [q.text])
    | .query, q => fun w => .ok [] (w ++ [q.text])
    | _, _ => throw (.message "not at this desk")

def deskChain : Chain (List Text) := (Chain.ofList [readOnly]).register tenant

theorem deskChain_composes : ∃ c, (deskChain.applyAll (.target (desk [.executor]))).1 = .ok c ∧
    c.exposed.contains .executor = true ∧
    c.call .query { text := "SELECT 1".toList } [] = .ok [] ["SELECT 1 WHERE tenant = 7".toList] ∧
    c.call .update { text := "DELETE".toList } [] = .ok (0 : UInt64) [] ∧
    c.call .commit true [] = .error (.fault (Fault.invocationMismatch "Executor.commit" "unit" "count")) [] ∧
    c.call .rollback true [] = .error (.message "not at this desk") [] := by
  have hreach : deskChain.Reachable := ⟨[readOnly], [.register tenant], rfl⟩
  have hvalid : ∀ i ∈ deskChain.interceptors, i.Valid := by decide
  have hagree : (Component.target (desk [.executor])).kinds = (Component.target (desk [.executor])).exposed := rfl
  obtain ⟨c, h, hcompose⟩ := Chain.applyAll_composes hreach hvalid hagree
  have he : c.exposed.contains .executor = true := by
    obtain rfl := Except.ok.inj h
    rfl
  refine ⟨c, h, he, ?_, ?_, ?_, ?_⟩
  · rw [(hcompose .query he).1]
    rfl
  · rw [(hcompose .update he).1]
    rfl
  · rw [(hcompose .commit he).1]
    rfl
  · rw [(hcompose .rollback he).1]
    rfl

end DynamicSql
