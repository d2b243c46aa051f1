import DynamicSql.Interception.Component

/-!
The courses that calls take. A handler that has been called comes to an end, or proceeds and goes on with what
comes back; it may do so any number of times. What it proceeds with is read before it goes on, and so is what it
replies.
-/
namespace DynamicSql

variable {World : Type} {α : Type}

abbrev Ending (World α : Type) := EStateM.Result Failure World α

namespace Ending

def world : Ending World α → World
  | .ok _ w => w
  | .error _ w => w

def inWorld (w : World) : Ending World α → Ending World α
  | .ok a _ => .ok a w
  | .error e _ => .error e w

@[simp] theorem world_inWorld (w : World) (r : Ending World α) : (r.inWorld w).world = w := by
  cases r <;> rfl

@[simp] theorem inWorld_inWorld (v w : World) (r : Ending World α) : (r.inWorld v).inWorld w = r.inWorld w := by
  cases r <;> rfl

end Ending

/-- What a handler does with a call, from a world on. -/
inductive Course (World : Type) where
  | ends (ending : Ending World Reply)
  | proceeds (args : List Arg) (world : World) (rest : Ending World Reply → Course World)

/-- The ending of a course in front of what the handler can proceed to. -/
def Course.run (next : List Arg → Action World Reply) : Course World → Ending World Reply
  | ends ending => ending
  | proceeds args world rest => (rest (next args world)).run next

namespace Interceptor

variable {i : Interceptor World} {op : Operation}

/-- The handler, called with these arguments in that world, takes the course, whatever it stands in front of. -/
def Takes (i : Interceptor World) (op : Operation) (args : List Arg) (w : World) (course : Course World) : Prop :=
  ∀ next, i.intercept ⟨op, args, next⟩ w = course.run next

/--
The handler, called with these arguments in that world, proceeds with those arguments in that other world; what
comes back makes a difference to it.
-/
def Proceeds (i : Interceptor World) (op : Operation) (args : List Arg) (w : World) (onward : List Arg)
    (v : World) : Prop :=
  ∃ rest, i.Takes op args w (.proceeds onward v rest) ∧ ∃ r s next, (rest r).run next ≠ (rest s).run next

/-- A handler that does nothing but proceed. -/
theorem proceeds_of_eq {args onward : List Arg} (h : ∀ next, i.intercept ⟨op, args, next⟩ = next onward)
    (w : World) : i.Proceeds op args w onward w :=
  ⟨.ends, fun next => congrFun (h next) w, .ok .unit w, .ok (.count 0) w, fun _ => throw (.message ""), nofun⟩

end Interceptor

/-! What arguments and replies are read as. -/

def InputShape.name : InputShape → String
  | nothing => "nothing"
  | query => "query"
  | flag => "flag"
  | rows => "rows"

namespace Operation

variable {op : Operation} {args : List Arg}

/-- The first argument is the input; what follows it does not matter. -/
def Carries (op : Operation) (args : List Arg) (x : op.Input) : Prop :=
  ∃ more, args = Operation.args op.input x ++ more

def found : List Arg → String
  | [] => "no arguments"
  | a :: _ => a.shape

/-- Arguments beyond those that are asked for are not looked at. -/
theorem readArgs_append (op : Operation) (s : InputShape) (x : s.type) (more : List Arg) :
    op.readArgs s (Operation.args s x ++ more) = .ok x := by
  cases s <;> rfl

/-- Arguments that carry no input of the shape are refused with what was expected and what was found. -/
theorem readArgs_cases (op : Operation) (s : InputShape) (args : List Arg) :
    (∃ x more, args = Operation.args s x ++ more ∧ op.readArgs s args = .ok x) ∨
      op.readArgs s args = .error (op.mismatch s.name (found args)) := by
  cases s with
  | nothing => exact .inl ⟨(), args, rfl, rfl⟩
  | query | flag | rows =>
    cases args with
    | nil => exact .inr rfl
    | cons a more => cases a <;> first | exact .inr rfl | exact .inl ⟨_, more, rfl, rfl⟩

/-- A reply has the shape that the operation gives, or is refused for its shape. -/
theorem readReply_cases (op : Operation) (s : OutputShape) (r : Reply) :
    (∃ y, r = Operation.reply s y ∧ op.readReply s r = .ok y) ∨
      op.readReply s r = .error (op.mismatch s.name r.shape.name) := by
  cases s <;> cases r <;> first | exact .inr rfl | exact .inl ⟨_, rfl, rfl⟩

theorem Carries.readArgs {x : op.Input} (h : op.Carries args x) : op.readArgs op.input args = .ok x := by
  obtain ⟨more, rfl⟩ := h
  exact readArgs_append op op.input x more

/-- What an operation is called with carries its input. -/
theorem carries_args (op : Operation) (x : op.Input) : op.Carries (Operation.args op.input x) x :=
  ⟨[], (List.append_nil _).symm⟩

/-- Arguments that carry no input are named as they were found. -/
theorem readArgs_refused (h : ∀ x, ¬ op.Carries args x) :
    op.readArgs op.input args = .error (op.mismatch op.input.name (found args)) := by
  cases op.readArgs_cases op.input args with
  | inl hok =>
    obtain ⟨x, more, he, -⟩ := hok
    exact absurd ⟨more, he⟩ (h x)
  | inr herror => exact herror

theorem readReply_refused {r : Reply} (h : ∀ y, r ≠ Operation.reply op.output y) :
    op.readReply op.output r = .error (op.mismatch op.output.name r.shape.name) := by
  cases op.readReply_cases op.output r with
  | inl hok =>
    obtain ⟨y, he, -⟩ := hok
    exact absurd he (h y)
  | inr herror => exact herror

end Operation

/-! A handler around what it can proceed to. -/

namespace Component

/-- What proceeding comes to: the input is read and goes on, and the output comes back in the open form. -/
def onward (op : Operation) (inner : op.Input → Action World op.Output) (args : List Arg) :
    Action World Reply := do
  let input ← orFail (op.readArgs op.input args)
  let output ← inner input
  return Operation.reply op.output output

/-- The ending of a handler, with its reply read. -/
def settle (op : Operation) : Ending World Reply → Ending World op.Output
  | .error e w => .error e w
  | .ok r w =>
    match op.readReply op.output r with
    | .ok y => .ok y w
    | .error f => .error (.fault f) w

/-- A reply of the right shape ends the call with what it holds. -/
theorem settle_reply (op : Operation) (y : op.Output) (w : World) :
    settle op (.ok (Operation.reply op.output y) w) = .ok y w := by
  simp [settle]

/-- A reply of another shape ends the call with a fault, in the world that was left. -/
theorem settle_refused {op : Operation} {r : Reply} (h : ∀ y, r ≠ Operation.reply op.output y) (w : World) :
    settle op (.ok r w) = .error (.fault (op.mismatch op.output.name r.shape.name)) w := by
  simp [settle, Operation.readReply_refused h]

theorem orFail_bind_ok {α β : Type} (a : α) (f : α → Action World β) : orFail (.ok a) >>= f = f a := rfl

/-- Arguments that carry an input call what is inside with it. -/
theorem onward_carried {op : Operation} {args : List Arg} {x : op.Input} (h : op.Carries args x)
    (inner : op.Input → Action World op.Output) :
    onward op inner args = (do return Operation.reply op.output (← inner x)) := by
  rw [onward, h.readArgs, orFail_bind_ok]

/-- With other arguments what is inside is not called. -/
theorem onward_refused {op : Operation} {args : List Arg} (h : ∀ x, ¬ op.Carries args x)
    (inner : op.Input → Action World op.Output) :
    onward op inner args = throw (.fault (op.mismatch op.input.name (Operation.found args))) := by
  rw [onward, Operation.readArgs_refused h]
  rfl

/-- What lies behind is dispatched to as soon as it exposes the kind. -/
theorem dispatch_of_exposed {c : Component World} {op : Operation} (h : c.exposed.contains op.kind = true) :
    c.dispatch op = onward op (c.call op) := by
  funext args
  rw [dispatch, dispatchWith, if_pos h]
  rfl

end Component

/-- A call of the handler with what it can proceed to. -/
def Interceptor.around (i : Interceptor World) (op : Operation) (inner : op.Input → Action World op.Output)
    (input : op.Input) : Action World op.Output :=
  fun w => Component.settle op (i.intercept ⟨op, Operation.args op.input input, Component.onward op inner⟩ w)

namespace Component

variable {inner : Component World} {i : Interceptor World} {index : SignatureIndex} {kinds : KindSet}
  {op : Operation}

/-- A wrapper hands an operation that is declared to its handler. -/
theorem call_declared (h : index.contains op = true) (input : op.Input) :
    (wrapper inner i index kinds).call op input = fun w =>
      settle op (i.intercept ⟨op, Operation.args op.input input, inner.dispatch op⟩ w) := by
  rw [call, if_pos h]
  funext w
  change (i.intercept ⟨op, Operation.args op.input input, inner.dispatch op⟩ >>=
    fun r => orFail (op.readReply op.output r)) w = _
  cases hr : i.intercept ⟨op, Operation.args op.input input, inner.dispatch op⟩ w with
  | error e v => simp only [bind, EStateM.bind, hr, settle]
  | ok r v =>
    simp only [bind, EStateM.bind, hr, settle]
    cases op.readReply op.output r <;> rfl

/-- A declared operation that is exposed goes through the interceptor. -/
theorem call_around (h : index.contains op = true) (he : inner.exposed.contains op.kind = true) :
    (wrapper inner i index kinds).call op = i.around op (inner.call op) := by
  funext input
  rw [call_declared h, dispatch_of_exposed he]
  rfl

/-- It hands every other operation straight on. -/
theorem call_undeclared (h : ¬ index.contains op = true) (he : inner.exposed.contains op.kind = true) :
    (wrapper inner i index kinds).call op = inner.call op := by
  funext input
  rw [call, if_neg h, if_pos he]

end Component

end DynamicSql
