import DynamicSql.Template.Rendering

/-!
Ways to reason about a rendering: induction over trees, what a sequence of steps comes to, and
invariants that hold after a step whether it fails or not.
-/
namespace DynamicSql

/-- Induction over trees, in which every child of a node has the property already. -/
theorem Node.structural {motive : Node → Prop}
    (text : ∀ s, motive (.text s))
    (inlined : ∀ t, motive (.inlined t))
    (when : ∀ test body, motive body → motive (.when test body))
    (choose : ∀ branches otherwise, (∀ branch ∈ branches, motive branch.2) →
      (∀ body ∈ otherwise, motive body) → motive (.choose branches otherwise))
    (forEach : ∀ i body, motive body → motive (.forEach i body))
    (trim : ∀ rule body, motive body → motive (.trim rule body))
    (bind : ∀ name value, motive (.bind name value))
    (mixed : ∀ children, (∀ n ∈ children, motive n) → motive (.mixed children)) (n : Node) : motive n :=
  @Node.rec motive (fun branches => ∀ branch ∈ branches, motive branch.2)
    (fun otherwise => ∀ body ∈ otherwise, motive body) (fun children => ∀ n ∈ children, motive n)
    (fun branch => motive branch.2) text inlined when choose forEach trim bind mixed
    (by simp) (fun _ _ hb hr => List.forall_mem_cons.mpr ⟨hb, hr⟩)
    (by simp) (fun _ h => by simpa using h)
    (by simp) (fun _ _ hn hr => List.forall_mem_cons.mpr ⟨hn, hr⟩)
    (fun _ _ h => h) n

namespace Rendering

variable {α β : Type} {x : Rendering α} {f : α → Rendering β} {ctx next last : Context}

/-- An action that fails ends the rendering in the context it has come to. -/
theorem bind_apply (x : Rendering α) (f : α → Rendering β) (ctx : Context) :
    (x >>= f) ctx = match x ctx with
      | .ok a next => f a next
      | .error e next => .error e next := by
  change EStateM.bind x f ctx = _
  unfold EStateM.bind
  cases x ctx <;> rfl

@[simp] theorem pure_apply (a : α) (ctx : Context) : (pure a : Rendering α) ctx = .ok a ctx := rfl

@[simp] theorem update_apply (f : Context → Context) (ctx : Context) :
    update f ctx = .ok () (f ctx) := rfl

@[simp] theorem modifyGet_apply (g : Context → α × Context) (ctx : Context) :
    (modifyGet g : Rendering α) ctx = .ok (g ctx).1 (g ctx).2 := rfl

theorem ofExcept_apply (x : Except Halt α) (ctx : Context) :
    (ofExcept x : Rendering α) ctx = match x with
      | .ok a => .ok a ctx
      | .error e => .error e ctx := by
  cases x <;> rfl

theorem raise_apply (x : Except Fault α) (ctx : Context) :
    (ofExcept (Halt.raise x) : Rendering α) ctx = match x with
      | .ok a => .ok a ctx
      | .error f => .error (.fault f) ctx := by
  cases x <;> rfl

/-- The context after a step, whether the step failed or not. -/
def after (x : Rendering α) (ctx : Context) : Context :=
  match x ctx with
  | .ok _ next => next
  | .error _ next => next

theorem after_ok {a : α} (h : x ctx = .ok a next) : x.after ctx = next := by simp [after, h]

theorem after_error {e : Halt} (h : x ctx = .error e next) : x.after ctx = next := by simp [after, h]

/-- What holds before a step holds after it, also when the step fails. -/
def Keeps (I : Context → Prop) (x : Rendering α) : Prop := ∀ ctx, I ctx → I (x.after ctx)

def Reads (x : Rendering α) : Prop := ∀ ctx, x.after ctx = ctx

variable {I : Context → Prop}

theorem Reads.keeps (h : Reads x) : Keeps I x := by
  intro ctx hi
  rw [h]
  exact hi

theorem keeps_pure (a : α) : Keeps I (pure a) := fun _ h => h

theorem keeps_update {g : Context → Context} (h : ∀ ctx, I ctx → I (g ctx)) : Keeps I (update g) := h

theorem keeps_bind (hx : Keeps I x) (hf : ∀ a, Keeps I (f a)) : Keeps I (x >>= f) := by
  intro ctx hi
  have hn := hx ctx hi
  rw [after, bind_apply]
  cases h : x ctx with
  | ok a next =>
    rw [after_ok h] at hn
    exact hf a next hn
  | error e next =>
    rw [after_error h] at hn
    exact hn

theorem reads_ofExcept (x : Except Halt α) : Reads (ofExcept x : Rendering α) := by
  intro ctx
  rw [after, ofExcept_apply]
  cases x <;> rfl

end Rendering

namespace Setting

open Rendering

/-- What an iteration goes over in a context; a path may lead nowhere. -/
def collected (s : Setting) (ctx : Context) (e : Expression) : Except Fault (Option Value) :=
  match e.asPath? with
  | some path => .ok (s.scope ctx path)
  | none => (e.evaluate (s.scope ctx)).map some

theorem evaluate_apply (s : Setting) (e : Expression) (ctx : Context) :
    s.evaluate e ctx = match e.evaluate (s.scope ctx) with
      | .ok v => .ok v ctx
      | .error f => .error (.fault f) ctx := by
  change (ofExcept (Halt.raise (e.evaluate (s.scope ctx))) : Rendering Value) ctx = _
  rw [raise_apply]
  cases e.evaluate (s.scope ctx) <;> rfl

theorem test_apply (s : Setting) (e : Expression) (ctx : Context) :
    s.test e ctx = match e.test (s.scope ctx) with
      | .ok b => .ok b ctx
      | .error f => .error (.fault f) ctx := by
  rw [test, bind_apply, evaluate_apply, Expression.test]
  cases e.evaluate (s.scope ctx) <;> rfl

theorem collection_apply (s : Setting) (e : Expression) (ctx : Context) :
    s.collection e ctx = match s.collected ctx e with
      | .ok v => .ok v ctx
      | .error f => .error (.fault f) ctx := by
  unfold collection collected
  cases e.asPath? with
  | some path => rfl
  | none =>
    simp only [bind_apply, evaluate_apply]
    cases e.evaluate (s.scope ctx) <;> rfl

theorem reads_test (s : Setting) (e : Expression) : Reads (s.test e) := by
  intro ctx
  rw [after, test_apply]
  cases e.test (s.scope ctx) <;> rfl

theorem reads_evaluate (s : Setting) (e : Expression) : Reads (s.evaluate e) := by
  intro ctx
  rw [after, evaluate_apply]
  cases e.evaluate (s.scope ctx) <;> rfl

end Setting

namespace Iteration

open Rendering

def bindOptional (s : Setting) (name : Option Text) (v : Value) (ctx : Context) : Context :=
  match name with
  | some name => ctx.bindAliased s.config.aliasStem name v
  | none => ctx

/-- The context in which the body of a round begins, but for the buffer. -/
def enter (s : Setting) (i : Iteration) (index item : Value) (ctx : Context) : Context :=
  bindOptional s i.index index (bindOptional s i.item item ctx.pushScope.2)

/-- The context behind a body that ended there. -/
def leave (ctx inner : Context) : Context := ({ inner with buffer := ctx.buffer } : Context).popScope.2

@[simp] theorem bindAliased_buffer (stem name : Text) (v : Value) (ctx : Context) :
    (ctx.bindAliased stem name v).buffer = ctx.buffer := by
  unfold Context.bindAliased
  cases ctx.frames <;> rfl

@[simp] theorem enter_buffer (s : Setting) (i : Iteration) (index item : Value) (ctx : Context) :
    (enter s i index item ctx).buffer = ctx.buffer := by
  unfold enter bindOptional
  cases i.index <;> cases i.item <;> simp [Context.pushScope, Context.takeNumber]

theorem bindOptional_apply (s : Setting) (name : Option Text) (v : Value) (ctx : Context) :
    s.bindOptional name v ctx = .ok () (bindOptional s name v ctx) := by
  cases name <;> rfl

/-- A round runs its body in a scope and an empty buffer, and renames in what the body wrote. -/
theorem round_apply (s : Setting) (i : Iteration) (body : Rendering Unit) (index item : Value)
    (ctx : Context) :
    round s i body index item ctx =
      match body { enter s i index item ctx with buffer := [] } with
      | .error h inner => .error h (leave ctx inner)
      | .ok _ inner =>
        match Placeholder.renameAll s.config.placeholder inner.popScope.1 inner.buffer with
        | .ok renamed => .ok (Text.trim renamed) (leave ctx inner)
        | .error h => .error h (leave ctx inner) := by
  have hc : ∀ opened : Context, opened.buffer = ctx.buffer →
      (do
        let captured ← capture body
        let aliases ← modifyGet Context.popScope
        let text ← ofExcept captured
        let renamed ← ofExcept (Placeholder.renameAll s.config.placeholder aliases text)
        return Text.trim renamed : Rendering Text) opened =
      match body { opened with buffer := [] } with
      | .error h inner => .error h (leave ctx inner)
      | .ok _ inner =>
        match Placeholder.renameAll s.config.placeholder inner.popScope.1 inner.buffer with
        | .ok renamed => .ok (Text.trim renamed) (leave ctx inner)
        | .error h => .error h (leave ctx inner) := by
    intro opened ho
    simp only [bind_apply, capture, ho]
    cases body { opened with buffer := [] } with
    | error h inner => rfl
    | ok u inner =>
      have hp : ({ inner with buffer := ctx.buffer } : Context).popScope.1 = inner.popScope.1 := by
        simp only [Context.popScope]
        cases inner.frames <;> rfl
      simp only [modifyGet_apply, ofExcept_apply, hp]
      cases Placeholder.renameAll s.config.placeholder inner.popScope.1 inner.buffer <;> rfl
  rw [← hc _ (enter_buffer s i index item ctx)]
  simp only [round, bind_apply, update_apply, bindOptional_apply]
  rfl

theorem roundsText_cons_apply (s : Setting) (i : Iteration) (body : Rendering Unit) (index item : Value)
    (rest : List (Value × Value)) (ctx : Context) :
    roundsText s i body ((index, item) :: rest) ctx =
      match round s i body index item ctx with
      | .error h next => .error h next
      | .ok part next =>
        match roundsText s i body rest next with
        | .error h last => .error h last
        | .ok parts last => .ok (if part.isEmpty then parts else part :: parts) last := by
  rw [roundsText, bind_apply]
  cases round s i body index item ctx with
  | error h next => rfl
  | ok part next =>
    simp only [bind_apply]
    cases roundsText s i body rest next <;> rfl

def entries (s : Setting) (i : Iteration) (ctx : Context) : Except Fault (List (Value × Value)) :=
  (s.collected ctx i.collection).bind i.rounds

theorem run_apply (s : Setting) (i : Iteration) (body : Rendering Unit) (ctx : Context) :
    run s i body ctx =
      match i.entries s ctx with
      | .error f => .error (.fault f) ctx
      | .ok rounds =>
        if rounds.isEmpty then .ok () ctx
        else
          match roundsText s i body rounds ctx with
          | .error h next => .error h next
          | .ok parts next => .ok () (next.append (i.assemble parts)) := by
  rw [run, bind_apply, Setting.collection_apply, entries]
  cases s.collected ctx i.collection with
  | error f => rfl
  | ok v =>
    simp only [bind_apply, raise_apply, Except.bind]
    cases i.rounds v with
    | error f => rfl
    | ok rounds =>
      simp only
      split
      · rfl
      · rw [bind_apply]
        cases roundsText s i body rounds ctx <;> rfl

/-- A round leaves its scope on success and on failure. -/
theorem after_round (s : Setting) (i : Iteration) (body : Rendering Unit) (index item : Value)
    (ctx : Context) :
    (round s i body index item).after ctx =
      leave ctx (body.after { enter s i index item ctx with buffer := [] }) := by
  rw [after, after, round_apply]
  cases body { enter s i index item ctx with buffer := [] } with
  | error f inner => rfl
  | ok u inner =>
    simp only
    cases Placeholder.renameAll s.config.placeholder inner.popScope.1 inner.buffer <;> rfl

/-- What every round does to the context, all rounds together do. -/
theorem roundsText_related {s : Setting} {i : Iteration} {body : Rendering Unit}
    {R : Context → Context → Prop} (refl : ∀ ctx, R ctx ctx)
    (trans : ∀ {first second third}, R first second → R second third → R first third)
    (hr : ∀ index item ctx, R ctx ((round s i body index item).after ctx))
    (rounds : List (Value × Value)) (ctx : Context) : R ctx ((roundsText s i body rounds).after ctx) := by
  induction rounds generalizing ctx with
  | nil => exact refl ctx
  | cons entry rest ih =>
    obtain ⟨index, item⟩ := entry
    have hfirst := hr index item ctx
    rw [after, roundsText_cons_apply]
    cases h : round s i body index item ctx with
    | error f next =>
      rw [after_error h] at hfirst
      exact hfirst
    | ok part next =>
      rw [after_ok h] at hfirst
      have hrest := ih next
      simp only
      cases h' : roundsText s i body rest next with
      | error f last =>
        rw [after_error h'] at hrest
        exact trans hfirst hrest
      | ok parts last =>
        rw [after_ok h'] at hrest
        exact trans hfirst hrest

/-- An iteration does what its rounds do, and where it succeeds it writes. -/
theorem run_related {s : Setting} {i : Iteration} {body : Rendering Unit}
    {R : Context → Context → Prop} (refl : ∀ ctx, R ctx ctx)
    (trans : ∀ {first second third}, R first second → R second third → R first third)
    (hr : ∀ index item ctx, R ctx ((round s i body index item).after ctx)) (ctx : Context) :
    match run s i body ctx with
    | .error _ next => R ctx next
    | .ok _ next => ∃ last buffer, R ctx last ∧ next = { last with buffer } := by
  rw [run_apply]
  cases i.entries s ctx with
  | error f => exact refl ctx
  | ok rounds =>
    have hall := roundsText_related refl trans hr rounds ctx
    by_cases he : rounds.isEmpty = true
    · simp only [he, if_true]
      exact ⟨ctx, ctx.buffer, refl ctx, rfl⟩
    · simp only [he, Bool.false_eq_true, if_false]
      cases h : roundsText s i body rounds ctx with
      | error f next =>
        rw [after_error h] at hall
        exact hall
      | ok parts next =>
        rw [after_ok h] at hall
        exact ⟨next, _, hall, rfl⟩

end Iteration

end DynamicSql
