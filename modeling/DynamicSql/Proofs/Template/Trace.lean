import DynamicSql.Proofs.Template.Run

/-!
What happens in a run that succeeds: the texts it writes, the outcomes of its tests, the rounds of
its iterations and the names it binds. Main statement: the rules below derive exactly the runs that
rendering has.
-/
namespace DynamicSql

inductive Event where
  | wrote (s : Text)
  | tested (holds : Bool)
  /-- An iteration that is skipped has no rounds. -/
  | iterated (rounds : Nat)
  | bound (name : Text) (value : Value)
  /-- What happens in the scope of one round. -/
  | round (events : List Event)

/-- What a run decides: the outcome of a test, or how many rounds an iteration has. -/
inductive Decision where
  | test (holds : Bool)
  | rounds (count : Nat)
  deriving DecidableEq

namespace Event

mutual

def decisions : Event → List Decision
  | wrote _ => []
  | tested holds => [.test holds]
  | iterated rounds => [.rounds rounds]
  | bound _ _ => []
  | round events => decisionsOfAll events

def decisionsOfAll : List Event → List Decision
  | [] => []
  | e :: rest => decisions e ++ decisionsOfAll rest

end

@[simp] theorem decisionsOfAll_append (es more : List Event) :
    decisionsOfAll (es ++ more) = decisionsOfAll es ++ decisionsOfAll more := by
  induction es with
  | nil => rfl
  | cons e rest ih => rw [List.cons_append, decisionsOfAll, ih, decisionsOfAll, List.append_assoc]

end Event

namespace Iteration

def given (i : Iteration) (index item : Value) : List Event :=
  i.item.toList.map (Event.bound · item) ++ i.index.toList.map (Event.bound · index)

/-- Rounds that come to nothing leave no text. -/
def keep (part : Text) (parts : List Text) : List Text := if part.isEmpty then parts else part :: parts

end Iteration

/-- What is run: a node, or the rounds of an iteration, which come to texts. -/
inductive Task where
  | node (n : Node)
  | rounds (i : Iteration) (body : Node) (entries : List (Value × Value)) (parts : List Text)

/-- Runs that succeed, from a context to a context, with what happens in them. -/
inductive Runs (s : Setting) : Task → Context → List Event → Context → Prop where
  | text {t : Text} {ctx : Context} : Runs s (.node (.text t)) ctx [.wrote t] (ctx.append t)
  | inlined {t : InlineText} {ctx : Context} {out : Text} :
      InlineText.render (s.scope ctx) t.parts = .ok out →
      Runs s (.node (.inlined t)) ctx [.wrote out] (ctx.append out)
  | whenHolds {test : Expression} {body : Node} {ctx next : Context} {es : List Event} :
      test.test (s.scope ctx) = .ok true → Runs s (.node body) ctx es next →
      Runs s (.node (.when test body)) ctx (.tested true :: es) next
  | whenFails {test : Expression} {body : Node} {ctx : Context} : test.test (s.scope ctx) = .ok false →
      Runs s (.node (.when test body)) ctx [.tested false] ctx
  | chooseFirst {test : Expression} {body : Node} {rest : List (Expression × Node)} {otherwise : Option Node}
      {ctx next : Context} {es : List Event} :
      test.test (s.scope ctx) = .ok true → Runs s (.node body) ctx es next →
      Runs s (.node (.choose ((test, body) :: rest) otherwise)) ctx (.tested true :: es) next
  | chooseLater {test : Expression} {body : Node} {rest : List (Expression × Node)} {otherwise : Option Node}
      {ctx next : Context} {es : List Event} :
      test.test (s.scope ctx) = .ok false → Runs s (.node (.choose rest otherwise)) ctx es next →
      Runs s (.node (.choose ((test, body) :: rest) otherwise)) ctx (.tested false :: es) next
  | chooseOtherwise {body : Node} {ctx next : Context} {es : List Event} :
      Runs s (.node body) ctx es next → Runs s (.node (.choose [] (some body))) ctx es next
  | chooseNone {ctx : Context} : Runs s (.node (.choose [] none)) ctx [] ctx
  | forEachEmpty {i : Iteration} {body : Node} {ctx : Context} : i.entries s ctx = .ok [] →
      Runs s (.node (.forEach i body)) ctx [.iterated 0] ctx
  | forEach {i : Iteration} {body : Node} {entries : List (Value × Value)} {parts : List Text}
      {ctx next : Context} {es : List Event} :
      i.entries s ctx = .ok entries → entries ≠ [] → Runs s (.rounds i body entries parts) ctx es next →
      Runs s (.node (.forEach i body)) ctx (.iterated entries.length :: es) (next.append (i.assemble parts))
  | trim {rule : TrimRule} {body : Node} {ctx inner : Context} {es : List Event} :
      Runs s (.node body) { ctx with buffer := [] } es inner →
      Runs s (.node (.trim rule body)) ctx es
        (Context.append (rule.apply inner.buffer) { inner with buffer := ctx.buffer })
  | bind {name : Text} {value : Expression} {ctx : Context} {v : Value} :
      value.evaluate (s.scope ctx) = .ok v →
      Runs s (.node (.bind name value)) ctx [.bound name v] (ctx.bindAliased s.config.aliasStem name v)
  | mixedNil {ctx : Context} : Runs s (.node (.mixed [])) ctx [] ctx
  | mixedCons {n : Node} {rest : List Node} {ctx next last : Context} {es more : List Event} :
      Runs s (.node n) ctx es next → Runs s (.node (.mixed rest)) next more last →
      Runs s (.node (.mixed (n :: rest))) ctx (es ++ more) last
  | roundsNil {i : Iteration} {body : Node} {ctx : Context} : Runs s (.rounds i body [] []) ctx [] ctx
  | roundsCons {i : Iteration} {body : Node} {index item : Value} {rest : List (Value × Value)}
      {renamed : Text} {parts : List Text} {ctx inner last : Context} {es more : List Event} :
      Runs s (.node body) { Iteration.enter s i index item ctx with buffer := [] } es inner →
      Placeholder.renameAll s.config.placeholder inner.popScope.1 inner.buffer = .ok renamed →
      Runs s (.rounds i body rest parts) (Iteration.leave ctx inner) more last →
      Runs s (.rounds i body ((index, item) :: rest) (Iteration.keep (Text.trim renamed) parts)) ctx
        (.round (i.given index item ++ es) :: more) last

open Rendering

namespace Node

variable (s : Setting) (ctx : Context)

theorem render_inlined_apply (t : InlineText) : render s (.inlined t) ctx =
    match InlineText.render (s.scope ctx) t.parts with
    | .ok out => .ok () (ctx.append out)
    | .error f => .error (.fault f) ctx := by
  rw [render, bind_apply]
  change (ofExcept (Halt.raise (InlineText.render (s.scope ctx) t.parts)) >>=
    fun out => update (Context.append out) : Rendering Unit) ctx = _
  rw [bind_apply, raise_apply]
  cases InlineText.render (s.scope ctx) t.parts <;> rfl

theorem render_when_apply (test : Expression) (body : Node) : render s (.when test body) ctx =
    match test.test (s.scope ctx) with
    | .ok true => render s body ctx
    | .ok false => .ok () ctx
    | .error f => .error (.fault f) ctx := by
  rw [render, bind_apply, Setting.test_apply]
  rcases test.test (s.scope ctx) with f | holds
  · rfl
  · cases holds <;> rfl

theorem render_choose_cons_apply (test : Expression) (body : Node) (rest : List (Expression × Node))
    (otherwise : Option Node) : render s (.choose ((test, body) :: rest) otherwise) ctx =
    match test.test (s.scope ctx) with
    | .ok true => render s body ctx
    | .ok false => render s (.choose rest otherwise) ctx
    | .error f => .error (.fault f) ctx := by
  rw [render, renderChoice, bind_apply, Setting.test_apply]
  rcases test.test (s.scope ctx) with f | holds
  · rfl
  · cases holds
    · simp only [Bool.false_eq_true, if_false, render]
    · rfl

theorem render_choose_nil (otherwise : Option Node) :
    render s (.choose [] otherwise) = renderOptional s otherwise := by rw [render, renderChoice]

theorem render_trim_apply (rule : TrimRule) (body : Node) : render s (.trim rule body) ctx =
    match render s body { ctx with buffer := [] } with
    | .ok _ inner => .ok () (Context.append (rule.apply inner.buffer) { inner with buffer := ctx.buffer })
    | .error h inner => .error h { inner with buffer := ctx.buffer } := by
  rw [render, bind_apply, capture]
  cases render s body { ctx with buffer := [] } <;> rfl

theorem render_bind_apply (name : Text) (value : Expression) : render s (.bind name value) ctx =
    match value.evaluate (s.scope ctx) with
    | .ok v => .ok () (ctx.bindAliased s.config.aliasStem name v)
    | .error f => .error (.fault f) ctx := by
  rw [render, bind_apply, Setting.evaluate_apply]
  cases value.evaluate (s.scope ctx) <;> rfl

theorem render_mixed_cons_apply (n : Node) (rest : List Node) : render s (.mixed (n :: rest)) ctx =
    match render s n ctx with
    | .ok _ next => render s (.mixed rest) next
    | .error h next => .error h next := by
  rw [render, renderAll, bind_apply]
  cases render s n ctx with
  | ok u next => simp only [render]
  | error h next => rfl

end Node

variable {s : Setting} {ctx next : Context} {es : List Event}

/-- What a task comes to when it is rendered. -/
def Task.Renders (s : Setting) (ctx next : Context) : Task → Prop
  | node n => n.render s ctx = .ok () next
  | rounds i body entries parts => i.roundsText s (body.render s) entries ctx = .ok parts next

namespace Runs

/-- A run renders what its pieces do. -/
theorem renders {task : Task} (h : Runs s task ctx es next) : task.Renders s ctx next := by
  induction h with
  | text => rfl
  | inlined ho => rw [Task.Renders, Node.render_inlined_apply, ho]
  | whenHolds ht _ ih =>
    rw [Task.Renders, Node.render_when_apply, ht]
    exact ih
  | whenFails ht => rw [Task.Renders, Node.render_when_apply, ht]
  | chooseFirst ht _ ih =>
    rw [Task.Renders, Node.render_choose_cons_apply, ht]
    exact ih
  | chooseLater ht _ ih =>
    rw [Task.Renders, Node.render_choose_cons_apply, ht]
    exact ih
  | chooseOtherwise _ ih =>
    rw [Task.Renders, Node.render_choose_nil]
    exact ih
  | chooseNone => rfl
  | forEachEmpty he =>
    rw [Task.Renders, Node.render, Iteration.run_apply, he]
    rfl
  | forEach he hne _ ih =>
    have hempty : ¬ (_ : List (Value × Value)).isEmpty = true := fun h => hne (List.isEmpty_iff.mp h)
    rw [Task.Renders] at ih
    rw [Task.Renders, Node.render, Iteration.run_apply, he]
    simp only [hempty, Bool.false_eq_true, if_false, ih]
  | trim _ ih =>
    rw [Task.Renders] at ih
    rw [Task.Renders, Node.render_trim_apply, ih]
  | bind hv => rw [Task.Renders, Node.render_bind_apply, hv]
  | mixedNil => rfl
  | mixedCons _ _ ihn ihr =>
    rw [Task.Renders] at ihn
    rw [Task.Renders, Node.render_mixed_cons_apply, ihn]
    exact ihr
  | roundsNil => rfl
  | roundsCons _ hr _ ihb ihr =>
    simp only [Task.Renders] at ihb ihr
    rw [Task.Renders, Iteration.roundsText_cons_apply, Iteration.round_apply, ihb]
    simp only [hr, ihr]
    rfl

/-- What the node renders is what a run of it does. -/
def Derives (s : Setting) (n : Node) : Prop :=
  ∀ ctx next, n.render s ctx = .ok () next → ∃ es, Runs s (.node n) ctx es next

theorem rounds_of_derives {i : Iteration} {body : Node} (hb : Derives s body)
    {entries : List (Value × Value)} {parts : List Text}
    (h : i.roundsText s (body.render s) entries ctx = .ok parts next) :
    ∃ es, Runs s (.rounds i body entries parts) ctx es next := by
  induction entries generalizing ctx parts with
  | nil =>
    obtain ⟨rfl, rfl⟩ : [] = parts ∧ ctx = next := by simpa [Iteration.roundsText] using h
    exact ⟨[], .roundsNil⟩
  | cons entry rest ih =>
    obtain ⟨index, item⟩ := entry
    rw [Iteration.roundsText_cons_apply, Iteration.round_apply] at h
    cases hr : body.render s { Iteration.enter s i index item ctx with buffer := [] } with
    | error f inner => simp [hr] at h
    | ok u inner =>
      simp only [hr] at h
      cases hn : Placeholder.renameAll s.config.placeholder inner.popScope.1 inner.buffer with
      | error f => simp [hn] at h
      | ok renamed =>
        simp only [hn] at h
        cases hl : i.roundsText s (body.render s) rest (Iteration.leave ctx inner) with
        | error f last => simp [hl] at h
        | ok later last =>
          obtain ⟨rfl, rfl⟩ : Iteration.keep (Text.trim renamed) later = parts ∧ last = next := by
            simpa [hl, Iteration.keep] using h
          obtain ⟨es, hes⟩ := hb _ _ hr
          obtain ⟨more, hmore⟩ := ih hl
          exact ⟨_, .roundsCons hes hn hmore⟩

/-- The branch whose test holds is the one that is run. -/
theorem choose_of_derives {branches : List (Expression × Node)} {otherwise : Option Node}
    (hb : ∀ branch ∈ branches, Derives s branch.2) (ho : ∀ body ∈ otherwise, Derives s body)
    (h : (Node.choose branches otherwise).render s ctx = .ok () next) :
    ∃ es, Runs s (.node (.choose branches otherwise)) ctx es next := by
  induction branches with
  | nil =>
    rw [Node.render_choose_nil] at h
    cases otherwise with
    | none =>
      obtain rfl : ctx = next := by simpa [Node.renderOptional] using h
      exact ⟨_, .chooseNone⟩
    | some body => exact (ho body rfl _ _ h).imp fun es => .chooseOtherwise
  | cons branch rest ih =>
    obtain ⟨test, body⟩ := branch
    rw [Node.render_choose_cons_apply] at h
    rcases ht : test.test (s.scope ctx) with f | holds
    · simp [ht] at h
    · cases holds with
      | false =>
        simp only [ht] at h
        obtain ⟨es, hes⟩ := ih (fun branch hm => hb branch (List.mem_cons_of_mem _ hm)) h
        exact ⟨_, .chooseLater ht hes⟩
      | true =>
        simp only [ht] at h
        obtain ⟨es, hes⟩ := hb (test, body) List.mem_cons_self _ _ h
        exact ⟨_, .chooseFirst ht hes⟩

theorem mixed_of_derives {children : List Node} (hc : ∀ n ∈ children, Derives s n)
    (h : (Node.mixed children).render s ctx = .ok () next) :
    ∃ es, Runs s (.node (.mixed children)) ctx es next := by
  induction children generalizing ctx with
  | nil =>
    obtain rfl : ctx = next := by simpa [Node.render, Node.renderAll] using h
    exact ⟨_, .mixedNil⟩
  | cons n rest ih =>
    rw [Node.render_mixed_cons_apply] at h
    cases hn : n.render s ctx with
    | error f mid => simp [hn] at h
    | ok u mid =>
      simp only [hn] at h
      obtain ⟨es, hes⟩ := hc n List.mem_cons_self _ _ hn
      obtain ⟨more, hmore⟩ := ih (fun m hm => hc m (List.mem_cons_of_mem _ hm)) h
      exact ⟨_, .mixedCons hes hmore⟩

/-- Whatever renders has a run. -/
theorem exists_of_render {n : Node} (h : n.render s ctx = .ok () next) :
    ∃ es, Runs s (.node n) ctx es next := by
  induction n using Node.structural generalizing ctx next with
  | text t =>
    obtain rfl : ctx.append t = next := by simpa [Node.render] using h
    exact ⟨_, .text⟩
  | inlined t =>
    rw [Node.render_inlined_apply] at h
    cases ho : InlineText.render (s.scope ctx) t.parts with
    | error f => simp [ho] at h
    | ok out =>
      obtain rfl : ctx.append out = next := by simpa [ho] using h
      exact ⟨_, .inlined ho⟩
  | when test body ih =>
    rw [Node.render_when_apply] at h
    rcases ht : test.test (s.scope ctx) with f | holds
    · simp [ht] at h
    · cases holds with
      | false =>
        obtain rfl : ctx = next := by simpa [ht] using h
        exact ⟨_, .whenFails ht⟩
      | true =>
        simp only [ht] at h
        exact (ih h).elim fun es hes => ⟨_, .whenHolds ht hes⟩
  | choose branches otherwise ihb iho =>
    exact choose_of_derives (fun branch hm _ _ => ihb branch hm) (fun body hm _ _ => iho body hm) h
  | forEach i body ih =>
    rw [Node.render, Iteration.run_apply] at h
    rcases he : i.entries s ctx with f | entries
    · simp [he] at h
    · simp only [he] at h
      by_cases hempty : entries.isEmpty = true
      · obtain rfl := List.isEmpty_iff.mp hempty
        obtain rfl : ctx = next := by simpa using h
        exact ⟨_, .forEachEmpty he⟩
      · simp only [hempty, Bool.false_eq_true, if_false] at h
        cases hr : i.roundsText s (body.render s) entries ctx with
        | error f last => simp [hr] at h
        | ok parts last =>
          obtain rfl : last.append (i.assemble parts) = next := by simpa [hr] using h
          obtain ⟨es, hes⟩ := rounds_of_derives (fun _ _ => ih) hr
          exact ⟨_, .forEach he (fun hn => hempty (List.isEmpty_iff.mpr hn)) hes⟩
  | trim rule body ih =>
    rw [Node.render_trim_apply] at h
    cases hb : body.render s { ctx with buffer := [] } with
    | error f inner => simp [hb] at h
    | ok u inner =>
      obtain rfl : Context.append (rule.apply inner.buffer) { inner with buffer := ctx.buffer } = next := by
        simpa [hb] using h
      exact (ih hb).imp fun es => .trim
  | bind name value =>
    rw [Node.render_bind_apply] at h
    cases hv : value.evaluate (s.scope ctx) with
    | error f => simp [hv] at h
    | ok v =>
      obtain rfl : ctx.bindAliased s.config.aliasStem name v = next := by simpa [hv] using h
      exact ⟨_, .bind hv⟩
  | mixed children ih => exact mixed_of_derives (fun n hm _ _ => ih n hm) h

end Runs

/-- The runs of a node are those that the rules derive. -/
theorem Node.render_eq_ok_iff (n : Node) (ctx next : Context) :
    n.render s ctx = .ok () next ↔ ∃ es, Runs s (.node n) ctx es next :=
  ⟨Runs.exists_of_render, fun ⟨_, h⟩ => h.renders⟩

end DynamicSql
