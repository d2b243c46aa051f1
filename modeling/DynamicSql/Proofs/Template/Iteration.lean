import DynamicSql.Proofs.Template.Scope

/-!
Iterations and their surroundings. Main statement: whether an iteration succeeds or fails, at
whatever point, the open scopes are those that were open before, the earlier bindings are untouched
and in their places, and what is bound beyond them are aliases whose numbers the iteration took
itself; a failure leaves the text as it was.
-/
namespace DynamicSql

open Rendering Context

variable {stem : Text} {names : List Text} {s : Setting}

/-- Every run of a step that fails or succeeds leaves the surroundings intact. -/
def Rendering.LeavesIntact {α : Type} (stem : Text) (names : List Text) (x : Rendering α) : Prop :=
  ∀ ctx, AliasesTaken stem ctx → Intact stem names ctx (x.after ctx)

/-- In every scope, every run of a step stays in the scope. -/
def Rendering.StaysInside {α : Type} (stem : Text) (names : List Text) (x : Rendering α) : Prop :=
  ∀ start, AliasesTaken stem start → Keeps (fun ctx => ∃ frame, Inside stem names start frame ctx) x

namespace Iteration

theorem inside_bindOptional {start ctx : Context} {name : Option Text}
    (hn : ∀ name ∈ names, ¬ s.config.aliasStem <+: name) (ht : AliasesTaken s.config.aliasStem start)
    (hm : ∀ n ∈ name, n ∈ names) (v : Value)
    (h : ∃ frame, Inside s.config.aliasStem names start frame ctx) :
    ∃ frame, Inside s.config.aliasStem names start frame (bindOptional s name v ctx) := by
  cases name with
  | none => exact h
  | some name =>
    obtain ⟨frame, h⟩ := h
    exact ⟨_, h.bindAliased hn ht (hm name rfl) v⟩

/-- The body of a round begins in the scope of the round. -/
theorem inside_enter {i : Iteration} {ctx : Context} (hn : ∀ name ∈ names, ¬ s.config.aliasStem <+: name)
    (hi : ∀ name ∈ i.item.toList ++ i.index.toList, name ∈ names) (ht : AliasesTaken s.config.aliasStem ctx)
    (index item : Value) :
    ∃ frame, Inside s.config.aliasStem names ctx frame { enter s i index item ctx with buffer := [] } := by
  have hm : ∀ n ∈ i.item, n ∈ names := fun n h => hi n (by simp [Option.mem_def.mp h])
  have hx : ∀ n ∈ i.index, n ∈ names := fun n h => hi n (by simp [Option.mem_def.mp h])
  have he : ∃ frame, Inside s.config.aliasStem names ctx frame (enter s i index item ctx) :=
    inside_bindOptional hn ht hx index (inside_bindOptional hn ht hm item ⟨_, inside_pushScope ht⟩)
  exact he.imp fun _ h => h.buffer []

/-- A round opens one scope and closes it again, whatever becomes of its body. -/
theorem round_intact {i : Iteration} {body : Rendering Unit}
    (hn : ∀ name ∈ names, ¬ s.config.aliasStem <+: name)
    (hi : ∀ name ∈ i.item.toList ++ i.index.toList, name ∈ names)
    (hb : StaysInside s.config.aliasStem names body) (index item : Value) :
    LeavesIntact s.config.aliasStem names (round s i body index item) := by
  intro ctx ht
  obtain ⟨frame, hinside⟩ := hb ctx ht _ (inside_enter hn hi ht index item)
  rw [after_round]
  exact (hinside.buffer ctx.buffer).popScope

/-- An iteration leaves the context intact when its body stays inside. -/
theorem run_intact {i : Iteration} {body : Rendering Unit}
    (hn : ∀ name ∈ names, ¬ s.config.aliasStem <+: name)
    (hi : ∀ name ∈ i.item.toList ++ i.index.toList, name ∈ names)
    (hb : StaysInside s.config.aliasStem names body) :
    LeavesIntact s.config.aliasStem names (run s i body) := by
  intro ctx ht
  have hrun := run_related (s := s) (i := i)
    (R := fun before after => AliasesTaken s.config.aliasStem before →
      Intact s.config.aliasStem names before after)
    (fun ctx _ => Intact.refl _ _ ctx) (fun h h' ht => (h ht).trans (h' ((h ht).taken ht)))
    (fun index item => round_intact hn hi hb index item) ctx
  rw [after]
  cases h : run s i body ctx with
  | error f next =>
    rw [h] at hrun
    exact hrun ht
  | ok u next =>
    rw [h] at hrun
    obtain ⟨last, buffer, hl, rfl⟩ := hrun
    exact (hl ht).buffer buffer

theorem leave_buffer (ctx inner : Context) : (leave ctx inner).buffer = ctx.buffer := by
  simp only [leave, Context.popScope]
  cases inner.frames <;> rfl

/-- Rounds write into buffers of their own. -/
theorem round_buffer (i : Iteration) (body : Rendering Unit) (index item : Value) (ctx : Context) :
    ((round s i body index item).after ctx).buffer = ctx.buffer := by
  rw [after_round, leave_buffer]

/-- On an error the buffer is the one from before the iteration. -/
theorem run_error_buffer {i : Iteration} {body : Rendering Unit} {ctx next : Context} {e : Halt}
    (h : run s i body ctx = .error e next) : next.buffer = ctx.buffer := by
  have hrun := run_related (s := s) (i := i)
    (R := fun before after => after.buffer = before.buffer) (fun _ => rfl) (fun h h' => h'.trans h)
    (fun index item => round_buffer i body index item) ctx
  rw [h] at hrun
  exact hrun

end Iteration

namespace Rendering

theorem StaysInside.capture {x : Rendering Unit} (h : StaysInside stem names x) :
    StaysInside stem names (capture x) := by
  intro start ht ctx ⟨frame, hi⟩
  obtain ⟨inner, hi'⟩ := h start ht _ ⟨frame, hi.buffer []⟩
  refine ⟨inner, ?_⟩
  rw [after, Rendering.capture]
  cases hx : x { ctx with buffer := [] } with
  | ok u next =>
    rw [after_ok hx] at hi'
    exact hi'.buffer ctx.buffer
  | error f next =>
    rw [after_error hx] at hi'
    exact hi'.buffer ctx.buffer

theorem staysInside_append (t : Text) : StaysInside stem names (update (Context.append t)) :=
  fun _ _ => keeps_update fun _ ⟨frame, h⟩ => ⟨frame, h.buffer _⟩

/-- What leaves every scope intact stays inside of one. -/
theorem LeavesIntact.staysInside {x : Rendering Unit} (hn : ∀ name ∈ names, ¬ stem <+: name)
    (h : LeavesIntact stem names x) : StaysInside stem names x :=
  fun _ _ ctx ⟨frame, hi⟩ => ⟨frame, hi.intact hn (h ctx hi.taken)⟩

end Rendering

namespace Node

theorem staysInside_renderChoice {otherwise : Rendering Unit} (ho : StaysInside stem names otherwise)
    {branches : List (Expression × Node)}
    (hb : ∀ branch ∈ branches, StaysInside stem names (render s branch.2)) :
    StaysInside stem names (renderChoice s otherwise branches) := by
  intro start ht
  induction branches with
  | nil => exact ho start ht
  | cons branch rest ih =>
    obtain ⟨test, body⟩ := branch
    rw [renderChoice]
    refine keeps_bind (s.reads_test test).keeps fun holds => ?_
    cases holds with
    | false => exact ih fun branch h => hb branch (List.mem_cons_of_mem _ h)
    | true => exact hb (test, body) List.mem_cons_self start ht

/-- Children that stay inside do so one after the other. -/
theorem staysInside_renderAll {children : List Node}
    (hc : ∀ n ∈ children, StaysInside stem names (render s n)) :
    StaysInside stem names (renderAll s children) := by
  intro start ht
  induction children with
  | nil => exact keeps_pure ()
  | cons n rest ih =>
    rw [renderAll]
    exact keeps_bind (hc n List.mem_cons_self start ht)
      fun _ => ih fun n h => hc n (List.mem_cons_of_mem _ h)

/-- No node closes the scope in which it begins, nor does it bind anything beyond it but aliases. -/
theorem staysInside_render (hn : ∀ name ∈ names, ¬ s.config.aliasStem <+: name) (n : Node)
    (hm : n.names ⊆ names) : StaysInside s.config.aliasStem names (render s n) := by
  induction n using Node.structural with
  | text t => exact staysInside_append t
  | inlined t =>
    intro start ht
    rw [render]
    refine keeps_bind (Reads.keeps fun ctx => rfl) fun ctx => ?_
    exact keeps_bind (reads_ofExcept _).keeps fun out => staysInside_append out start ht
  | when test body ih =>
    intro start ht
    rw [render]
    refine keeps_bind (s.reads_test test).keeps fun holds => ?_
    cases holds with
    | false => exact keeps_pure ()
    | true => exact ih hm start ht
  | choose branches otherwise ihb iho =>
    rw [Node.names] at hm
    have hb : namesOfBranches branches ⊆ names := List.Subset.trans (List.subset_append_left _ _) hm
    have ho : namesOfOptional otherwise ⊆ names := List.Subset.trans (List.subset_append_right _ _) hm
    rw [render]
    refine staysInside_renderChoice ?_ fun branch h =>
      ihb branch h (List.Subset.trans (names_subset_of_branch h) hb)
    cases otherwise with
    | none => exact fun _ _ => keeps_pure ()
    | some body => exact iho body rfl ho
  | forEach i body ih =>
    rw [Node.names] at hm
    have hi : i.item.toList ++ i.index.toList ⊆ names := List.Subset.trans (List.subset_append_left _ _) hm
    have hb : body.names ⊆ names := List.Subset.trans (List.subset_append_right _ _) hm
    rw [render]
    exact (Iteration.run_intact hn hi (ih hb)).staysInside hn
  | trim rule body ih =>
    intro start ht
    rw [render]
    refine keeps_bind ((ih hm).capture start ht) fun captured => ?_
    exact keeps_bind (reads_ofExcept captured).keeps fun text => staysInside_append (rule.apply text) start ht
  | bind name value =>
    intro start ht
    have hname : name ∈ names := hm (by simp [Node.names])
    rw [render]
    refine keeps_bind (s.reads_evaluate value).keeps fun v => ?_
    exact keeps_update fun ctx ⟨frame, h⟩ => ⟨_, h.bindAliased hn ht hname v⟩
  | mixed children ih =>
    rw [render]
    exact staysInside_renderAll fun n h => ih n h (List.Subset.trans (names_subset_of_child h) hm)

/-- An iteration leaves its surroundings as they were. -/
theorem render_forEach_intact (i : Iteration) (body : Node) (ctx : Context)
    (hn : ∀ name ∈ (Node.forEach i body).names, ¬ s.config.aliasStem <+: name)
    (ht : AliasesTaken s.config.aliasStem ctx) :
    Intact s.config.aliasStem (Node.forEach i body).names ctx ((render s (.forEach i body)).after ctx) ∧
      AliasesTaken s.config.aliasStem ((render s (.forEach i body)).after ctx) ∧
      ∀ e next, render s (.forEach i body) ctx = .error e next → next.buffer = ctx.buffer := by
  have hi : i.item.toList ++ i.index.toList ⊆ (Node.forEach i body).names := by simp [Node.names]
  have hb : body.names ⊆ (Node.forEach i body).names := by simp [Node.names]
  have hrun := Iteration.run_intact hn hi (staysInside_render hn body hb) ctx ht
  rw [← render] at hrun
  refine ⟨hrun, hrun.taken ht, fun e next h => ?_⟩
  rw [render] at h
  exact Iteration.run_error_buffer h

/-! An iteration in the second scope of a run, whose inner iteration fails after names were bound. -/

def unfinished : Iteration where
  collection := ⟨"ids".toList, .path "ids".toList⟩
  item := some "id".toList
  index := some "x".toList

def unfinishedBody : Node :=
  .mixed [.bind "y".toList ⟨"id".toList, .path "id".toList⟩,
    .forEach { collection := ⟨"none".toList, .path "none".toList⟩, item := some "y".toList } (.text [])]

def unfinishedContext : Context where
  bindings := [("x".toList, .null), ("__frch_x_1".toList, .null), ("ids".toList, .list [.bool true])]
  frames := [{ number := 1, saved := [("x".toList, none)], aliases := [("x".toList, "__frch_x_1".toList)] },
    { number := 0 }]
  buffer := "id IN".toList
  unique := 2

theorem aliasesTaken_unfinished : AliasesTaken "__frch_".toList unfinishedContext := by
  intro name n hk
  have hp := stem_prefix_aliasOf "__frch_".toList name n
  have hkeys : unfinishedContext.bindings.keys =
      ["x".toList, aliasOf "__frch_".toList "x".toList 1, "ids".toList] := rfl
  rw [hkeys] at hk
  simp only [List.mem_cons, List.not_mem_nil, or_false] at hk
  rcases hk with h | h | h
  · exact absurd (h ▸ hp) (by decide)
  · exact (aliasOf_inj h).2 ▸ by decide
  · exact absurd (h ▸ hp) (by decide)

/-- It fails in the middle of a round, and nothing is left of it but three aliases. -/
theorem unfinished_intact :
    ∃ f next, render ⟨.ofFields fun _ => none, {}⟩ (.forEach unfinished unfinishedBody) unfinishedContext =
        .error (.fault f) next ∧
      next.bindings.keys = unfinishedContext.bindings.keys ++
        ["__frch_id_2".toList, "__frch_x_2".toList, "__frch_y_2".toList] ∧
      next.frames = unfinishedContext.frames ∧ next.buffer = unfinishedContext.buffer := by
  obtain ⟨f, next, hr, hk⟩ : ∃ f next, render ⟨.ofFields fun _ => none, {}⟩
      (.forEach unfinished unfinishedBody) unfinishedContext = .error (.fault f) next ∧
      next.bindings.keys = unfinishedContext.bindings.keys ++
        ["__frch_id_2".toList, "__frch_x_2".toList, "__frch_y_2".toList] := ⟨_, _, rfl, rfl⟩
  have h := render_forEach_intact (s := ⟨.ofFields fun _ => none, {}⟩) unfinished unfinishedBody
    unfinishedContext (by decide) aliasesTaken_unfinished
  rw [after_error hr] at h
  exact ⟨f, next, hr, hk, h.1.frames, h.2.2 _ next hr⟩

end Node

end DynamicSql
