import DynamicSql.Proofs.Expr.Substitution
import DynamicSql.Proofs.Template.Noninterference

/-!
What a resolution asks its parameter for. Everything that a parameter tells is told through the lookup of a
path. Main statement: two parameters that answer every lookup of a resolution alike resolve alike, also where
the resolution fails.
-/
namespace DynamicSql

/-- A path that is looked up, and the bindings at that time. -/
structure Lookup where
  bindings : Bindings
  path : Text

def Lookup.answer? (l : Lookup) (p : Parameter) : Option Value := l.bindings.resolve? p l.path

def Parameter.AnswersLike (p p' : Parameter) (l : Lookup) : Prop := l.answer? p = l.answer? p'

/-- The lookups of an expression that is evaluated. Operands that are not reached count as well. -/
def Expression.lookups (e : Expression) (bindings : Bindings) : List Lookup :=
  e.expr.paths.map fun path => ⟨bindings, path⟩

def InlineText.lookups (bindings : Bindings) : List InlinePart → List Lookup
  | [] => []
  | .literal _ :: rest => lookups bindings rest
  | .splice e :: rest => e.lookups bindings ++ lookups bindings rest

/-- The lookups of rounds, given those of the body; a round that fails is the last. -/
def Iteration.lookups (s : Setting) (i : Iteration) (body : Rendering Unit) (inBody : Context → List Lookup) :
    List (Value × Value) → Context → List Lookup
  | [], _ => []
  | (index, item) :: rest, ctx =>
    inBody { enter s i index item ctx with buffer := [] } ++
      match round s i body index item ctx with
      | .ok _ next => lookups s i body inBody rest next
      | .error _ _ => []

namespace Node

mutual

/-- The lookups of a node that is rendered in a context. -/
def lookups (s : Setting) : Node → Context → List Lookup
  | text _, _ => []
  | inlined t, ctx => InlineText.lookups ctx.bindings t.parts
  | when test body, ctx => test.lookups ctx.bindings ++
      match test.test (s.scope ctx) with
      | .ok true => lookups s body ctx
      | _ => []
  | choose branches otherwise, ctx => lookupsOfChoice s (lookupsOfOptional s otherwise) branches ctx
  | forEach i body, ctx => i.collection.lookups ctx.bindings ++
      match i.entries s ctx with
      | .ok entries => i.lookups s (render s body) (lookups s body) entries ctx
      | .error _ => []
  | trim _ body, ctx => lookups s body { ctx with buffer := [] }
  | bind _ value, ctx => value.lookups ctx.bindings
  | mixed children, ctx => lookupsOfAll s children ctx

/-- Of a branch that is passed over, only the test is looked at. -/
def lookupsOfChoice (s : Setting) (otherwise : Context → List Lookup) :
    List (Expression × Node) → Context → List Lookup
  | [], ctx => otherwise ctx
  | (test, body) :: rest, ctx => test.lookups ctx.bindings ++
      match test.test (s.scope ctx) with
      | .ok true => lookups s body ctx
      | .ok false => lookupsOfChoice s otherwise rest ctx
      | .error _ => []

def lookupsOfOptional (s : Setting) : Option Node → Context → List Lookup
  | some body, ctx => lookups s body ctx
  | none, _ => []

/-- The lookups of nodes one behind the other; one that fails is the last. -/
def lookupsOfAll (s : Setting) : List Node → Context → List Lookup
  | [], _ => []
  | n :: rest, ctx => lookups s n ctx ++
      match render s n ctx with
      | .ok _ next => lookupsOfAll s rest next
      | .error _ _ => []

end

end Node

namespace Placeholder

def Target.lookups (bindings : Bindings) : Target → List Lookup
  | .path p => [⟨bindings, p⟩]
  | .expr e => e.lookups bindings

end Placeholder

namespace Query

/-- The lookups of a placeholder, which has none where it cannot be read. -/
def lookupsOfContent (s : Setting) (bindings : Bindings) (content : Text) (offset : Nat) : List Lookup :=
  match Placeholder.parse content offset (span s.config.placeholder content) with
  | .ok p => p.target.lookups bindings
  | .error _ => []

def lookupsOfTokens (s : Setting) (bindings : Bindings) (tokens : List Token) : List Lookup :=
  (Token.exprs tokens).flatMap fun (content, offset) => lookupsOfContent s bindings content offset

/-- The lookups of the second stage. -/
def lookups (s : Setting) (bindings : Bindings) (text : Text) : List Lookup :=
  match Token.ofText s.config.placeholder text with
  | .ok tokens => lookupsOfTokens s bindings tokens
  | .error _ => []

end Query

def Template.lookups (t : Template) (p : Parameter) : List Lookup :=
  t.root.lookups ⟨p, t.config⟩ (.initial t.config) ++
    match t.root.renderText ⟨p, t.config⟩ with
    | .ok (text, bindings) => Query.lookups ⟨p, t.config⟩ bindings text
    | .error _ => []

variable {c : Config} {p p' : Parameter} {ctx : Context} {bindings : Bindings}

/-! Expressions. -/

namespace Expression

/-- An expression depends on the paths that stand in it. -/
theorem evaluate_congr {e : Expression} {scope scope' : Scope}
    (h : ∀ path ∈ e.expr.paths, scope path = scope' path) : e.evaluate scope = e.evaluate scope' := by
  rw [evaluate, evaluate, Expr.eval_congr h]

theorem mem_paths_of_asPath? {e : Expression} {path : Text} (h : e.asPath? = some path) :
    path ∈ e.expr.paths := by
  obtain ⟨source, expr⟩ := e
  cases expr with
  | path q =>
    obtain rfl : q = path := by simpa [asPath?] using h
    exact List.mem_singleton_self q
  | _ => simp [asPath?] at h

/-- Parameters that answer alike resolve every path of the expression alike. -/
theorem resolve?_congr {e : Expression} (h : ∀ l ∈ e.lookups bindings, p.AnswersLike p' l) :
    ∀ path ∈ e.expr.paths, bindings.resolve? p path = bindings.resolve? p' path :=
  fun path hm => h ⟨bindings, path⟩ (List.mem_map_of_mem hm)

end Expression

/-- In the scopes of two settings the expression has the same value. -/
theorem Setting.evaluate_congr {e : Expression} (h : ∀ l ∈ e.lookups ctx.bindings, p.AnswersLike p' l) :
    e.evaluate (Setting.scope ⟨p, c⟩ ctx) = e.evaluate (Setting.scope ⟨p', c⟩ ctx) :=
  Expression.evaluate_congr (e.resolve?_congr h)

theorem Setting.test_congr {e : Expression} (h : ∀ l ∈ e.lookups ctx.bindings, p.AnswersLike p' l) :
    e.test (Setting.scope ⟨p, c⟩ ctx) = e.test (Setting.scope ⟨p', c⟩ ctx) := by
  rw [Expression.test, Expression.test, evaluate_congr h]

theorem Setting.collected_congr {e : Expression} (h : ∀ l ∈ e.lookups ctx.bindings, p.AnswersLike p' l) :
    Setting.collected ⟨p, c⟩ ctx e = Setting.collected ⟨p', c⟩ ctx e := by
  unfold collected
  cases hp : e.asPath? with
  | none => rw [evaluate_congr h]
  | some path =>
    have hpath := e.resolve?_congr h path (Expression.mem_paths_of_asPath? hp)
    exact congrArg Except.ok hpath

theorem InlineText.render_congr {parts : List InlinePart}
    (h : ∀ l ∈ lookups ctx.bindings parts, p.AnswersLike p' l) :
    render (Setting.scope ⟨p, c⟩ ctx) parts = render (Setting.scope ⟨p', c⟩ ctx) parts := by
  induction parts with
  | nil => rfl
  | cons part rest ih =>
    cases part with
    | literal s => rw [render, render, ih h]
    | splice e =>
      rw [lookups, List.forall_mem_append] at h
      rw [render, render, ih h.2, Setting.evaluate_congr h.1]

/-! Rounds. -/

namespace Iteration

variable {i : Iteration} {body body' : Rendering Unit} {inBody : Context → List Lookup}

theorem entries_congr (h : ∀ l ∈ i.collection.lookups ctx.bindings, p.AnswersLike p' l) :
    i.entries ⟨p, c⟩ ctx = i.entries ⟨p', c⟩ ctx := by
  rw [entries, entries, Setting.collected_congr h]

/-- A round is run alike where its body is. -/
theorem round_congr {index item : Value}
    (h : body { enter ⟨p, c⟩ i index item ctx with buffer := [] } =
      body' { enter ⟨p, c⟩ i index item ctx with buffer := [] }) :
    round ⟨p, c⟩ i body index item ctx = round ⟨p', c⟩ i body' index item ctx := by
  rw [round_apply, round_apply, h]
  rfl

/-- Each round asks for what its body does in the context of that round. -/
theorem roundsText_congr
    (hbody : ∀ ctx, (∀ l ∈ inBody ctx, p.AnswersLike p' l) → body ctx = body' ctx)
    (rounds : List (Value × Value)) (ctx : Context)
    (h : ∀ l ∈ i.lookups ⟨p, c⟩ body inBody rounds ctx, p.AnswersLike p' l) :
    roundsText ⟨p, c⟩ i body rounds ctx = roundsText ⟨p', c⟩ i body' rounds ctx := by
  induction rounds generalizing ctx with
  | nil => rfl
  | cons entry rest ih =>
    obtain ⟨index, item⟩ := entry
    rw [lookups, List.forall_mem_append] at h
    obtain ⟨hfirst, hrest⟩ := h
    rw [roundsText_cons_apply, roundsText_cons_apply, ← round_congr (hbody _ hfirst)]
    cases hr : round ⟨p, c⟩ i body index item ctx with
    | error f next => rfl
    | ok part next =>
      rw [hr] at hrest
      simp only [ih next hrest]

end Iteration

/-! Trees. -/

namespace Node

/-- The first stage is the same for parameters that answer its lookups alike, whether it fails or not. -/
theorem render_congr (n : Node) : ∀ ctx : Context, (∀ l ∈ n.lookups ⟨p, c⟩ ctx, p.AnswersLike p' l) →
    n.render ⟨p, c⟩ ctx = n.render ⟨p', c⟩ ctx := by
  induction n using Node.structural with
  | text s => intro ctx _; rfl
  | inlined t =>
    intro ctx h
    rw [render_inlined_apply, render_inlined_apply, InlineText.render_congr h]
  | when test body ih =>
    intro ctx h
    rw [lookups, List.forall_mem_append] at h
    obtain ⟨htest, hbody⟩ := h
    rw [render_when_apply, render_when_apply, ← Setting.test_congr htest]
    cases ht : test.test (Setting.scope ⟨p, c⟩ ctx) with
    | error f => rfl
    | ok holds =>
      rw [ht] at hbody
      cases holds with
      | true => exact ih ctx hbody
      | false => rfl
  | choose branches otherwise ihb iho =>
    intro ctx h
    rw [lookups] at h
    induction branches with
    | nil =>
      rw [lookupsOfChoice] at h
      rw [render_choose_nil, render_choose_nil]
      cases otherwise with
      | none => rfl
      | some body => exact iho body rfl ctx h
    | cons branch rest ih =>
      obtain ⟨test, body⟩ := branch
      rw [lookupsOfChoice, List.forall_mem_append] at h
      obtain ⟨htest, hbody⟩ := h
      rw [render_choose_cons_apply, render_choose_cons_apply, ← Setting.test_congr htest]
      cases ht : test.test (Setting.scope ⟨p, c⟩ ctx) with
      | error f => rfl
      | ok holds =>
        rw [ht] at hbody
        cases holds with
        | true => exact ihb _ List.mem_cons_self ctx hbody
        | false => exact ih (fun b hm => ihb b (List.mem_cons_of_mem _ hm)) hbody
  | forEach i body ih =>
    intro ctx h
    rw [lookups, List.forall_mem_append] at h
    obtain ⟨hcollection, hrounds⟩ := h
    rw [render, render, Iteration.run_apply, Iteration.run_apply, ← Iteration.entries_congr hcollection]
    cases he : i.entries ⟨p, c⟩ ctx with
    | error f => rfl
    | ok entries =>
      rw [he] at hrounds
      simp only [Iteration.roundsText_congr ih entries ctx hrounds]
  | trim rule body ih =>
    intro ctx h
    rw [render_trim_apply, render_trim_apply, ih _ h]
  | bind name value =>
    intro ctx h
    rw [render_bind_apply, render_bind_apply, Setting.evaluate_congr h]
  | mixed children ih =>
    intro ctx h
    rw [lookups] at h
    induction children generalizing ctx with
    | nil => rfl
    | cons n rest ihrest =>
      rw [lookupsOfAll, List.forall_mem_append] at h
      obtain ⟨hn, hrest⟩ := h
      rw [render_mixed_cons_apply, render_mixed_cons_apply, ← ih n List.mem_cons_self ctx hn]
      cases hr : n.render ⟨p, c⟩ ctx with
      | error f next => rfl
      | ok u next =>
        rw [hr] at hrest
        exact ihrest (fun m hm => ih m (List.mem_cons_of_mem _ hm)) next hrest

/-- A template renders alike for parameters that answer its lookups alike. -/
theorem renderText_congr {n : Node} (h : ∀ l ∈ n.lookups ⟨p, c⟩ (.initial c), p.AnswersLike p' l) :
    n.renderText ⟨p, c⟩ = n.renderText ⟨p', c⟩ := by
  rw [renderText, renderText, ← n.render_congr (Context.initial c) h]

end Node

/-! Placeholders. -/

namespace Placeholder

theorem find_congr {t : Target} (hs : p.scalar? = p'.scalar?) (h : ∀ l ∈ t.lookups bindings, p.AnswersLike p' l) :
    t.find bindings p = t.find bindings p' := by
  cases t with
  | path path =>
    have hpath : bindings.resolve? p path = bindings.resolve? p' path := h _ (List.mem_singleton_self _)
    rw [Target.find, Target.find, lookup?, lookup?, hpath, hs]
  | expr e =>
    rw [Target.find, Target.find, Expression.evaluate_congr (e.resolve?_congr h)]

theorem describe_congr {ph : Placeholder} (hs : p.scalar? = p'.scalar?)
    (h : ∀ l ∈ ph.target.lookups bindings, p.AnswersLike p' l) :
    ph.describe bindings p = ph.describe bindings p' := by
  rw [describe, describe, find_congr hs h]

end Placeholder

namespace Query

theorem describe_congr {content : Text} {offset : Nat} (hs : p.scalar? = p'.scalar?)
    (h : ∀ l ∈ lookupsOfContent ⟨p, c⟩ bindings content offset, p.AnswersLike p' l) :
    describe ⟨p, c⟩ bindings content offset = describe ⟨p', c⟩ bindings content offset := by
  rw [lookupsOfContent] at h
  rw [describe, describe]
  cases hp : Placeholder.parse content offset (span c.placeholder content) with
  | error f => rfl
  | ok ph =>
    rw [hp] at h
    exact Placeholder.describe_congr hs h

theorem assemble_congr {tokens : List Token} (hs : p.scalar? = p'.scalar?)
    (h : ∀ l ∈ lookupsOfTokens ⟨p, c⟩ bindings tokens, p.AnswersLike p' l) (count : Nat) :
    assemble ⟨p, c⟩ bindings count tokens = assemble ⟨p', c⟩ bindings count tokens := by
  induction tokens generalizing count with
  | nil => rfl
  | cons t rest ih =>
    cases t with
    | text t => rw [assemble, assemble, ih h]
    | escaped => rw [assemble, assemble, ih h]
    | expr content offset =>
      rw [lookupsOfTokens, Token.exprs_expr, List.flatMap_cons, List.forall_mem_append] at h
      obtain ⟨hfirst, hrest⟩ := h
      rw [assemble_expr, assemble_expr, describe_congr hs hfirst, ih hrest]

/-- A query is the same for parameters that answer the lookups of its text alike. -/
theorem ofText_congr {text : Text} (hs : p.scalar? = p'.scalar?)
    (h : ∀ l ∈ lookups ⟨p, c⟩ bindings text, p.AnswersLike p' l) :
    ofText ⟨p, c⟩ bindings text = ofText ⟨p', c⟩ bindings text := by
  rw [lookups] at h
  rw [ofText_eq, ofText_eq]
  cases ht : Token.ofText c.placeholder text with
  | error _ => rfl
  | ok tokens =>
    rw [ht] at h
    simp only [assemble_congr hs h]

end Query

/--
A resolution depends on its parameter only for the answers to its lookups, and for the scalar that the
parameter is.
-/
theorem Template.resolve_eq_of_lookups {t : Template} (hs : p.scalar? = p'.scalar?)
    (h : ∀ l ∈ t.lookups p, p.AnswersLike p' l) : t.resolve p = t.resolve p' := by
  rw [lookups, List.forall_mem_append] at h
  obtain ⟨htree, htext⟩ := h
  rw [resolve_eq, resolve_eq, ← Node.renderText_congr htree]
  cases hr : t.root.renderText ⟨p, t.config⟩ with
  | error f => rfl
  | ok out =>
    rw [hr] at htext
    exact Query.ofText_congr hs htext

end DynamicSql
