import DynamicSql.Proofs.Template.Markers
import DynamicSql.Proofs.Template.Scope
import DynamicSql.Proofs.Template.Trace

/-!
Bound values never reach the query text. Main statement: two parameters for which a tree without
splices decides the same way give the same text, and descriptors that differ in their values and
inferred types only.
-/
namespace DynamicSql

namespace Node

inductive Spliceless : Node → Prop where
  | text {t : Text} : Spliceless (.text t)
  | when {test : Expression} {body : Node} : Spliceless body → Spliceless (.when test body)
  | choose {branches : List (Expression × Node)} {otherwise : Option Node} :
      (∀ branch ∈ branches, Spliceless branch.2) → (∀ body ∈ otherwise, Spliceless body) →
      Spliceless (.choose branches otherwise)
  | forEach {i : Iteration} {body : Node} : Spliceless body → Spliceless (.forEach i body)
  | trim {rule : TrimRule} {body : Node} : Spliceless body → Spliceless (.trim rule body)
  | bind {name : Text} {value : Expression} : Spliceless (.bind name value)
  | mixed {children : List Node} : (∀ n ∈ children, Spliceless n) → Spliceless (.mixed children)

end Node

namespace Task

def tree : Task → Node
  | node n => n
  | rounds _ body _ _ => body

def parts : Task → List Text
  | node _ => []
  | rounds _ _ _ parts => parts

/-- The same node, or as many rounds of the same iteration. -/
inductive Like : Task → Task → Prop where
  | node (n : Node) : Like (.node n) (.node n)
  | rounds (i : Iteration) (body : Node) {entries other : List (Value × Value)} (parts more : List Text) :
      entries.length = other.length → Like (.rounds i body entries parts) (.rounds i body other more)

end Task

namespace Context

/-- The number of a scope and its aliases, which say nothing about values. -/
def Frame.outline (frame : Frame) : Nat × List (Text × Text) := (frame.number, frame.aliases)

/-- Contexts that differ in values only. -/
structure Alike (a b : Context) : Prop where
  buffer : a.buffer = b.buffer
  unique : a.unique = b.unique
  frames : a.frames.map Frame.outline = b.frames.map Frame.outline

variable {a b a' b' : Context}

theorem Alike.setBuffer (h : Alike a b) (buffer : Text) :
    Alike { a with buffer } { b with buffer } := ⟨rfl, h.unique, h.frames⟩

theorem Alike.append (h : Alike a b) (t : Text) : Alike (a.append t) (b.append t) :=
  ⟨by simp only [Context.append, h.buffer], h.unique, h.frames⟩

theorem Alike.pushScope (h : Alike a b) : Alike a.pushScope.2 b.pushScope.2 := by
  refine ⟨h.buffer, congrArg (· + 1) h.unique, ?_⟩
  simp only [Context.pushScope, takeNumber, List.map_cons, h.frames, h.unique]

/-- Contexts that are alike have no open scope at all, or innermost scopes that are alike. -/
theorem Alike.frames_cases (h : Alike a b) : (a.frames = [] ∧ b.frames = []) ∨
    ∃ f outer g rest, a.frames = f :: outer ∧ b.frames = g :: rest ∧ f.number = g.number ∧
      f.aliases = g.aliases ∧ outer.map Frame.outline = rest.map Frame.outline := by
  have hf := h.frames
  cases ha : a.frames with
  | nil =>
    rw [ha] at hf
    exact .inl ⟨rfl, List.map_eq_nil_iff.mp hf.symm⟩
  | cons f outer =>
    cases hb : b.frames with
    | nil => simp [ha, hb] at hf
    | cons g rest =>
      simp only [ha, hb, List.map_cons, List.cons.injEq, Frame.outline, Prod.mk.injEq] at hf
      exact .inr ⟨f, outer, g, rest, rfl, rfl, hf.1.1, hf.1.2, hf.2⟩

/-- Closing a scope hands out the same aliases in both. -/
theorem Alike.popScope (h : Alike a b) :
    a.popScope.1 = b.popScope.1 ∧ Alike a.popScope.2 b.popScope.2 := by
  rcases h.frames_cases with ⟨ha, hb⟩ | ⟨f, outer, g, rest, ha, hb, -, he, ho⟩
  · simpa [Context.popScope, ha, hb] using h
  · simp only [Context.popScope, ha, hb]
    exact ⟨he, h.buffer, h.unique, ho⟩

theorem Alike.bindAliased (h : Alike a b) (stem name : Text) (v w : Value) :
    Alike (a.bindAliased stem name v) (b.bindAliased stem name w) := by
  rcases h.frames_cases with ⟨ha, hb⟩ | ⟨f, outer, g, rest, ha, hb, hn, he, ho⟩
  · simp only [Context.bindAliased, ha, hb]
    exact ⟨h.buffer, h.unique, by simp [Context.bind, ha, hb]⟩
  · rw [bindAliased_of_frames ha, bindAliased_of_frames hb]
    exact ⟨h.buffer, h.unique, by simp [Frame.outline, Frame.addAlias, hn, he, ho]⟩

end Context

open Context

variable {c : Config} {p₁ p₂ : Parameter} {a b a' b' : Context}

namespace Iteration

theorem alike_bindOptional (h : Alike a b) (name : Option Text) (v w : Value) :
    Alike (bindOptional ⟨p₁, c⟩ name v a) (bindOptional ⟨p₂, c⟩ name w b) := by
  cases name with
  | none => exact h
  | some name => exact h.bindAliased c.aliasStem name v w

/-- Whatever a round is given, it is entered alike. -/
theorem alike_enter (h : Alike a b) (i : Iteration) (index item index' item' : Value) :
    Alike (enter ⟨p₁, c⟩ i index item a) (enter ⟨p₂, c⟩ i index' item' b) :=
  alike_bindOptional (alike_bindOptional h.pushScope i.item item item') i.index index index'

theorem alike_leave (h : Alike a b) (hi : Alike a' b') :
    a'.popScope.1 = b'.popScope.1 ∧ Alike (leave a a') (leave b b') := by
  refine ⟨hi.popScope.1, ?_⟩
  simp only [leave, h.buffer]
  exact (hi.setBuffer b.buffer).popScope.2

@[simp] theorem decisions_given (i : Iteration) (index item : Value) :
    Event.decisionsOfAll (i.given index item) = [] := by
  unfold given
  cases i.item <;> cases i.index <;> rfl

end Iteration

namespace Event

variable {es es' : List Event} {r r' : List Decision}

/-- The first decision tells apart runs that differ in it. -/
theorem tested_inj {holds holds' : Bool} :
    decisionsOfAll (tested holds :: es) ++ r = decisionsOfAll (tested holds' :: es') ++ r' ↔
      holds = holds' ∧ decisionsOfAll es ++ r = decisionsOfAll es' ++ r' := by
  simp [decisionsOfAll, decisions]

theorem iterated_inj {rounds rounds' : Nat} :
    decisionsOfAll (iterated rounds :: es) ++ r = decisionsOfAll (iterated rounds' :: es') ++ r' ↔
      rounds = rounds' ∧ decisionsOfAll es ++ r = decisionsOfAll es' ++ r' := by
  simp [decisionsOfAll, decisions]

end Event

open Event (decisionsOfAll tested_inj iterated_inj)

/-- Two runs that decide alike write alike, whatever the values are. -/
theorem Runs.alike {task task' : Task} {es es' : List Event} {r r' : List Decision}
    (h : Runs ⟨p₁, c⟩ task a es a') (h' : Runs ⟨p₂, c⟩ task' b es' b') (hl : task.Like task')
    (hs : task.tree.Spliceless) (hab : Alike a b) (hd : decisionsOfAll es ++ r = decisionsOfAll es' ++ r') :
    Alike a' b' ∧ task.parts = task'.parts ∧ r = r' := by
  induction h generalizing task' b es' b' r r' with
  | text =>
    cases hl
    cases h'
    exact ⟨hab.append _, rfl, hd⟩
  | inlined => cases hl; cases hs
  | whenHolds _ _ ih =>
    cases hl
    cases hs with
    | when hs =>
      cases h' with
      | whenHolds _ h' =>
        obtain ⟨hn, -, hr⟩ := ih h' (.node _) hs hab (tested_inj.mp hd).2
        exact ⟨hn, rfl, hr⟩
      | whenFails => cases (tested_inj.mp hd).1
  | whenFails =>
    cases hl
    cases h' with
    | whenHolds => cases (tested_inj.mp hd).1
    | whenFails => exact ⟨hab, rfl, (tested_inj.mp hd).2⟩
  | chooseFirst _ _ ih =>
    cases hl
    cases hs with
    | choose hb ho =>
      cases h' with
      | chooseFirst _ h' =>
        obtain ⟨hn, -, hr⟩ := ih h' (.node _) (hb _ List.mem_cons_self) hab (tested_inj.mp hd).2
        exact ⟨hn, rfl, hr⟩
      | chooseLater => cases (tested_inj.mp hd).1
  | chooseLater _ _ ih =>
    cases hl
    cases hs with
    | choose hb ho =>
      cases h' with
      | chooseFirst => cases (tested_inj.mp hd).1
      | chooseLater _ h' =>
        have hrest : Node.Spliceless (.choose _ _) :=
          .choose (fun b hm => hb b (List.mem_cons_of_mem _ hm)) ho
        obtain ⟨hn, -, hr⟩ := ih h' (.node _) hrest hab (tested_inj.mp hd).2
        exact ⟨hn, rfl, hr⟩
  | chooseOtherwise _ ih =>
    cases hl
    cases hs with
    | choose hb ho =>
      cases h' with
      | chooseOtherwise h' =>
        obtain ⟨hn, -, hr⟩ := ih h' (.node _) (ho _ rfl) hab hd
        exact ⟨hn, rfl, hr⟩
  | chooseNone =>
    cases hl
    cases h'
    exact ⟨hab, rfl, hd⟩
  | forEachEmpty =>
    cases hl
    cases h' with
    | forEachEmpty => exact ⟨hab, rfl, (iterated_inj.mp hd).2⟩
    | forEach _ hne => exact absurd (List.length_eq_zero_iff.mp (iterated_inj.mp hd).1.symm) hne
  | @forEach i _ _ _ _ _ _ _ hne _ ih =>
    cases hl
    cases hs with
    | forEach hs =>
      cases h' with
      | forEachEmpty => exact absurd (List.length_eq_zero_iff.mp (iterated_inj.mp hd).1) hne
      | forEach _ _ h' =>
        obtain ⟨hlength, hd⟩ := iterated_inj.mp hd
        obtain ⟨hn, hp, hr⟩ := ih h' (.rounds i _ _ _ hlength) hs hab hd
        simp only [Task.parts] at hp
        rw [hp]
        exact ⟨hn.append _, rfl, hr⟩
  | trim _ ih =>
    cases hl
    cases hs with
    | trim hs =>
      cases h' with
      | trim h' =>
        obtain ⟨hn, -, hr⟩ := ih h' (.node _) hs (hab.setBuffer []) hd
        rw [hn.buffer, hab.buffer]
        exact ⟨(hn.setBuffer _).append _, rfl, hr⟩
  | bind =>
    cases hl
    cases h' with
    | bind => exact ⟨hab.bindAliased _ _ _ _, rfl, hd⟩
  | mixedNil =>
    cases hl
    cases h'
    exact ⟨hab, rfl, hd⟩
  | mixedCons _ _ ihn ihr =>
    cases hl
    cases hs with
    | mixed hc =>
      cases h' with
      | mixedCons hn' hr' =>
        simp only [Event.decisionsOfAll_append, List.append_assoc] at hd
        obtain ⟨hn, -, hd⟩ := ihn hn' (.node _) (hc _ List.mem_cons_self) hab hd
        obtain ⟨hn, -, hr⟩ := ihr hr' (.node _) (.mixed fun n hm => hc n (List.mem_cons_of_mem _ hm)) hn hd
        exact ⟨hn, rfl, hr⟩
  | roundsNil =>
    cases hl with
    | rounds _ _ _ _ he =>
      obtain rfl := List.length_eq_zero_iff.mp he.symm
      cases h'
      exact ⟨hab, rfl, hd⟩
  | @roundsCons i _ _ _ _ _ _ _ _ _ _ _ _ hr _ ihb ihr =>
    cases hl with
    | rounds _ _ _ _ he =>
      cases h' with
      | roundsNil => simp at he
      | roundsCons hb' hr' hl' =>
        simp only [decisionsOfAll, Event.decisions, Event.decisionsOfAll_append, Iteration.decisions_given,
          List.nil_append, List.append_assoc] at hd
        obtain ⟨hn, -, hd⟩ := ihb hb' (.node _) hs ((Iteration.alike_enter hab i _ _ _ _).setBuffer []) hd
        have hleave := Iteration.alike_leave hab hn
        obtain ⟨hlast, hp, hrest⟩ := ihr hl' (.rounds i _ _ _ (by simpa using he)) hs hleave.2 hd
        simp only [hleave.1, hn.buffer] at hr
        obtain rfl := Except.ok.inj (hr.symm.trans hr')
        simp only [Task.parts] at hp
        rw [hp]
        exact ⟨hlast, rfl, hrest⟩

namespace Descriptor

/-- Descriptors that differ in the value and in its type only. -/
structure Agree (d e : Descriptor) : Prop where
  expression : d.expression = e.expression
  sqlType : d.sqlType = e.sqlType
  numericScale : d.numericScale = e.numericScale
  mode : d.mode = e.mode

end Descriptor

namespace Placeholder

def Target.recorded : Target → Text
  | .path p => p
  | .expr e => e.source

/-- What is recorded of a target is its text, whatever the parameter. -/
theorem find_recorded {t : Target} {bindings : Bindings} {p : Parameter} {expression : Text}
    {found : Option Value} (h : t.find bindings p = .ok (expression, found)) : expression = t.recorded := by
  cases t with
  | path path =>
    simp only [Target.find, Except.ok.injEq, Prod.mk.injEq] at h
    exact h.1.symm
  | expr e =>
    simp only [Target.find] at h
    cases he : e.evaluate (bindings.resolve? p) with
    | error f => simp [he, Except.map] at h
    | ok v =>
      simp only [he, Except.map, Except.ok.injEq, Prod.mk.injEq] at h
      exact h.1.symm

/-- All that a descriptor says besides the value is in the placeholder. -/
theorem describe_agree {p : Placeholder} {b b' : Bindings} {param param' : Parameter} {d d' : Descriptor}
    (h : p.describe b param = .ok d) (h' : p.describe b' param' = .ok d') : d.Agree d' := by
  have key : ∀ {b : Bindings} {param : Parameter} {d : Descriptor}, p.describe b param = .ok d →
      d.expression = p.target.recorded ∧ d.sqlType = p.attributes.sqlType ∧
        d.numericScale = p.attributes.numericScale ∧ d.mode = p.attributes.mode := by
    intro b param d h
    unfold describe at h
    cases hf : p.target.find b param with
    | error f => simp [hf] at h
    | ok out =>
      obtain ⟨expression, found⟩ := out
      simp only [hf] at h
      cases hs : p.attributes.settle found with
      | none => simp [hs] at h
      | some v =>
        simp only [hs, Except.ok.injEq] at h
        subst h
        exact ⟨find_recorded hf, rfl, rfl, rfl⟩
  obtain ⟨he, hs, hn, hm⟩ := key h
  obtain ⟨he', hs', hn', hm'⟩ := key h'
  exact ⟨he.trans he'.symm, hs.trans hs'.symm, hn.trans hn'.symm, hm.trans hm'.symm⟩

end Placeholder

namespace Query

/-- Two descriptors of one content differ in the value alone. -/
theorem describes_agree {s s' : Setting} (hc : s.config = s'.config) {b b' : Bindings} {e : Text × Nat}
    {d d' : Descriptor} (h : Describes s b e d) (h' : Describes s' b' e d') : d.Agree d' := by
  obtain ⟨p, hp, hd⟩ := h
  obtain ⟨p', hp', hd'⟩ := h'
  rw [hc] at hp
  obtain rfl := Except.ok.inj (hp.symm.trans hp')
  exact Placeholder.describe_agree hd hd'

theorem descriptors_agree {s s' : Setting} (hc : s.config = s'.config) {b b' : Bindings}
    {es : List (Text × Nat)} {ds ds' : List Descriptor} (h : List.Forall₂ (Describes s b) es ds)
    (h' : List.Forall₂ (Describes s' b') es ds') : List.Forall₂ Descriptor.Agree ds ds' := by
  induction h generalizing ds' with
  | nil =>
    cases h'
    exact .nil
  | cons hd _ ih =>
    cases h' with
    | cons hd' hrest => exact .cons (describes_agree hc hd hd') (ih hrest)

/-- The second stage reads the bindings for values only. -/
theorem ofText_agree {s s' : Setting} (hc : s.config = s'.config) {b b' : Bindings} {text : Text}
    {q q' : Query} (h : ofText s b text = .ok q) (h' : ofText s' b' text = .ok q') :
    q.text = q'.text ∧ List.Forall₂ Descriptor.Agree q.parameters q'.parameters := by
  obtain ⟨tokens, hs, hd, ht, -⟩ := ofText_eq_ok_iff.mp h
  obtain ⟨tokens', hs', hd', ht', -⟩ := ofText_eq_ok_iff.mp h'
  rw [hc] at hs ht
  obtain rfl := Except.ok.inj (hs.symm.trans hs')
  exact ⟨ht.trans ht'.symm, descriptors_agree hc hd hd'⟩

end Query

/-- The tree renders, and those are the decisions that are made. -/
def Node.Decides (n : Node) (s : Setting) (trace : List Decision) : Prop :=
  ∃ es next, Runs s (.node n) (.initial s.config) es next ∧ decisionsOfAll es = trace

/-- A template that renders has made its decisions. -/
theorem Node.exists_decides_iff {n : Node} {s : Setting} :
    (∃ trace, n.Decides s trace) ↔ ∃ text bindings, n.renderText s = .ok (text, bindings) := by
  constructor
  · rintro ⟨_, es, next, h, -⟩
    exact ⟨next.buffer, next.bindings, by rw [Node.renderText, h.renders]⟩
  · rintro ⟨text, bindings, h⟩
    rw [Node.renderText] at h
    cases hr : n.render s (.initial s.config) with
    | error f next => simp [hr] at h
    | ok u next =>
      obtain ⟨es, hes⟩ := Runs.exists_of_render hr
      exact ⟨_, es, next, hes, rfl⟩

theorem Template.resolve_eq (t : Template) (p : Parameter) : t.resolve p =
    match t.root.renderText ⟨p, t.config⟩ with
    | .ok (text, bindings) => Query.ofText ⟨p, t.config⟩ bindings text
    | .error f => .error f := by
  rw [resolve]
  cases t.root.renderText ⟨p, t.config⟩ <;> rfl

/--
Two parameters for which a tree decides the same way render as the same text, and if both texts
resolve, then to the same query text with descriptors that agree.
-/
theorem Template.resolve_agree {n : Node} (hn : n.Spliceless) {trace : List Decision}
    (h₁ : n.Decides ⟨p₁, c⟩ trace) (h₂ : n.Decides ⟨p₂, c⟩ trace) :
    (∃ text b₁ b₂, n.renderText ⟨p₁, c⟩ = .ok (text, b₁) ∧ n.renderText ⟨p₂, c⟩ = .ok (text, b₂)) ∧
    ∀ q₁ q₂, Template.resolve ⟨n, c⟩ p₁ = .ok q₁ → Template.resolve ⟨n, c⟩ p₂ = .ok q₂ →
      q₁.text = q₂.text ∧ List.Forall₂ Descriptor.Agree q₁.parameters q₂.parameters := by
  obtain ⟨es₁, a, hr₁, hd₁⟩ := h₁
  obtain ⟨es₂, b, hr₂, hd₂⟩ := h₂
  have hd : decisionsOfAll es₁ ++ [] = decisionsOfAll es₂ ++ [] := by rw [hd₁, hd₂]
  have hbuffer : a.buffer = b.buffer := (hr₁.alike hr₂ (.node n) hn ⟨rfl, rfl, rfl⟩ hd).1.buffer
  have ha : n.renderText ⟨p₁, c⟩ = .ok (a.buffer, a.bindings) := by rw [Node.renderText, hr₁.renders]
  have hb : n.renderText ⟨p₂, c⟩ = .ok (a.buffer, b.bindings) := by
    rw [Node.renderText, hr₂.renders, hbuffer]
  refine ⟨⟨a.buffer, a.bindings, b.bindings, ha, hb⟩, fun q₁ q₂ hq₁ hq₂ => ?_⟩
  rw [Template.resolve_eq, ha] at hq₁
  rw [Template.resolve_eq, hb] at hq₂
  have hc : (⟨p₁, c⟩ : Setting).config = (⟨p₂, c⟩ : Setting).config := rfl
  exact Query.ofText_agree hc hq₁ hq₂

def tenantQuery : Node :=
  .mixed [.text "SELECT * FROM t".toList,
    .trim .whereClause (.mixed
      [.when ⟨"tenant".toList, .path "tenant".toList⟩ (.text "tenant = \x7b\x7btenant\x7d\x7d".toList),
        .forEach { collection := ⟨"ids".toList, .path "ids".toList⟩, item := some "id".toList
                   opening := "AND id IN (".toList, closing := ")".toList, separator := ",".toList }
          (.text "\x7b\x7bid\x7d\x7d".toList)])]

def tenantParameter (first : Char) (rest : Text) (x y : Value) : Parameter :=
  .ofMap [("tenant".toList, .text (first :: rest)), ("ids".toList, .list [x, y])]

theorem decides_tenantQuery (first : Char) (rest : Text) (x y : Value) :
    tenantQuery.Decides ⟨tenantParameter first rest x y, {}⟩ [.test true, .rounds 2] :=
  ⟨_, _, .mixedCons .text (.mixedCons (.trim (.mixedCons (.whenHolds rfl .text) (.mixedCons
    (.forEach rfl (List.cons_ne_nil _ _) (.roundsCons .text rfl (.roundsCons .text rfl .roundsNil)))
    .mixedNil))) .mixedNil), rfl⟩

/-- A text that would end the statement is a value like any other. -/
theorem tenantQuery_agree : ∃ q₁ q₂,
    Template.resolve ⟨tenantQuery, {}⟩ (tenantParameter '\x27' "; --".toList .null (.bool true)) = .ok q₁ ∧
    Template.resolve ⟨tenantQuery, {}⟩ (tenantParameter 'a' [] (.ofNat 7) (.list [])) = .ok q₂ ∧
    q₁.text = "SELECT * FROM t WHERE tenant = ? AND id IN (?,?)".toList ∧ q₁.text = q₂.text ∧
    q₁.parameters.length = q₂.parameters.length := by
  have hs : tenantQuery.Spliceless := by
    refine .mixed fun n hn => ?_
    simp only [List.mem_cons, List.not_mem_nil, or_false] at hn
    rcases hn with rfl | rfl
    · exact .text
    · refine .trim (.mixed fun n hn => ?_)
      simp only [List.mem_cons, List.not_mem_nil, or_false] at hn
      rcases hn with rfl | rfl
      · exact .when .text
      · exact .forEach .text
  have h₁ : (Template.resolve ⟨tenantQuery, {}⟩ (tenantParameter '\x27' "; --".toList .null (.bool true))).map
      Query.text = .ok "SELECT * FROM t WHERE tenant = ? AND id IN (?,?)".toList := by decide +kernel
  have h₂ : (Template.resolve ⟨tenantQuery, {}⟩ (tenantParameter 'a' [] (.ofNat 7) (.list []))).map
      Query.text = .ok "SELECT * FROM t WHERE tenant = ? AND id IN (?,?)".toList := by decide +kernel
  obtain ⟨q₁, hq₁, htext⟩ := Except.map_eq_ok_iff.mp h₁
  obtain ⟨q₂, hq₂, -⟩ := Except.map_eq_ok_iff.mp h₂
  obtain ⟨-, h⟩ := Template.resolve_agree hs
    (decides_tenantQuery '\x27' "; --".toList .null (.bool true))
    (decides_tenantQuery 'a' [] (.ofNat 7) (.list []))
  obtain ⟨ht, hd⟩ := h q₁ q₂ hq₁ hq₂
  exact ⟨q₁, q₂, hq₁, hq₂, htext, ht, hd.length_eq⟩

end DynamicSql
