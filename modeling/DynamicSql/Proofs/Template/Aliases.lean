import DynamicSql.Proofs.Template.Noninterference
import DynamicSql.Proofs.Template.Scope

/-!
The alias table of a run. What a run does to the scopes is a list of steps: a scope is opened, a
name is bound, a scope is closed. A ledger of the steps has the last value of every name in every
scope. Main statement: after each of the steps the bindings under the alias stem are the entries of
the ledger, one for each scope and name, and a step touches no entry but that of the name which it
binds in the innermost scope.
-/
namespace DynamicSql

open Context

/-! Steps. -/

inductive Step where
  | opened
  | bound (name : Text) (value : Value)
  | closed
  deriving Inhabited

namespace Event

mutual

def steps : Event → List Step
  | wrote _ => []
  | tested _ => []
  | iterated _ => []
  | bound name value => [.bound name value]
  | round events => .opened :: (stepsOfAll events ++ [.closed])

/-- The steps in the order in which they are taken. -/
def stepsOfAll : List Event → List Step
  | [] => []
  | e :: rest => steps e ++ stepsOfAll rest

end

theorem stepsOfAll_append (es more : List Event) :
    stepsOfAll (es ++ more) = stepsOfAll es ++ stepsOfAll more := by
  induction es with
  | nil => rfl
  | cons e rest ih => rw [List.cons_append, stepsOfAll, ih, stepsOfAll, List.append_assoc]

theorem stepsOfAll_given (i : Iteration) (index item : Value) : stepsOfAll (i.given index item) =
    i.item.toList.map (Step.bound · item) ++ i.index.toList.map (Step.bound · index) := by
  unfold Iteration.given
  cases i.item <;> cases i.index <;> rfl

end Event

open Event (stepsOfAll)

namespace Step

def apply (stem : Text) (ctx : Context) : Step → Context
  | opened => ctx.pushScope.2
  | bound name v => ctx.bindAliased stem name v
  | closed => ctx.popScope.2

def replay (stem : Text) (steps : List Step) (ctx : Context) : Context := steps.foldl (apply stem) ctx

variable {stem : Text} {steps more : List Step} {ctx : Context}

theorem replay_append (stem : Text) (steps more : List Step) (ctx : Context) :
    replay stem (steps ++ more) ctx = replay stem more (replay stem steps ctx) := List.foldl_append

/-- No step looks at the buffer. -/
theorem apply_setBuffer (stem : Text) (step : Step) (ctx : Context) (buffer : Text) :
    step.apply stem { ctx with buffer } = { step.apply stem ctx with buffer } := by
  obtain ⟨bindings, frames, old, unique⟩ := ctx
  cases step <;> cases frames <;> rfl

/-- The buffer has no influence on the scopes. -/
theorem replay_setBuffer (stem : Text) (steps : List Step) (ctx : Context) (buffer : Text) :
    replay stem steps { ctx with buffer } = { replay stem steps ctx with buffer } := by
  induction steps generalizing ctx with
  | nil => rfl
  | cons step rest ih =>
    have hrest := ih (step.apply stem ctx)
    rw [← apply_setBuffer] at hrest
    exact hrest

theorem replay_optional (s : Setting) (name : Option Text) (v : Value) (ctx : Context) :
    replay s.config.aliasStem (name.toList.map (bound · v)) ctx = Iteration.bindOptional s name v ctx := by
  cases name <;> rfl

/-- A round begins with the steps that give it its names. -/
theorem replay_enter (s : Setting) (i : Iteration) (index item : Value) (ctx : Context) :
    replay s.config.aliasStem (.opened :: stepsOfAll (i.given index item)) ctx =
      Iteration.enter s i index item ctx := by
  have hopen : replay s.config.aliasStem (.opened :: stepsOfAll (i.given index item)) ctx =
      replay s.config.aliasStem (stepsOfAll (i.given index item)) ctx.pushScope.2 := rfl
  rw [hopen, Event.stepsOfAll_given, replay_append, replay_optional, replay_optional, Iteration.enter]

end Step

open Step (replay)

variable {s : Setting} {ctx next : Context} {es : List Event}

/-- Nothing happens to the scopes in a run but its steps. -/
theorem Runs.replays {task : Task} (h : Runs s task ctx es next) (buffer : Text) :
    replay s.config.aliasStem (stepsOfAll es) { ctx with buffer } = { next with buffer } := by
  induction h generalizing buffer with
  | text | inlined _ | whenFails _ | chooseNone | forEachEmpty _ | mixedNil | roundsNil => rfl
  | whenHolds _ _ ih | chooseFirst _ _ ih | chooseLater _ _ ih | chooseOtherwise _ ih => exact ih buffer
  | forEach _ _ _ ih | trim _ ih => exact ih buffer
  | @bind name _ ctx v _ => exact Step.apply_setBuffer s.config.aliasStem (.bound name v) ctx buffer
  | mixedCons _ _ ihn ihr => rw [Event.stepsOfAll_append, Step.replay_append, ihn, ihr]
  | @roundsCons i body index item rest _ _ ctx inner last es more _ _ _ ihb ihr =>
    have hround : stepsOfAll (.round (i.given index item ++ es) :: more) =
        (.opened :: stepsOfAll (i.given index item)) ++ (stepsOfAll es ++ (.closed :: stepsOfAll more)) := by
      simp [stepsOfAll, Event.steps, Event.stepsOfAll_append]
    have hleave : replay s.config.aliasStem (.closed :: stepsOfAll more) { inner with buffer } =
        replay s.config.aliasStem (stepsOfAll more) { Iteration.leave ctx inner with buffer } := by
      have hclosed := Step.apply_setBuffer s.config.aliasStem .closed { inner with buffer := ctx.buffer } buffer
      exact congrArg (replay s.config.aliasStem (stepsOfAll more)) hclosed
    have henter : replay s.config.aliasStem (.opened :: stepsOfAll (i.given index item)) { ctx with buffer } =
        { Iteration.enter s i index item ctx with buffer } := by
      rw [Step.replay_setBuffer, Step.replay_enter]
    have hbody : replay s.config.aliasStem (stepsOfAll es) { Iteration.enter s i index item ctx with buffer } =
        { inner with buffer } := ihb buffer
    rw [hround, Step.replay_append, Step.replay_append, henter, hbody, hleave]
    exact ihr buffer

def Task.names : Task → List Text
  | node n => n.names
  | rounds i body _ _ => (Node.forEach i body).names

/-- A run binds names that stand in its template only. -/
theorem Runs.names_of_bound {task : Task} (h : Runs s task ctx es next) {name : Text} {v : Value}
    (hm : .bound name v ∈ stepsOfAll es) : name ∈ task.names := by
  induction h with
  | text | inlined _ | whenFails _ | chooseNone | forEachEmpty _ | mixedNil | roundsNil =>
    simp [stepsOfAll, Event.steps] at hm
  | whenHolds _ _ ih => exact ih hm
  | chooseFirst _ _ ih =>
    simp only [Task.names, Node.names, Node.namesOfBranches, List.mem_append]
    exact .inl (.inl (ih hm))
  | chooseLater _ _ ih =>
    have hrest := ih hm
    simp only [Task.names, Node.names, Node.namesOfBranches, List.mem_append] at hrest ⊢
    exact hrest.imp_left .inr
  | chooseOtherwise _ ih =>
    simp only [Task.names, Node.names, Node.namesOfBranches, Node.namesOfOptional, List.nil_append]
    exact ih hm
  | forEach _ _ _ ih => exact ih hm
  | trim _ ih => exact ih hm
  | bind _ =>
    simp only [stepsOfAll, Event.steps, List.append_nil, List.mem_singleton, Step.bound.injEq] at hm
    simp [Task.names, Node.names, hm.1]
  | mixedCons _ _ ihn ihr =>
    simp only [Task.names, Node.names, Node.namesOfAll, List.mem_append]
    rw [Event.stepsOfAll_append, List.mem_append] at hm
    exact hm.imp ihn ihr
  | @roundsCons i body index item _ _ _ _ _ _ _ _ _ _ _ ihb ihr =>
    simp only [stepsOfAll, Event.steps, Event.stepsOfAll_append, Event.stepsOfAll_given, List.mem_append,
      List.mem_cons, List.mem_map, reduceCtorEq, false_or, List.not_mem_nil, or_false] at hm
    simp only [Task.names, Node.names, List.mem_append]
    rcases hm with ((⟨given, hg, he⟩ | ⟨given, hg, he⟩) | hm) | hm
    · cases he
      exact .inl (.inl hg)
    · cases he
      exact .inl (.inr hg)
    · exact .inr (ihb hm)
    · simpa only [Task.names, Node.names, List.mem_append] using ihr hm

/-! The ledger. -/

/-- What was bound in the scopes. -/
structure Ledger where
  /-- The numbers of the scopes that are open, innermost first. -/
  opened : List Nat := []
  /-- How many scopes were opened. -/
  next : Nat := 0
  /-- Number, name and value of every binding in a scope, latest first. -/
  entries : List ((Nat × Text) × Value) := []

namespace Ledger

/-- Scopes are numbered in the order in which they are opened; a name is bound in the innermost. -/
def enter (l : Ledger) : Step → Ledger
  | .opened => { l with opened := l.next :: l.opened, next := l.next + 1 }
  | .bound name v =>
    match l.opened with
    | [] => l
    | number :: _ => { l with entries := ((number, name), v) :: l.entries }
  | .closed => { l with opened := l.opened.tail }

def ofSteps (steps : List Step) : Ledger := steps.foldl enter {}

def last? (l : Ledger) (number : Nat) (name : Text) : Option Value := l.entries.lookup (number, name)

end Ledger

/-- The bindings under the stem are those of the ledger, one for each scope and name. -/
structure AliasTable (stem : Text) (l : Ledger) (bindings : Bindings) : Prop where
  nodup : bindings.keys.Nodup
  entries : ∀ key v, stem <+: key → ((key, v) ∈ bindings ↔
    ∃ number name, key = aliasOf stem name number ∧ l.last? number name = some v)

/-- The ledger has the scopes of the context, and the last value under every alias. -/
structure Ledger.Follows (stem : Text) (l : Ledger) (ctx : Context) : Prop where
  numbers : ctx.frames.map Frame.number = l.opened
  unique : ctx.unique = l.next
  foreign : ∀ frame ∈ ctx.frames, ∀ name ∈ Saved.names frame.saved, ¬ stem <+: name
  nodup : ctx.bindings.keys.Nodup
  aliases : ∀ key ∈ ctx.bindings.keys, stem <+: key → ∃ name number, key = aliasOf stem name number
  values : ∀ name number, Entries.get? ctx.bindings (aliasOf stem name number) = l.last? number name

namespace Context

variable {saved : Saved} {bindings : Bindings} {name : Text}

theorem nodup_restore (h : bindings.keys.Nodup) (saved : Saved) : (restore saved bindings).keys.Nodup := by
  induction saved generalizing bindings with
  | nil => exact h
  | cons entry rest ih =>
    obtain ⟨first, _ | v⟩ := entry
    · exact ih (Entries.nodup_erase h first)
    · exact ih (Entries.nodup_put h first v)

/-- Restoring puts back saved names and brings no others. -/
theorem mem_keys_of_restore (h : name ∈ (restore saved bindings).keys) :
    name ∈ saved.names ∨ name ∈ bindings.keys := by
  induction saved generalizing bindings with
  | nil => exact .inr h
  | cons entry rest ih =>
    obtain ⟨first, previous⟩ := entry
    rw [restore_cons] at h
    rcases ih h with hr | hr
    · exact .inl (List.mem_cons_of_mem _ hr)
    · cases previous with
      | none => exact .inr (Entries.mem_keys_erase.mp hr).1
      | some v =>
        rcases Entries.mem_keys_put.mp hr with rfl | hr
        · exact .inl List.mem_cons_self
        · exact .inr hr

end Context

namespace Ledger

variable {stem name : Text} {l : Ledger}

theorem last?_cons (l : Ledger) (number other : Nat) (name key : Text) (v : Value) :
    last? { l with entries := ((number, name), v) :: l.entries } other key =
      if (other, key) = (number, name) then some v else l.last? other key := by
  rw [last?, List.lookup_cons]
  by_cases he : (other, key) = (number, name)
  · simp [he]
  · have hl : ((other, key) == (number, name)) = false := by simpa using he
    simp [hl, he, last?]

/-- A ledger that follows has the aliases in the bindings, each with the value bound last. -/
theorem Follows.table (h : l.Follows stem ctx) : AliasTable stem l ctx.bindings where
  nodup := h.nodup
  entries key v hk := by
    rw [Entries.mem_iff_get? h.nodup]
    constructor
    · intro hv
      have hm : key ∈ ctx.bindings.keys := by
        by_contra hm
        rw [Entries.get?_eq_none_iff.mpr hm] at hv
        cases hv
      obtain ⟨name, number, rfl⟩ := h.aliases key hm hk
      exact ⟨number, name, rfl, by rw [← h.values, hv]⟩
    · rintro ⟨number, name, rfl, hv⟩
      rw [h.values, hv]

theorem Follows.pushScope (h : l.Follows stem ctx) : (l.enter .opened).Follows stem ctx.pushScope.2 where
  numbers := by simp [Context.pushScope, Context.takeNumber, enter, h.numbers, h.unique]
  unique := by simp [Context.pushScope, Context.takeNumber, enter, h.unique]
  foreign frame hf := by
    rcases List.mem_cons.mp hf with rfl | hf
    · simp [Saved.names]
    · exact h.foreign frame hf
  nodup := h.nodup
  aliases := h.aliases
  values := h.values

/-- Closing a scope restores names, and leaves the aliases as they are. -/
theorem Follows.popScope (h : l.Follows stem ctx) : (l.enter .closed).Follows stem ctx.popScope.2 := by
  cases hf : ctx.frames with
  | nil =>
    have hempty : l.opened = [] := by simp [← h.numbers, hf]
    have hnone : l.enter .closed = l := by
      cases l
      simp_all [enter]
    have hsame : ctx.popScope.2 = ctx := by simp [Context.popScope, hf]
    rw [hnone, hsame]
    exact h
  | cons frame outer =>
    have hpop : ctx.popScope.2 =
        { ctx with bindings := restore frame.saved ctx.bindings, frames := outer } := by
      simp [Context.popScope, hf]
    have hforeign : ∀ name ∈ Saved.names frame.saved, ¬ stem <+: name :=
      h.foreign frame (hf ▸ List.mem_cons_self)
    rw [hpop]
    refine ⟨?_, h.unique, fun other ho => h.foreign other (hf ▸ List.mem_cons_of_mem _ ho),
      nodup_restore h.nodup _, fun key hk hs => ?_, fun name number => ?_⟩
    · simp [enter, ← h.numbers, hf]
    · rcases mem_keys_of_restore hk with hk | hk
      · exact absurd hs (hforeign key hk)
      · exact h.aliases key hk hs
    · have hnot : aliasOf stem name number ∉ Saved.names frame.saved :=
        fun hm => hforeign _ hm (stem_prefix_aliasOf stem name number)
      rw [get?_restore_of_not_mem hnot]
      exact h.values name number

/-- Binding a name enters its alias in both. -/
theorem Follows.bindAliased (h : l.Follows stem ctx) (hn : ¬ stem <+: name) (v : Value) :
    (l.enter (.bound name v)).Follows stem (ctx.bindAliased stem name v) := by
  have hne : ∀ other number, aliasOf stem other number ≠ name := by
    rintro other number rfl
    exact hn (stem_prefix_aliasOf stem other number)
  cases hf : ctx.frames with
  | nil =>
    have hbind : ctx.bindAliased stem name v = ctx.bind name v := by simp [Context.bindAliased, hf]
    have hsame : l.enter (.bound name v) = l := by simp [enter, ← h.numbers, hf]
    rw [hbind, hsame]
    refine ⟨h.numbers, h.unique, h.foreign, Entries.nodup_put h.nodup name v, fun key hk hs => ?_,
      fun other number => ?_⟩
    · rcases Entries.mem_keys_put.mp hk with rfl | hk
      · exact absurd hs hn
      · exact h.aliases key hk hs
    · rw [← h.values]
      exact Entries.get?_put_of_ne (hne other number) v _
  | cons frame outer =>
    have hentered : l.enter (.bound name v) =
        { l with entries := ((frame.number, name), v) :: l.entries } := by
      simp [enter, ← h.numbers, hf]
    -- Two keys are put, the alias and the name; only the alias begins with the stem.
    rw [bindAliased_of_frames hf, hentered]
    refine ⟨?_, h.unique, fun other ho => ?_, ?_, fun key hk hs => ?_, fun other number => ?_⟩
    · simp [← h.numbers, hf]
    · rcases List.mem_cons.mp ho with rfl | ho
      · intro saved hs
        rcases List.mem_cons.mp (names_save_subset _ _ _ hs) with rfl | hs
        · exact hn
        · exact h.foreign frame (hf ▸ List.mem_cons_self) saved hs
      · exact h.foreign other (hf ▸ List.mem_cons_of_mem _ ho)
    · exact Entries.nodup_put (Entries.nodup_put h.nodup _ v) name v
    · rcases Entries.mem_keys_put.mp hk with rfl | hk
      · exact absurd hs hn
      · rcases Entries.mem_keys_put.mp hk with rfl | hk
        · exact ⟨name, frame.number, rfl⟩
        · exact h.aliases key hk hs
    · rw [last?_cons, Entries.get?_put_of_ne (hne other number), Entries.get?_put, h.values]
      by_cases he : (number, other) = (frame.number, name)
      · obtain ⟨rfl, rfl⟩ := Prod.mk.inj he
        simp
      · have halias : aliasOf stem other number ≠ aliasOf stem name frame.number := by
          intro ha
          obtain ⟨rfl, rfl⟩ := aliasOf_inj ha
          exact he rfl
        simp [he, halias]

/-- A step of a run leaves the ledger with the scopes that are open and the aliases that are bound. -/
theorem Follows.apply (h : l.Follows stem ctx) {step : Step}
    (hn : ∀ name v, step = .bound name v → ¬ stem <+: name) :
    (l.enter step).Follows stem (step.apply stem ctx) := by
  cases step with
  | opened => exact h.pushScope
  | bound name v => exact h.bindAliased (hn name v rfl) v
  | closed => exact h.popScope

/-- So do all steps together. -/
theorem Follows.replay (h : l.Follows stem ctx) {steps : List Step}
    (hn : ∀ name v, .bound name v ∈ steps → ¬ stem <+: name) :
    (steps.foldl enter l).Follows stem (replay stem steps ctx) := by
  induction steps generalizing l ctx with
  | nil => exact h
  | cons step rest ih =>
    have hstep : (l.enter step).Follows stem (step.apply stem ctx) :=
      h.apply fun name v he => hn name v (he ▸ List.mem_cons_self)
    exact ih hstep fun name v hm => hn name v (List.mem_cons_of_mem _ hm)

/-- A run begins with an empty ledger. -/
theorem follows_initial {c : Config} (hd : ¬ c.aliasStem <+: Bindings.databaseIdName) :
    ({} : Ledger).Follows c.aliasStem (.initial c) where
  numbers := rfl
  unique := rfl
  foreign := by simp [Context.initial]
  nodup := by
    cases hid : c.databaseId <;> simp [Context.initial, hid]
  aliases key hk hs := by
    cases hid : c.databaseId with
    | none => simp [Context.initial, hid] at hk
    | some id =>
      obtain rfl : key = Bindings.databaseIdName := by simpa [Context.initial, hid] using hk
      exact absurd hs hd
  values name number := by
    have hnone : aliasOf c.aliasStem name number ∉ (Context.initial c).bindings.keys := by
      intro hk
      cases hid : c.databaseId with
      | none => simp [Context.initial, hid] at hk
      | some id =>
        have hkey : aliasOf c.aliasStem name number = Bindings.databaseIdName := by
          simpa [Context.initial, hid] using hk
        exact hd (hkey ▸ stem_prefix_aliasOf ..)
    rw [Entries.get?_eq_none_iff.mpr hnone]
    rfl

/-- A step changes one entry at most: that of the name which it binds in the innermost scope. -/
theorem last?_enter (l : Ledger) (step : Step) (number : Nat) (name : Text) :
    (l.enter step).last? number name = l.last? number name ∨
      ∃ v, step = .bound name v ∧ l.opened.head? = some number ∧ (l.enter step).last? number name = some v := by
  cases step with
  | opened | closed => exact .inl rfl
  | bound other v =>
    cases ho : l.opened with
    | nil => exact .inl (by simp [enter, ho])
    | cons first outer =>
      have hentered : l.enter (.bound other v) = { l with entries := ((first, other), v) :: l.entries } := by
        simp [enter, ho]
      rw [hentered, last?_cons]
      by_cases he : (number, name) = (first, other)
      · obtain ⟨rfl, rfl⟩ := Prod.mk.inj he
        exact .inr ⟨v, rfl, rfl, by simp⟩
      · exact .inl (by simp [he])

end Ledger

open Ledger (Follows)

variable {c : Config} {p : Parameter} {n : Node}

/-- The ledger follows the context at every point of a run. -/
theorem Runs.follows (h : Runs ⟨p, c⟩ (.node n) (.initial c) es next)
    (hn : ∀ name ∈ n.names, ¬ c.aliasStem <+: name) (hd : ¬ c.aliasStem <+: Bindings.databaseIdName)
    {steps : List Step} (hs : steps <+: stepsOfAll es) :
    (Ledger.ofSteps steps).Follows c.aliasStem (replay c.aliasStem steps (.initial c)) :=
  (Ledger.follows_initial hd).replay fun _ _ hm => hn _ (h.names_of_bound (hs.subset hm))

/--
The alias table of a whole run: at each point the bindings under the stem are one for every scope
opened so far and every name bound in it, with the last value of the name in that scope. No step
changes or removes one of them, unless it binds the same name in the same scope. The table at the
end is that of the bindings that the query keeps.
-/
theorem Node.renderText_aliases {text : Text} {bindings : Bindings}
    (hn : ∀ name ∈ n.names, ¬ c.aliasStem <+: name) (hd : ¬ c.aliasStem <+: Bindings.databaseIdName)
    (h : n.renderText ⟨p, c⟩ = .ok (text, bindings)) :
    (∃ es next, Runs ⟨p, c⟩ (.node n) (.initial c) es next) ∧
    ∀ es next, Runs ⟨p, c⟩ (.node n) (.initial c) es next →
      AliasTable c.aliasStem (.ofSteps (stepsOfAll es)) bindings ∧
      Function.Injective (fun pair : Nat × Text => aliasOf c.aliasStem pair.2 pair.1) ∧
      (replay c.aliasStem (stepsOfAll es) (.initial c)).bindings = bindings ∧
      (∀ steps, steps <+: stepsOfAll es →
        AliasTable c.aliasStem (.ofSteps steps) (replay c.aliasStem steps (.initial c)).bindings) ∧
      (∀ before step after, stepsOfAll es = before ++ step :: after → ∀ number name v,
        (aliasOf c.aliasStem name number, v) ∈ (replay c.aliasStem before (.initial c)).bindings →
        (aliasOf c.aliasStem name number, v) ∈ (replay c.aliasStem (before ++ [step]) (.initial c)).bindings ∨
          ∃ w, step = .bound name w ∧ (Ledger.ofSteps before).opened.head? = some number) ∧
      ∀ q, Template.resolve ⟨n, c⟩ p = .ok q → q.bindings = bindings := by
  rw [Node.renderText] at h
  cases hr : n.render ⟨p, c⟩ (.initial c) with
  | error f last => simp [hr] at h
  | ok u last =>
    obtain ⟨rfl, rfl⟩ : last.buffer = text ∧ last.bindings = bindings := by simpa [hr] using h
    refine ⟨(Runs.exists_of_render hr).imp fun es hes => ⟨last, hes⟩, fun es next hes => ?_⟩
    obtain rfl : next = last := by
      have hboth := hes.renders.symm.trans hr
      simpa using hboth
    have hreplay : (replay c.aliasStem (stepsOfAll es) (.initial c)).bindings = next.bindings := by
      have hend := congrArg Context.bindings (hes.replays (Context.initial c).buffer)
      exact hend
    have htable : ∀ steps, steps <+: stepsOfAll es →
        AliasTable c.aliasStem (.ofSteps steps) (replay c.aliasStem steps (.initial c)).bindings :=
      fun steps hs => (hes.follows hn hd hs).table
    refine ⟨hreplay ▸ htable _ (List.prefix_refl _), fun x y hxy => ?_, hreplay, htable, ?_, fun q hq => ?_⟩
    · obtain ⟨hname, hnumber⟩ := aliasOf_inj hxy
      exact Prod.ext hnumber hname
    · intro before step after he number name v hv
      have hbefore : before <+: stepsOfAll es := ⟨step :: after, he.symm⟩
      have hstep : before ++ [step] <+: stepsOfAll es := ⟨after, by simp [he]⟩
      have hold := hes.follows hn hd hbefore
      have hnew := hes.follows hn hd hstep
      rw [Entries.mem_iff_get? hold.nodup, hold.values] at hv
      rw [Entries.mem_iff_get? hnew.nodup, hnew.values]
      have henter : Ledger.ofSteps (before ++ [step]) = (Ledger.ofSteps before).enter step :=
        List.foldl_concat ..
      rw [henter]
      rcases Ledger.last?_enter (.ofSteps before) step number name with hsame | ⟨w, hw, ho, -⟩
      · exact .inl (hsame.trans hv)
      · exact .inr ⟨w, hw, ho⟩
    · rw [Template.resolve_eq, Node.renderText, hr] at hq
      obtain ⟨tokens, -, -, -, hb⟩ := Query.ofText_eq_ok_iff.mp hq
      exact hb

/-!
Lists of lists, with names that end like aliases: the alias of the inner item is the alias stem with
the name of the outer binding.
-/

def numberedQuery : Node :=
  .forEach { collection := ⟨"xs".toList, .path "xs".toList⟩, item := some "x".toList }
    (.mixed
      [.bind "x_1".toList ⟨"x.size".toList, .path "x.size".toList⟩,
        .forEach { collection := ⟨"x".toList, .path "x".toList⟩, item := some "x".toList
                   index := some "x_1".toList } (.text "\x7b\x7bx_1\x7d\x7d".toList),
        .bind "x_1".toList ⟨"m".toList, .path "m".toList⟩])

def numberedParameter : Parameter :=
  .ofMap [("xs".toList, .list [.list [.ofNat 5], .list []]), ("m".toList, .ofNat 9)]

/-- Three scopes, in two of which two names are bound, and no alias is lost. -/
theorem numberedQuery_aliases : ∃ text bindings es next,
    numberedQuery.renderText ⟨numberedParameter, {}⟩ = .ok (text, bindings) ∧
    bindings.keys = ["__frch_x_0".toList, "__frch_x_1_0".toList, "__frch_x_1".toList, "__frch_x_1_1".toList,
      "__frch_x_2".toList, "__frch_x_1_2".toList] ∧
    Runs ⟨numberedParameter, {}⟩ (.node numberedQuery) (.initial {}) es next ∧
    AliasTable "__frch_".toList (.ofSteps (stepsOfAll es)) bindings := by
  have hkeys : (numberedQuery.renderText ⟨numberedParameter, {}⟩).map (fun out => out.2.keys) =
      .ok ["__frch_x_0".toList, "__frch_x_1_0".toList, "__frch_x_1".toList, "__frch_x_1_1".toList,
        "__frch_x_2".toList, "__frch_x_1_2".toList] := by decide +kernel
  obtain ⟨⟨text, bindings⟩, h, hk⟩ := Except.map_eq_ok_iff.mp hkeys
  obtain ⟨⟨es, next, hr⟩, hall⟩ := Node.renderText_aliases (c := {}) (by decide) (by decide) h
  exact ⟨text, bindings, es, next, h, hk, hr, (hall es next hr).1⟩

end DynamicSql
