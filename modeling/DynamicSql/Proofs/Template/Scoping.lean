import DynamicSql.Proofs.Template.Levels
import DynamicSql.Proofs.Template.Noninterference
import DynamicSql.Proofs.Template.Rerooting

/-!
Lexical scoping of placeholders. A placeholder is looked up when all scopes are closed, under the
aliases that its roots were given on the way out. Main statement: what is described for it is what
the placeholder as it was written describes where each root means the last value bound to it in the
innermost round around it that binds it, else the last one bound outside of all rounds, else what
the parameter has.
-/
namespace DynamicSql

open Context
open DynamicSql.Expr (IsIdentifier IsName Sound)
open DynamicSql.Expr.Grammar (isNameChar isLetter)
open Placeholder (Family Rooted RenamesTo)

/-! What a run emits. -/

/--
A placeholder that was written, with what the names bound in the rounds around it come to, innermost
first.
-/
structure Emission where
  content : Text
  scope : Bindings

def Token.contents (d : Delimiters) (s : Text) : List Text :=
  match Token.scan d s with
  | .ok tokens => (Token.exprs tokens).map Prod.fst
  | .error _ => []

namespace Event

/-- What the names bound at one level come to; what is bound in rounds is bound further in. -/
def table : Bindings → List Event → Bindings
  | names, [] => names
  | names, .bound name v :: rest => table (Entries.put name v names) rest
  | names, _ :: rest => table names rest

mutual

def emissions (d : Delimiters) : Event → List Emission
  | wrote s => (Token.contents d s).map fun content => ⟨content, []⟩
  | tested _ => []
  | iterated _ => []
  | bound _ _ => []
  | round events => (emissionsOfAll d events).map fun e => ⟨e.content, e.scope ++ table [] events⟩

def emissionsOfAll (d : Delimiters) : List Event → List Emission
  | [] => []
  | e :: rest => emissions d e ++ emissionsOfAll d rest

end

variable {d : Delimiters} {names : Bindings} {es more : List Event}

theorem table_append (names : Bindings) (es more : List Event) :
    table names (es ++ more) = table (table names es) more := by
  induction es generalizing names with
  | nil => rfl
  | cons e rest ih => cases e <;> exact ih _

theorem emissionsOfAll_append (d : Delimiters) (es more : List Event) :
    emissionsOfAll d (es ++ more) = emissionsOfAll d es ++ emissionsOfAll d more := by
  induction es with
  | nil => rfl
  | cons e rest ih => rw [List.cons_append, emissionsOfAll, ih, emissionsOfAll, List.append_assoc]

theorem emissionsOfAll_given (d : Delimiters) (i : Iteration) (index item : Value) :
    emissionsOfAll d (i.given index item) = [] := by
  unfold Iteration.given
  cases i.item <;> cases i.index <;> rfl

end Event

open Event (table emissions emissionsOfAll)

/-- What an emission describes in the end, when names bound outside of all rounds mean that. -/
def Emission.describe (e : Emission) (s : Setting) (outermost : Bindings) : Except Fault Descriptor :=
  Query.describe s (e.scope ++ outermost) e.content 0

/-! Trees whose placeholders have roots of their own. -/

/-- Texts are plain but for placeholders, whose roots are no aliases. -/
inductive Node.Lexical (stem : Text) : Node → Prop where
  | text {t : Text} {cs : List Text} : Written t cs →
      (∀ content ∈ cs, ∃ roots, Rooted content roots ∧ ∀ x ∈ roots, Ordinary stem x) → Lexical stem (.text t)
  | when {test : Expression} {body : Node} : Lexical stem body → Lexical stem (.when test body)
  | choose {branches : List (Expression × Node)} {otherwise : Option Node} :
      (∀ branch ∈ branches, Lexical stem branch.2) → (∀ body ∈ otherwise, Lexical stem body) →
      Lexical stem (.choose branches otherwise)
  | forEach {i : Iteration} {body : Node} : (∀ c ∈ i.opening ++ i.separator ++ i.closing, IsPlain c) →
      Lexical stem body → Lexical stem (.forEach i body)
  | bind {name : Text} {value : Expression} : Lexical stem (.bind name value)
  | mixed {children : List Node} : (∀ n ∈ children, Lexical stem n) → Lexical stem (.mixed children)

/-! Placeholders on their way out. -/

variable {stem x : Text} {low : Nat} {bindings before after : Bindings} {e : Emission} {c : Text}

/-- The name stands for the root: nothing binds the root yet, or the name is its alias. -/
def Denotes (stem : Text) (low : Nat) (bindings scope : Bindings) (x y : Text) : Prop :=
  (Entries.get? scope x = none ∧ y = x) ∨ ∃ n v, low ≤ n ∧ y = aliasOf stem x n ∧
    Entries.get? scope x = some v ∧ Entries.get? bindings y = some v

/-- The content is the emitted one, with names that stand for its roots. -/
def Pending (stem : Text) (low : Nat) (bindings : Bindings) (e : Emission) (c : Text) : Prop :=
  ∃ roots fam ρ, Family roots fam ∧ fam id = e.content ∧ fam ρ = c ∧
    ∀ x ∈ roots, Ordinary stem x ∧ Denotes stem low bindings e.scope x (ρ x)

/-- What is preserved leaves pending placeholders as they are. -/
theorem Pending.preserved (h : Pending stem low before e c) (hp : Preserved stem low before after) :
    Pending stem low after e c := by
  obtain ⟨roots, fam, ρ, hf, hid, hc, hx⟩ := h
  refine ⟨roots, fam, ρ, hf, hid, hc, fun x hm => ⟨(hx x hm).1, ?_⟩⟩
  rcases (hx x hm).2 with hn | ⟨n, v, hlow, hy, hs, hb⟩
  · exact .inl hn
  · exact .inr ⟨n, v, hlow, hy, hs, by rw [hy] at hb ⊢; exact hp x n v hlow hb⟩

/-- An alias ends in the last digit of its number. -/
theorem exists_getLast?_aliasOf (stem x : Text) (n : Nat) :
    ∃ d, (aliasOf stem x n).getLast? = some d ∧ d.isDigit = true := by
  rcases List.eq_nil_or_concat (Text.ofNat n) with hnil | ⟨r, d, hr⟩
  · exact absurd hnil (by simp [Text.ofNat, Nat.toDigits_ne_nil])
  · have hend : aliasOf stem x n = stem ++ x ++ '_' :: r ++ [d] := by simp [aliasOf, hr]
    refine ⟨d, by rw [hend, List.getLast?_concat], ?_⟩
    exact Nat.isDigit_of_mem_toDigits (by decide) (by decide) (n := n) (show d ∈ Text.ofNat n by simp [hr])

theorem isName_aliasOf (hs : IsIdentifier stem) (hx : IsIdentifier x) (n : Nat) :
    IsName (aliasOf stem x n) := by
  refine ⟨?_, fun hm => ?_⟩
  · obtain ⟨d, r, rfl⟩ := List.exists_cons_of_ne_nil hs.ne_nil
    refine ⟨hs.1, fun e he => ?_⟩
    simp only [List.append_eq, List.mem_append, List.mem_cons] at he
    rcases he with (he | he) | rfl | he
    · exact hs.2 e he
    · exact hx.isNameChar e he
    · decide
    · exact Expr.isNameChar_of_isDigit (Nat.isDigit_of_mem_toDigits (by decide) (by decide) he)
  · -- No reserved word ends in a digit.
    have hreserved : ∀ w ∈ Expr.reserved, w.getLast?.any Char.isDigit = false := by decide
    obtain ⟨d, hlast, hd⟩ := exists_getLast?_aliasOf stem x n
    simpa [hlast, hd] using hreserved _ hm

/-- Names that denote the same in both are renamed soundly. -/
theorem sound_of_denotes {roots : List Text} {ρ : Text → Text} {scope : Bindings} (hs : IsIdentifier stem)
    (h : ∀ x ∈ roots, Ordinary stem x ∧ Denotes stem low bindings scope x (ρ x)) : Sound roots ρ := by
  intro x hx
  obtain ⟨hx', hn | ⟨n, -, -, hy, -⟩⟩ := h x hx
  · exact .inl hn.2
  · exact .inr (hy ▸ isName_aliasOf hs hx'.identifier n)

/--
Where a scope is closed, a name that it binds gives way to its alias, unless a scope further in has
bound it.
-/
theorem Denotes.close {frame : Frame} {scope names : Bindings} {y : Text}
    (hf : Tabled stem frame names before) (hx : Ordinary stem x) (hlow : low ≤ frame.number)
    (hafter : Preserved stem low before after) (h : Denotes stem (frame.number + 1) before scope x y) :
    Denotes stem low after (scope ++ names) x (Expr.Renames.apply frame.aliases y) := by
  rcases h with ⟨hnone, rfl⟩ | ⟨n, v, hn, rfl, hscope, hv⟩
  · rw [Expr.Renames.apply, hf.aliases]
    cases hname : Entries.get? names y with
    | none => exact .inl ⟨by rw [Entries.get?_append, hnone, hname]; rfl, rfl⟩
    | some v =>
      refine .inr ⟨frame.number, v, hlow, rfl, ?_, ?_⟩
      · rw [Entries.get?_append, hnone, hname]
        rfl
      · exact hafter y frame.number v hlow (hf.values y v hname)
  · -- An alias is no name of the scope.
    have hlookup : frame.aliases.lookup (aliasOf stem x n) = none := by
      refine Entries.get?_eq_none_iff.mpr fun hm => ?_
      obtain ⟨entry, he, hkey⟩ := List.mem_map.mp hm
      exact (hf.names entry he).foreign (hkey ▸ stem_prefix_aliasOf stem x n)
    rw [Expr.Renames.apply, hlookup]
    have hlow' : low ≤ n := by omega
    exact .inr ⟨n, v, hlow', rfl, get?_append_of_some hscope, hafter x n v hlow' hv⟩

theorem Pending.close {frame : Frame} {names : Bindings} (hs : IsIdentifier stem)
    (hf : Tabled stem frame names before) (hlow : low ≤ frame.number)
    (hafter : Preserved stem low before after) (h : Pending stem (frame.number + 1) before e c) :
    ∃ c', RenamesTo frame.aliases c c' ∧ (frame.aliases = [] → c' = c) ∧
      Pending stem low after ⟨e.content, e.scope ++ names⟩ c' := by
  obtain ⟨roots, fam, ρ, hfam, hid, rfl, hx⟩ := h
  have hsound := sound_of_denotes hs hx
  have hclosed : ∀ x ∈ roots, Ordinary stem x ∧
      Denotes stem low after (e.scope ++ names) x (Expr.Renames.apply frame.aliases (ρ x)) :=
    fun x hm => ⟨(hx x hm).1, (hx x hm).2.close hf (hx x hm).1 hlow hafter⟩
  have hnames : ∀ entry ∈ frame.aliases, IsIdentifier entry.1 :=
    fun entry he => (hf.names entry he).identifier
  refine ⟨fam fun x => Expr.Renames.apply frame.aliases (ρ x), ⟨hfam.rename ρ _ hsound hnames, ?_⟩,
    fun hnil => ?_, roots, fam, _, hfam, hid, rfl, hclosed⟩
  · exact hfam.plain _ (sound_of_denotes hs hclosed)
  · rw [hnil]
    rfl

/-- Once all scopes are closed, what is pending describes what was emitted. -/
theorem Pending.describe {s : Setting} {outermost : Bindings} {o : Nat} {d : Descriptor}
    (hs : IsIdentifier stem)
    (hb : ∀ name, ¬ stem <+: name → Entries.get? bindings name = Entries.get? outermost name)
    (h : Pending stem low bindings e c) (hd : Query.describe s bindings c o = .ok d) :
    ∃ d₀, e.describe s outermost = .ok d₀ ∧ d = { d₀ with expression := d.expression } := by
  obtain ⟨roots, fam, ρ, hfam, hid, rfl, hx⟩ := h
  rw [Emission.describe, ← hid]
  refine hfam.describe ρ (sound_of_denotes hs hx) s _ bindings o d (fun x hm => ?_) hd
  obtain ⟨hx', ⟨hnone, hy⟩ | ⟨n, v, -, -, hscope, hv⟩⟩ := hx x hm
  · rw [hy, Bindings.root?, Bindings.root?, Entries.get?_append, hnone, Option.none_or, hb x hx'.foreign]
  · rw [Bindings.root?, Bindings.root?, Entries.get?_append, hscope, hv, Option.some_or]

/-! Runs. -/

variable {s : Setting} {names : List Text} {ctx next : Context} {es more : List Event}

/-- The node is lexical and binds those names only; so is the body of the rounds. -/
def Task.Lexical (stem : Text) (names : List Text) : Task → Prop
  | node n => n.Lexical stem ∧ n.names ⊆ names
  | rounds i body _ _ => body.Lexical stem ∧ (Node.forEach i body).names ⊆ names

/-- The contents that a node adds to the text, or that the texts of the rounds have. -/
def Task.Shows (ctx next : Context) (ms : List Text) : Task → Prop
  | node _ => ∀ cs, Written ctx.buffer cs → Written next.buffer (cs ++ ms)
  | rounds _ _ _ parts => next.buffer = ctx.buffer ∧ ∃ css, List.Forall₂ Written parts css ∧ css.flatten = ms

/-- What a run emits is pending in its text. -/
structure Emits (s : Setting) (low : Nat) (table : Bindings) (task : Task) (ctx : Context) (es : List Event)
    (next : Context) : Prop where
  level : At s.config.aliasStem low (Event.table table es) next
  preserved : Preserved s.config.aliasStem low ctx.bindings next.bindings
  contents : ∃ ms, List.Forall₂ (Pending s.config.aliasStem low next.bindings)
    (emissionsOfAll s.config.placeholder es) ms ∧ task.Shows ctx next ms

/-- Nothing happens. -/
theorem Emits.nothing {n : Node} {names : Bindings} (h : At s.config.aliasStem low names ctx)
    (hes : emissionsOfAll s.config.placeholder es = []) (ht : table names es = names) :
    Emits s low names (.node n) ctx es ctx :=
  ⟨ht.symm ▸ h, .refl, [], hes.symm ▸ .nil, fun cs hw => by simpa using hw⟩

/-- A decision does not count. -/
theorem Emits.tested {n m : Node} {names : Bindings} (h : Emits s low names (.node m) ctx es next)
    (holds : Bool) :
    Emits s low names (.node n) ctx (.tested holds :: es) next := ⟨h.level, h.preserved, h.contents⟩

/-- One run after the other. -/
theorem Emits.trans {n m k : Node} {last : Context} {names : Bindings}
    (h : Emits s low names (.node n) ctx es next)
    (h' : Emits s low (table names es) (.node m) next more last) :
    Emits s low names (.node k) ctx (es ++ more) last := by
  obtain ⟨ms, hp, hw⟩ := h.contents
  obtain ⟨ms', hp', hw'⟩ := h'.contents
  refine ⟨Event.table_append names es more ▸ h'.level, h.preserved.trans h'.preserved, ms ++ ms', ?_,
    fun cs hcs => ?_⟩
  · rw [Event.emissionsOfAll_append]
    exact List.rel_append (hp.imp fun _ _ hp => hp.preserved h'.preserved) hp'
  · rw [← List.append_assoc]
    exact hw' _ (hw cs hcs)

theorem Context.At.bindOptional {names : Bindings} {name : Option Text}
    (h : At s.config.aliasStem low names ctx) (hn : ∀ n ∈ name, Ordinary s.config.aliasStem n)
    (v : Value) :
    At s.config.aliasStem low (table names (name.toList.map (Event.bound · v)))
      (Iteration.bindOptional s name v ctx) := by
  cases name with
  | none => exact h
  | some name => exact (h.bindAliased (hn name rfl) v).1

/-- A round begins with the names that it is given. -/
theorem at_enter (i : Iteration) (index item : Value) (h : AliasesTaken s.config.aliasStem ctx)
    (hn : ∀ name ∈ i.item.toList ++ i.index.toList, Ordinary s.config.aliasStem name) :
    At s.config.aliasStem (ctx.unique + 1) (table [] (i.given index item))
      { Iteration.enter s i index item ctx with buffer := [] } := by
  have hitem : ∀ n ∈ i.item, Ordinary s.config.aliasStem n := fun n h => hn n (by simp [Option.mem_def.mp h])
  have hindex : ∀ n ∈ i.index, Ordinary s.config.aliasStem n :=
    fun n h => hn n (by simp [Option.mem_def.mp h])
  rw [Iteration.given, Event.table_append]
  exact ((At.pushScope h).bindOptional hitem item |>.bindOptional hindex index).setBuffer []

/-- All that is pending when a scope closes is renamed by its aliases. -/
theorem close_all {frame : Frame} {names : Bindings} {ems : List Emission} {ms : List Text}
    (hs : IsIdentifier stem) (hf : Tabled stem frame names before) (hlow : low ≤ frame.number)
    (hafter : Preserved stem low before after)
    (h : List.Forall₂ (Pending stem (frame.number + 1) before) ems ms) :
    ∃ ms', List.Forall₂ (RenamesTo frame.aliases) ms ms' ∧ (frame.aliases = [] → ms' = ms) ∧
      List.Forall₂ (Pending stem low after) (ems.map fun e => ⟨e.content, e.scope ++ names⟩) ms' := by
  induction h with
  | nil => exact ⟨[], .nil, fun _ => rfl, .nil⟩
  | cons hp _ ih =>
    obtain ⟨c', hc, hcnil, hp'⟩ := hp.close hs hf hlow hafter
    obtain ⟨ms', hms, hmsnil, hps⟩ := ih
    exact ⟨c' :: ms', .cons hc hms, fun h => by rw [hcnil h, hmsnil h], .cons hp' hps⟩

/-- One round, and then the others. -/
theorem Emits.rounds {i : Iteration} {body : Node} {entries : List (Value × Value)}
    {index item : Value} {part : Text} {parts ms : List Text} {mid last : Context} {outer : Bindings}
    (hi : Intact s.config.aliasStem names ctx mid)
    (hfirst : List.Forall₂ (Pending s.config.aliasStem low mid.bindings)
      (emissions s.config.placeholder (.round es)) ms)
    (hbuffer : mid.buffer = ctx.buffer) (hpart : Written part ms)
    (hrest : Emits s low outer (.rounds i body entries parts) mid more last) :
    Emits s low outer (.rounds i body ((index, item) :: entries) (Iteration.keep part parts)) ctx
      (.round es :: more) last := by
  obtain ⟨ms', hlater, hlast, css, hparts, rfl⟩ := hrest.contents
  refine ⟨hrest.level, hi.preserved.trans hrest.preserved, ms ++ css.flatten, ?_, hlast.trans hbuffer, ?_⟩
  · rw [emissionsOfAll]
    exact List.rel_append (hfirst.imp fun _ _ hp => hp.preserved hrest.preserved) hlater
  · unfold Iteration.keep
    split
    · next hempty =>
      obtain rfl := List.isEmpty_iff.mp hempty
      cases hpart
      exact ⟨css, hparts, rfl⟩
    · exact ⟨ms :: css, .cons hpart hparts, rfl⟩

section

variable (hs : IsIdentifier s.config.aliasStem) (hd : s.config.placeholder = Config.default.placeholder)
  (hnames : ∀ name ∈ names, Ordinary s.config.aliasStem name)

include hs hd hnames

/-- What the body of a round emits is pending outside of the round, under the aliases of the round. -/
theorem Emits.round {i : Iteration} {body : Node} {index item : Value} {inner : Context} {renamed : Text}
    {outer : Bindings} (hsub : (Node.forEach i body).names ⊆ names) (h : At s.config.aliasStem low outer ctx)
    (hrun : Runs s (.node body) { Iteration.enter s i index item ctx with buffer := [] } es inner)
    (hbody : Emits s (ctx.unique + 1) (table [] (i.given index item)) (.node body)
      { Iteration.enter s i index item ctx with buffer := [] } es inner)
    (hr : Placeholder.renameAll s.config.placeholder inner.popScope.1 inner.buffer = .ok renamed) :
    Intact s.config.aliasStem names ctx (Iteration.leave ctx inner) ∧
      ∃ ms, List.Forall₂ (Pending s.config.aliasStem low (Iteration.leave ctx inner).bindings)
        (emissions s.config.placeholder (.round (i.given index item ++ es))) ms ∧
          Written (Text.trim renamed) ms := by
  have hforeign : ∀ name ∈ names, ¬ s.config.aliasStem <+: name := fun name hm => (hnames name hm).foreign
  obtain ⟨frame, hinside⟩ : ∃ frame, Inside s.config.aliasStem names ctx frame inner := by
    have hi : ∀ name ∈ i.item.toList ++ i.index.toList, name ∈ names :=
      fun name hm => hsub (by simp only [Node.names, List.mem_append] at hm ⊢; exact .inl hm)
    have hb : body.names ⊆ names := fun name hm =>
      hsub (by simp only [Node.names, List.mem_append]; exact .inr hm)
    have hstays := Node.staysInside_render hforeign body hb ctx h.taken _
      (Iteration.inside_enter hforeign hi h.taken index item)
    rwa [Rendering.after_ok hrun.renders] at hstays
  obtain ⟨frame', hscoped⟩ : ∃ frame', Scoped s.config.aliasStem (ctx.unique + 1)
      (table (table [] (i.given index item)) es) frame' inner := by
    rcases hbody.level.level with ho | hscoped
    · exact absurd ho.low_eq (by omega)
    · exact hscoped
  obtain ⟨rest, hframes⟩ := hscoped.frames
  obtain rfl : frame' = frame := by
    have := hframes.symm.trans hinside.frames
    exact (List.cons.inj this).1
  have hnumber : frame'.number = ctx.unique := by
    have := hscoped.low_eq
    omega
  have hleave : (Iteration.leave ctx inner).bindings = restore frame'.saved inner.bindings := by
    simp only [Iteration.leave, Context.popScope, hframes]
  have hafter : Preserved s.config.aliasStem low inner.bindings (Iteration.leave ctx inner).bindings := by
    intro name n v _ hv
    have hnot : aliasOf s.config.aliasStem name n ∉ Saved.names frame'.saved :=
      fun hm => hforeign _ (hinside.saved _ hm) (stem_prefix_aliasOf _ name n)
    rw [hleave, get?_restore_of_not_mem hnot]
    exact hv
  obtain ⟨ms, hpending, hshows⟩ := hbody.contents
  have hlow : low ≤ frame'.number := hnumber ▸ h.le_unique
  obtain ⟨ms', hrenames, hnil, hpending'⟩ := close_all hs hscoped.tabled hlow hafter (hnumber ▸ hpending)
  refine ⟨(hinside.buffer ctx.buffer).popScope, ms', ?_, ?_⟩
  · rw [emissions, Event.emissionsOfAll_append, Event.emissionsOfAll_given, Event.table_append]
    exact hpending'
  · have haliases : inner.popScope.1 = frame'.aliases := by simp only [Context.popScope, hframes]
    rw [haliases, hd] at hr
    exact (Placeholder.renameAll_written (hshows [] .nil) hrenames hnil hr).trim

/-- Whatever a run emits denotes what it did where it was written. -/
theorem Runs.emits {task : Task} (h : Runs s task ctx es next) (hl : task.Lexical s.config.aliasStem names)
    {outer : Bindings} (hat : At s.config.aliasStem low outer ctx) : Emits s low outer task ctx es next := by
  induction h generalizing low outer with
  | @text t ctx =>
    obtain ⟨hlexical, -⟩ := hl
    cases hlexical with
    | @text _ cs hw hrooted =>
      have hcontents : Token.contents s.config.placeholder t = cs := by
        obtain ⟨tokens, ht, hspells⟩ := Token.scan_written hw
        rw [Token.contents, hd, ht]
        exact hspells.contents
      refine ⟨hat.setBuffer _, .refl, cs, ?_, fun cs' hcs' => hcs'.appendText hw⟩
      rw [emissionsOfAll, emissionsOfAll, emissions, hcontents, List.append_nil, List.forall₂_map_left_iff,
        List.forall₂_same]
      intro content hm
      obtain ⟨roots, hr, hordinary⟩ := hrooted content hm
      obtain ⟨fam, hfam, hid⟩ := hr.exists_family
      exact ⟨roots, fam, id, hfam, hid, hid, fun x hx => ⟨hordinary x hx, .inl ⟨rfl, rfl⟩⟩⟩
  | inlined _ => cases hl.1
  | whenHolds _ _ ih =>
    obtain ⟨hlexical, hsub⟩ := hl
    cases hlexical with
    | when hbody => exact (ih ⟨hbody, hsub⟩ hat).tested true
  | whenFails _ => exact .nothing hat rfl rfl
  | chooseFirst _ _ ih =>
    obtain ⟨hlexical, hsub⟩ := hl
    cases hlexical with
    | choose hb ho =>
      refine (ih ⟨hb _ List.mem_cons_self, fun name hm => hsub ?_⟩ hat).tested true
      simp only [Node.names, Node.namesOfBranches, List.mem_append]
      exact .inl (.inl hm)
  | chooseLater _ _ ih =>
    obtain ⟨hlexical, hsub⟩ := hl
    cases hlexical with
    | choose hb ho =>
      have hrest := Node.Lexical.choose (fun branch hm => hb branch (List.mem_cons_of_mem _ hm)) ho
      refine (ih ⟨hrest, fun name hm => hsub ?_⟩ hat).tested false
      simp only [Node.names, Node.namesOfBranches, List.mem_append] at hm ⊢
      exact hm.imp_left .inr
  | chooseOtherwise _ ih =>
    obtain ⟨hlexical, hsub⟩ := hl
    cases hlexical with
    | choose hb ho =>
      have hbody := ih ⟨ho _ rfl, fun name hm => hsub (by
        simpa only [Node.names, Node.namesOfBranches, Node.namesOfOptional, List.nil_append] using hm)⟩ hat
      exact ⟨hbody.level, hbody.preserved, hbody.contents⟩
  | chooseNone => exact .nothing hat rfl rfl
  | forEachEmpty _ => exact .nothing hat rfl rfl
  | @forEach i body entries parts ctx next es _ _ _ ih =>
    obtain ⟨hlexical, hsub⟩ := hl
    cases hlexical with
    | forEach hplain hbody =>
      have hrounds := ih ⟨hbody, hsub⟩ hat
      obtain ⟨ms, hpending, hbuffer, css, hparts, rfl⟩ := hrounds.contents
      refine ⟨hrounds.level.setBuffer _, hrounds.preserved, css.flatten, hpending, fun cs hcs => ?_⟩
      have hopening := Written.of_plain fun c hc =>
        hplain c (List.mem_append_left _ (List.mem_append_left _ hc))
      have hseparator := Written.of_plain fun c hc =>
        hplain c (List.mem_append_left _ (List.mem_append_right _ hc))
      have hclosing := Written.of_plain fun c hc => hplain c (List.mem_append_right _ hc)
      rw [← hbuffer] at hcs
      have hall := (hopening.append (Written.join hseparator hparts)).append hclosing
      rw [List.nil_append, List.append_nil] at hall
      exact hcs.appendText hall
  | trim _ _ => cases hl.1
  | @bind name value ctx v _ =>
    have hname := hnames name (hl.2 (by simp [Node.names]))
    obtain ⟨hlevel, hpreserved⟩ := hat.bindAliased hname v
    refine ⟨hlevel, hpreserved, [], .nil, fun cs hcs => ?_⟩
    rw [Iteration.bindAliased_buffer, List.append_nil]
    exact hcs
  | mixedNil => exact .nothing hat rfl rfl
  | @mixedCons n rest _ _ _ _ _ _ _ ihn ihr =>
    obtain ⟨hlexical, hsub⟩ := hl
    cases hlexical with
    | mixed hc =>
      simp only [Node.names, Node.namesOfAll, List.append_subset] at hsub
      have hfirst := ihn ⟨hc _ List.mem_cons_self, hsub.1⟩ hat
      have hlater := ihr ⟨.mixed fun n hm => hc n (List.mem_cons_of_mem _ hm),
          by simpa only [Node.names] using hsub.2⟩
        hfirst.level
      exact hfirst.trans hlater
  | roundsNil => exact ⟨hat, .refl, [], .nil, rfl, [], .nil, rfl⟩
  | @roundsCons i body index item rest renamed parts ctx inner last es more hrun hr _ ihb ihr =>
    obtain ⟨hbody, hsub⟩ := hl
    have hbsub : body.names ⊆ names := fun name hm =>
      hsub (by simp only [Node.names, List.mem_append]; exact .inr hm)
    have hgiven : ∀ name ∈ i.item.toList ++ i.index.toList, Ordinary s.config.aliasStem name :=
      fun name hm => hnames name (hsub (by simp only [Node.names, List.mem_append] at hm ⊢; exact .inl hm))
    have hround := ihb ⟨hbody, hbsub⟩ (at_enter i index item hat.taken hgiven)
    obtain ⟨hi, ms, hpending, hw⟩ := Emits.round hs hd hnames hsub hat hrun hround hr
    exact .rounds hi hpending (Iteration.leave_buffer ctx inner) hw (ihr ⟨hbody, hsub⟩ (hat.intact hi))

end

/-- The name of the database is no alias, whatever the stem. -/
theorem at_initial (config : Config) :
    At config.aliasStem 0 (Context.initial config).bindings (Context.initial config) where
  taken := by
    intro name n hk
    have hkey : aliasOf config.aliasStem name n = Bindings.databaseIdName := by
      cases hid : config.databaseId with
      | none => simp [Context.initial, hid] at hk
      | some id => simpa [Context.initial, hid] using hk
    obtain ⟨d, hlast, hd⟩ := exists_getLast?_aliasOf config.aliasStem name n
    rw [hkey] at hlast
    have hletter : Bindings.databaseIdName.getLast? = some 'd' := by decide
    obtain rfl : 'd' = d := Option.some.inj (hletter.symm.trans hlast)
    exact absurd hd (by decide)
  level := .inl ⟨rfl, rfl, fun _ _ => rfl⟩

/--
The descriptors are those of the placeholders that a run writes, in their order, and each is what
the placeholder describes where its roots mean what was bound to them around it; only the expression
it records has the aliases.
-/
theorem Template.resolve_scoped {n : Node} {c : Config} {p : Parameter} {q : Query}
    (hd : c.placeholder = Config.default.placeholder) (hs : IsIdentifier c.aliasStem)
    (hn : n.Lexical c.aliasStem) (hnames : ∀ name ∈ n.names, Ordinary c.aliasStem name)
    (hq : Template.resolve ⟨n, c⟩ p = .ok q) :
    (∃ es next, Runs ⟨p, c⟩ (.node n) (.initial c) es next) ∧
    ∀ es next, Runs ⟨p, c⟩ (.node n) (.initial c) es next →
      List.Forall₂ (fun e d => ∃ d₀, e.describe ⟨p, c⟩ (table (Context.initial c).bindings es) = .ok d₀ ∧
        d = { d₀ with expression := d.expression }) (emissionsOfAll c.placeholder es) q.parameters := by
  rw [Template.resolve_eq, Node.renderText] at hq
  cases hr : n.render ⟨p, c⟩ (.initial c) with
  | error f last => simp [hr] at hq
  | ok u last =>
    simp only [hr] at hq
    refine ⟨(Runs.exists_of_render hr).imp fun es hes => ⟨last, hes⟩, fun es next hes => ?_⟩
    obtain rfl : next = last := by
      have hboth := hes.renders.symm.trans hr
      simpa using hboth
    have hemits := hes.emits hs hd hnames ⟨hn, fun _ h => h⟩ (at_initial c)
    obtain ⟨ms, hpending, hshows⟩ := hemits.contents
    have hdescribed := Query.describes_of_written hd (hshows [] .nil) hq
    have hmeanings : ∀ name, ¬ c.aliasStem <+: name →
        Entries.get? next.bindings name = Entries.get? (table (Context.initial c).bindings es) name := by
      rcases hemits.level.level with ho | ⟨frame, hscoped⟩
      · exact ho.meanings
      · exact absurd hscoped.low_eq (by omega)
    exact hpending.comp hdescribed fun e c d hp hd => hd.elim fun o => hp.describe hs hmeanings

/-!
Lists of lists: the inner iteration gives the name of the outer one another meaning, and a name is
bound twice.
-/

def nestedQuery : Node :=
  .forEach { collection := ⟨"xs".toList, .path "xs".toList⟩, item := some "x".toList
             separator := "; ".toList }
    (.mixed
      [.bind "n".toList ⟨"x.size".toList, .path "x.size".toList⟩,
        .forEach { collection := ⟨"x".toList, .path "x".toList⟩, item := some "x".toList
                   separator := ", ".toList }
          (.text "\x7b\x7bx, type=int\x7d\x7d of \x7b\x7b(n + 1)\x7d\x7d".toList),
        .text "\x7b\x7bx[0]\x7d\x7d".toList,
        .bind "n".toList ⟨"m".toList, .path "m".toList⟩])

def nestedParameter : Parameter :=
  .ofMap [("xs".toList, .list [.list [.ofNat 5, .ofNat 6], .list [.ofNat 7]]), ("m".toList, .ofNat 9)]

theorem rooted_item : Rooted "x, type=int".toList ["x".toList] where
  plain := plain_of_all (by decide)
  roots := @Placeholder.HasRoots.path "x".toList [] (by decide) (by simp [Expr.IsTail])
  valid := ⟨_, rfl⟩

theorem rooted_index : Rooted "x[0]".toList ["x".toList] where
  plain := plain_of_all (by decide)
  roots := @Placeholder.HasRoots.path "x".toList "[0]".toList (by decide) (by simp [Expr.IsTail])
  valid := ⟨_, rfl⟩

theorem rooted_sum : Rooted "(n + 1)".toList ["n".toList] := by
  have hroots : (Expr.parseTree "n + 1".toList).map Expr.rootsOf = .ok ["n".toList] := by decide +kernel
  have hvalid : (Placeholder.parse "(n + 1)".toList 0 []).map (fun _ => ()) = .ok () := by decide +kernel
  obtain ⟨tree, ht, hr⟩ := Except.map_eq_ok_iff.mp hroots
  obtain ⟨p, hp, -⟩ := Except.map_eq_ok_iff.mp hvalid
  exact hr ▸ ⟨plain_of_all (by decide), .expression ht, p, hp⟩

theorem ordinary_of_mem : ∀ name ∈ ["x".toList, "n".toList], Ordinary "__frch_".toList name := by
  intro name hm
  simp only [List.mem_cons, List.not_mem_nil, or_false] at hm
  rcases hm with rfl | rfl <;> exact ⟨by decide, by decide⟩

theorem lexical_nestedQuery : nestedQuery.Lexical "__frch_".toList := by
  have hof := Written.of_plain (plain_of_all (s := " of ".toList) (by decide))
  have hpair := @Written.placeholder "x, type=int".toList _ _ (plain_of_all (by decide))
    (hof.append (@Written.placeholder "(n + 1)".toList _ _ (plain_of_all (by decide)) .nil))
  have hindex := @Written.placeholder "x[0]".toList _ _ (plain_of_all (by decide)) .nil
  have hx : ∀ name ∈ ["x".toList], Ordinary "__frch_".toList name :=
    fun name hm => ordinary_of_mem name (List.mem_cons.mpr (.inl (List.mem_singleton.mp hm)))
  have hn : ∀ name ∈ ["n".toList], Ordinary "__frch_".toList name :=
    fun name hm => ordinary_of_mem name (List.mem_cons_of_mem _ hm)
  refine .forEach (plain_of_all (by decide)) (.mixed fun child hm => ?_)
  simp only [List.mem_cons, List.not_mem_nil, or_false] at hm
  rcases hm with rfl | rfl | rfl | rfl
  · exact .bind
  · refine .forEach (plain_of_all (by decide)) (.text hpair fun content hc => ?_)
    simp only [List.nil_append, List.mem_cons, List.not_mem_nil, or_false] at hc
    rcases hc with rfl | rfl
    · exact ⟨_, rooted_item, hx⟩
    · exact ⟨_, rooted_sum, hn⟩
  · refine .text hindex fun content hc => ?_
    simp only [List.mem_cons, List.not_mem_nil, or_false] at hc
    subst hc
    exact ⟨_, rooted_index, hx⟩
  · exact .bind

/-- Every placeholder means what stands nearest to it, the sum what is bound behind it. -/
theorem nestedQuery_scoped : ∃ q es next, Template.resolve ⟨nestedQuery, {}⟩ nestedParameter = .ok q ∧
    q.text = "? of ?, ? of ? ?; ? of ? ?".toList ∧
    Runs ⟨nestedParameter, {}⟩ (.node nestedQuery) (.initial {}) es next ∧
    List.Forall₂ (fun e d => ∃ d₀, e.describe ⟨nestedParameter, {}⟩ (table [] es) = .ok d₀ ∧
        d = { d₀ with expression := d.expression })
      (emissionsOfAll Config.default.placeholder es) q.parameters := by
  have htext : (Template.resolve ⟨nestedQuery, {}⟩ nestedParameter).map Query.text =
      .ok "? of ?, ? of ? ?; ? of ? ?".toList := by decide +kernel
  obtain ⟨q, hq, htext⟩ := Except.map_eq_ok_iff.mp htext
  have hnames : ∀ name ∈ nestedQuery.names, Ordinary "__frch_".toList name := fun name hm =>
    ordinary_of_mem name (by revert name; decide)
  obtain ⟨⟨es, next, hr⟩, h⟩ := Template.resolve_scoped rfl (by decide) lexical_nestedQuery hnames hq
  exact ⟨q, es, next, hq, htext, hr, h es next hr⟩

end DynamicSql
