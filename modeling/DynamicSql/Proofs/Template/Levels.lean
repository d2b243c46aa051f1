import DynamicSql.Proofs.Expr.Shape
import DynamicSql.Proofs.Template.Iteration

/-!
What the names bound at one level come to: in the scope that is open there, each under its alias.
Main statement: binding a name brings the table of the level up to date, and what happens in inner
scopes leaves it alone.
-/
namespace DynamicSql.Context

open DynamicSql.Expr (IsIdentifier)

/-- An identifier that no alias is. -/
structure Ordinary (stem name : Text) : Prop where
  identifier : IsIdentifier name
  foreign : ¬ stem <+: name

/-- The scope has an alias for each name of the table, and it means what the name does. -/
structure Tabled (stem : Text) (frame : Frame) (table bindings : Bindings) : Prop where
  names : ∀ entry ∈ frame.aliases, Ordinary stem entry.1
  aliases : ∀ name, frame.aliases.lookup name =
    (Entries.get? table name).map fun _ => aliasOf stem name frame.number
  values : ∀ name v, Entries.get? table name = some v →
    Entries.get? bindings (aliasOf stem name frame.number) = some v

/-- Outside of all scopes names mean themselves; aliases from the number on belong to inner scopes. -/
structure Outermost (stem : Text) (low : Nat) (table : Bindings) (ctx : Context) : Prop where
  frames : ctx.frames = []
  low_eq : low = 0
  meanings : ∀ name, ¬ stem <+: name → Entries.get? ctx.bindings name = Entries.get? table name

structure Scoped (stem : Text) (low : Nat) (table : Bindings) (frame : Frame) (ctx : Context) : Prop where
  frames : ∃ outer, ctx.frames = frame :: outer
  low_eq : low = frame.number + 1
  high : low ≤ ctx.unique
  tabled : Tabled stem frame table ctx.bindings

/-- The table has what was bound where the context is. -/
structure At (stem : Text) (low : Nat) (table : Bindings) (ctx : Context) : Prop where
  taken : AliasesTaken stem ctx
  level : Outermost stem low table ctx ∨ ∃ frame, Scoped stem low table frame ctx

/-- Aliases of inner scopes that were closed keep their meaning. -/
def Preserved (stem : Text) (low : Nat) (before after : Bindings) : Prop :=
  ∀ name n v, low ≤ n → Entries.get? before (aliasOf stem name n) = some v →
    Entries.get? after (aliasOf stem name n) = some v

variable {stem name : Text} {names : List Text} {low : Nat} {table bindings added before after : Bindings}
  {ctx next : Context} {frame : Frame}

theorem Preserved.refl : Preserved stem low bindings bindings := fun _ _ _ _ h => h

theorem Preserved.trans (h : Preserved stem low before bindings) (h' : Preserved stem low bindings after) :
    Preserved stem low before after := fun name n v hn hv => h' name n v hn (h name n v hn hv)

theorem get?_append_of_some {v : Value} (h : Entries.get? bindings name = some v) :
    Entries.get? (bindings ++ added) name = some v := by
  rw [Entries.get?_append, h, Option.some_or]

theorem Tabled.append (h : Tabled stem frame table bindings) : Tabled stem frame table (bindings ++ added) :=
  ⟨h.names, h.aliases, fun name v hv => get?_append_of_some (h.values name v hv)⟩

/-! Inner scopes. -/

/-- What a task leaves intact is preserved from any level on. -/
theorem Intact.preserved (h : Intact stem names ctx next) :
    Preserved stem low ctx.bindings next.bindings := by
  obtain ⟨added, hb, -⟩ := h.bindings
  rw [hb]
  exact fun _ _ _ _ hv => get?_append_of_some hv

/-- The numbers of the level have been taken already. -/
theorem At.le_unique (h : At stem low table ctx) : low ≤ ctx.unique := by
  rcases h.level with ho | ⟨frame, hs⟩
  · exact ho.low_eq ▸ Nat.zero_le _
  · exact hs.high

/-- What leaves the surroundings intact leaves the table as it is. -/
theorem At.intact (h : At stem low table ctx) (hi : Intact stem names ctx next) : At stem low table next := by
  refine ⟨hi.taken h.taken, ?_⟩
  obtain ⟨added, hb, ha⟩ := hi.bindings
  rcases h.level with ho | ⟨frame, hs⟩
  · refine .inl ⟨hi.frames.trans ho.frames, ho.low_eq, fun name hn => ?_⟩
    have hnew : Entries.get? added name = none := by
      refine Entries.get?_eq_none_iff.mpr fun hk => ?_
      obtain ⟨other, -, n, -, -, rfl⟩ := ha name hk
      exact hn (stem_prefix_aliasOf stem other n)
    rw [hb, Entries.get?_append, hnew, Option.or_none, ho.meanings name hn]
  · obtain ⟨outer, hf⟩ := hs.frames
    exact .inr ⟨frame, ⟨outer, hi.frames.trans hf⟩, hs.low_eq, Nat.le_trans hs.high hi.unique,
      hb ▸ hs.tabled.append⟩

theorem At.setBuffer (h : At stem low table ctx) (buffer : Text) : At stem low table { ctx with buffer } :=
  h.intact ((Intact.refl stem [] ctx).buffer buffer)

/-- A scope begins with an empty table. -/
theorem At.pushScope (h : AliasesTaken stem ctx) : At stem (ctx.unique + 1) [] ctx.pushScope.2 where
  taken := fun name n hk => Nat.lt_succ_of_lt (h name n hk)
  level := .inr ⟨{ number := ctx.unique }, ⟨ctx.frames, rfl⟩, rfl, Nat.le_refl _,
    ⟨by simp, fun _ => rfl, by simp⟩⟩

/-! Binding. -/

theorem lookup_addAlias (name standIn other : Text) (frame : Frame) :
    (Frame.addAlias name standIn frame).aliases.lookup other =
      if other = name then some standIn else frame.aliases.lookup other := by
  have hfilter : (frame.aliases.filter fun entry => entry.1 != name).lookup other =
      if other = name then none else frame.aliases.lookup other := Entries.get?_erase name other frame.aliases
  rw [Frame.addAlias, List.lookup_append, hfilter]
  by_cases he : other = name
  · simp [he]
  · have hne : (other == name) = false := by simp [he]
    simp [he, List.lookup_cons, hne]

/-- A name that does not begin with the stem is no alias. -/
theorem aliasOf_ne (hn : ¬ stem <+: name) (other : Text) (n : Nat) : aliasOf stem other n ≠ name := by
  rintro rfl
  exact hn (stem_prefix_aliasOf stem other n)

theorem Tabled.put (h : Tabled stem frame table bindings) (hn : Ordinary stem name) (v : Value)
    (previous : Option Value) :
    Tabled stem (Frame.save name previous (Frame.addAlias name (aliasOf stem name frame.number) frame))
      (Entries.put name v table)
      (Entries.put name v (Entries.put (aliasOf stem name frame.number) v bindings)) := by
  refine ⟨fun entry he => ?_, fun other => ?_, fun other w hw => ?_⟩
  · rw [save_aliases, Frame.addAlias, List.mem_append, List.mem_singleton] at he
    rcases he with he | rfl
    · exact h.names entry (List.mem_filter.mp he).1
    · exact hn
  · rw [save_aliases, save_number, addAlias_number, lookup_addAlias, Entries.get?_put]
    by_cases he : other = name
    · simp [he]
    · simp [he, h.aliases]
  · rw [save_number, addAlias_number, Entries.get?_put_of_ne (aliasOf_ne hn.foreign _ _), Entries.get?_put]
    rw [Entries.get?_put] at hw
    by_cases he : other = name
    · simpa [he] using hw
    · have hne : aliasOf stem other frame.number ≠ aliasOf stem name frame.number :=
        fun h => he (aliasOf_inj h).1
      simp only [he, if_false] at hw
      simp only [hne, if_false]
      exact h.values other w hw

/-- Binding a name puts it in the table. -/
theorem At.bindAliased (h : At stem low table ctx) (hn : Ordinary stem name) (v : Value) :
    At stem low (Entries.put name v table) (ctx.bindAliased stem name v) ∧
      Preserved stem low ctx.bindings (ctx.bindAliased stem name v).bindings := by
  rcases h.level with ho | ⟨frame, hs⟩
  · have hbind : ctx.bindAliased stem name v = ctx.bind name v := by simp [Context.bindAliased, ho.frames]
    rw [hbind]
    refine ⟨⟨fun other n hk => ?_, .inl ⟨ho.frames, ho.low_eq, fun other hother => ?_⟩⟩,
      fun other n w _ hw => ?_⟩
    · rcases Entries.mem_keys_put.mp hk with he | hk
      · exact absurd he (aliasOf_ne hn.foreign other n)
      · exact h.taken other n hk
    · simp only [Context.bind, Entries.get?_put, ho.meanings other hother]
    · simpa only [Context.bind, Entries.get?_put_of_ne (aliasOf_ne hn.foreign other n)] using hw
  · obtain ⟨outer, hf⟩ := hs.frames
    have hhigh : frame.number < ctx.unique := by
      have := hs.low_eq
      have := hs.high
      omega
    rw [bindAliased_of_frames hf]
    refine ⟨⟨fun other n hk => ?_, .inr ⟨_, ⟨outer, rfl⟩, ?_, hs.high, hs.tabled.put hn v _⟩⟩,
      fun other n w hlow hw => ?_⟩
    · rcases Entries.mem_keys_put.mp hk with he | hk
      · exact absurd he (aliasOf_ne hn.foreign other n)
      · rcases Entries.mem_keys_put.mp hk with he | hk
        · exact (aliasOf_inj he).2 ▸ hhigh
        · exact h.taken other n hk
    · rw [save_number, addAlias_number, hs.low_eq]
    · have hne : aliasOf stem other n ≠ aliasOf stem name frame.number := by
        intro he
        have := (aliasOf_inj he).2
        have := hs.low_eq
        omega
      simpa only [Entries.get?_put_of_ne (aliasOf_ne hn.foreign other n), Entries.get?_put_of_ne hne] using hw

end DynamicSql.Context
