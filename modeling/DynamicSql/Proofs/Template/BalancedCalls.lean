import DynamicSql.Proofs.Template.Aliases
import Mathlib.Data.List.Dedup

/-!
Calls between the opening of a scope and its closing. The ledger has a line for every name that is bound under an
alias. Main statement: where the scopes inside are closed too, closing the scope leaves the bindings as they were
and the aliases of the ledger behind them, and tells those of the scope itself by the last binding of their names.
-/
namespace DynamicSql

open Context (Saved aliasOf restore)

inductive Call where
  | bindScoped (name : Text) (value : Value)
  | bindAliased (name : Text) (value : Value)
  | takeNumber
  | append (fragment : Text)
  | push
  | pop
  deriving Inhabited

namespace Call

def apply (stem : Text) (ctx : Context) : Call → Context
  | bindScoped name v => ctx.bindScoped name v
  | bindAliased name v => ctx.bindAliased stem name v
  | takeNumber => ctx.takeNumber.2
  | append fragment => ctx.append fragment
  | push => ctx.pushScope.2
  | pop => ctx.popScope.2

def run (stem : Text) (calls : List Call) (ctx : Context) : Context := calls.foldl (apply stem) ctx

def name? : Call → Option Text
  | bindScoped name _ => some name
  | bindAliased name _ => some name
  | _ => none

/-- Every scope that is opened is closed, and no other. -/
inductive Balanced : List Call → Prop where
  | nil : Balanced []
  | cons {call : Call} {calls : List Call} (hpush : call ≠ push) (hpop : call ≠ pop) :
      Balanced calls → Balanced (call :: calls)
  | scope {inner calls : List Call} : Balanced inner → Balanced calls → Balanced (push :: (inner ++ pop :: calls))

theorem run_append (stem : Text) (calls more : List Call) (ctx : Context) :
    run stem (calls ++ more) ctx = run stem more (run stem calls ctx) := List.foldl_append

end Call

/-! The lines of a ledger. -/

namespace Ledger

/-- What a call adds to the ledger. A number that is taken is the number of no scope. -/
def note (l : Ledger) : Call → Ledger
  | .bindScoped _ _ => l
  | .bindAliased name v => l.enter (.bound name v)
  | .takeNumber => { l with next := l.next + 1 }
  | .append _ => l
  | .push => l.enter .opened
  | .pop => l.enter .closed

/-- The ledger of calls where no scope is open and no number below `next` is free. -/
def ofCalls (next : Nat) (calls : List Call) : Ledger := calls.foldl note { next }

/-- Number, name and value of a binding in a scope. -/
abbrev Line := (Nat × Text) × Value

def Line.standIn (stem : Text) (line : Line) : Text := aliasOf stem line.1.2 line.1.1

/-- The aliases in the order in which they came, with the last value of each. -/
def standIns (stem : Text) (lines : List Line) : Bindings :=
  Entries.ofPairs (lines.reverse.map fun line => (line.standIn stem, line.2))

def namesIn (number : Nat) (lines : List Line) : List Text :=
  (lines.reverse.filter fun line => line.1.1 = number).map fun line => line.1.2

/-- The names that were bound in the scope, each once, by its last binding, and with its alias. -/
def aliasesIn (stem : Text) (number : Nat) (lines : List Line) : List (Text × Text) :=
  -- Of equal names `dedup` keeps the last.
  (namesIn number lines).dedup.map fun name => (name, aliasOf stem name number)

/-- The lines are put into the bindings, latest last. -/
def putLines (stem : Text) (lines : List Line) (bindings : Bindings) : Bindings :=
  lines.foldr (fun line bindings => Entries.put (line.standIn stem) line.2 bindings) bindings

variable {stem name key : Text} {lines more : List Line} {line : Line} {bindings : Bindings} {number : Nat}

theorem putLines_append (stem : Text) (lines more : List Line) (bindings : Bindings) :
    putLines stem (lines ++ more) bindings = putLines stem lines (putLines stem more bindings) := List.foldr_append

theorem mem_keys_putLines (h : key ∈ bindings.keys) : key ∈ (putLines stem lines bindings).keys := by
  induction lines with
  | nil => exact h
  | cons line lines ih => exact Entries.mem_keys_put.mpr (.inr ih)

/-- Behind bindings that are no aliases come the aliases. -/
theorem putLines_eq (hb : ∀ key ∈ bindings.keys, ¬ stem <+: key) :
    putLines stem lines bindings = bindings ++ standIns stem lines := by
  induction lines with
  | nil => exact (List.append_nil _).symm
  | cons line lines ih =>
    have hnew : line.standIn stem ∉ bindings.keys := fun hm => hb _ hm (Context.stem_prefix_aliasOf ..)
    have hlast : standIns stem (line :: lines) = Entries.put (line.standIn stem) line.2 (standIns stem lines) := by
      rw [standIns, List.reverse_cons, List.map_append, Entries.ofPairs, List.foldl_append]
      rfl
    rw [hlast, ← Entries.put_append_of_not_mem hnew, ← ih]
    rfl

/-- Lines enter aliases, and no other names. -/
theorem get?_putLines_of_foreign (h : ¬ stem <+: key) :
    Entries.get? (putLines stem lines bindings) key = Entries.get? bindings key := by
  induction lines with
  | nil => rfl
  | cons line lines ih =>
    have hne : key ≠ line.standIn stem := fun he => h (he ▸ Context.stem_prefix_aliasOf ..)
    exact (Entries.get?_put_of_ne hne _ _).trans ih

/-- The last line of a name in a scope is what its alias means. -/
theorem get?_putLines_aliasOf (stem : Text) (lines : List Line) (bindings : Bindings) (number : Nat) (name : Text) :
    Entries.get? (putLines stem lines bindings) (aliasOf stem name number) =
      (lines.lookup (number, name)).or (Entries.get? bindings (aliasOf stem name number)) := by
  induction lines with
  | nil => rfl
  | cons line lines ih =>
    obtain ⟨⟨other, key⟩, v⟩ := line
    have hput := Entries.get?_put (aliasOf stem key other) (aliasOf stem name number) v (putLines stem lines bindings)
    rw [ih] at hput
    refine hput.trans ?_
    rw [List.lookup_cons]
    by_cases he : (number, name) = (other, key)
    · obtain ⟨rfl, rfl⟩ := Prod.mk.inj he
      simp
    · have hl : ((number, name) == (other, key)) = false := by simpa using he
      have halias : aliasOf stem name number ≠ aliasOf stem key other := by
        intro ha
        obtain ⟨rfl, rfl⟩ := Context.aliasOf_inj ha
        exact he rfl
      rw [hl, if_neg halias]

/-- A name that was bound in the scope has a last line. -/
theorem exists_lookup_of_mem_namesIn (h : name ∈ namesIn number lines) : ∃ v, lines.lookup (number, name) = some v := by
  rw [namesIn, List.mem_map] at h
  obtain ⟨⟨⟨other, key⟩, v⟩, hm, rfl⟩ := h
  rw [List.mem_filter, List.mem_reverse, decide_eq_true_eq] at hm
  obtain ⟨hm, rfl⟩ := hm
  refine Option.ne_none_iff_exists'.mp fun hnone => ?_
  simpa using List.lookup_eq_none_iff.mp hnone _ hm

/-- A name noted again moves to the end. -/
theorem dedup_concat (names : List Text) (name : Text) :
    (names ++ [name]).dedup = names.dedup.filter (· ≠ name) ++ [name] := by
  induction names with
  | nil => rfl
  | cons first names ih =>
    rw [List.cons_append]
    by_cases hm : first ∈ names
    · rw [List.dedup_cons_of_mem hm, List.dedup_cons_of_mem (List.mem_append_left _ hm), ih]
    · by_cases he : first = name
      · subst he
        rw [List.dedup_cons_of_mem (by simp), ih, List.dedup_cons_of_notMem hm]
        simp
      · rw [List.dedup_cons_of_notMem (by simp [hm, he]), ih, List.dedup_cons_of_notMem hm]
        simp [he]

/-- A frame with the aliases of the scope has them when another name is bound in it. -/
theorem aliasesIn_cons (stem : Text) (number : Nat) (name : Text) (v : Value) (lines : List Line) :
    aliasesIn stem number (((number, name), v) :: lines) =
      ((aliasesIn stem number lines).filter fun entry => entry.1 != name) ++ [(name, aliasOf stem name number)] := by
  have hnames : namesIn number (((number, name), v) :: lines) = namesIn number lines ++ [name] := by
    simp [namesIn]
  have hfilter : (namesIn number lines).dedup.filter (fun other => decide (other ≠ name)) =
      (namesIn number lines).dedup.filter fun other => other != name :=
    List.filter_congr fun other _ => by simp [bne, Bool.beq_eq_decide_eq]
  rw [aliasesIn, hnames, dedup_concat, List.map_append, aliasesIn, List.filter_map, hfilter]
  rfl

theorem aliasesIn_append_of_ne (h : ∀ line ∈ lines, line.1.1 ≠ number) (more : List Line) :
    aliasesIn stem number (lines ++ more) = aliasesIn stem number more := by
  have hnone : lines.reverse.filter (fun line => line.1.1 = number) = [] := by
    simpa using h
  rw [aliasesIn, aliasesIn, namesIn, namesIn, List.reverse_append, List.filter_append, hnone, List.append_nil]

end Ledger

/-! Inside a scope. -/

namespace Context

/-- Aliases can be put before or after the closing of a scope that remembers none of them. -/
theorem restore_putLines {stem : Text} {saved : Saved} {bindings : Bindings} (hf : saved.Fits bindings)
    (hs : ∀ name ∈ saved.names, ¬ stem <+: name) (lines : List Ledger.Line) :
    restore saved (Ledger.putLines stem lines bindings) = Ledger.putLines stem lines (restore saved bindings) := by
  induction lines with
  | nil => rfl
  | cons line lines ih =>
    have hnot : line.standIn stem ∉ saved.names := fun hm => hs _ hm (stem_prefix_aliasOf ..)
    have hfits : saved.Fits (Ledger.putLines stem lines bindings) :=
      ⟨hf.nodup, fun name hm => Ledger.mem_keys_putLines (hf.bound name hm)⟩
    have hput := restore_put_of_not_mem hnot hfits line.2
    rw [ih] at hput
    exact hput

/-- Context and ledger went from `start` and `first` to `ctx` and `l`, and no scope was left open or closed. -/
structure Passed (stem : Text) (start : Context) (first : Ledger) (ctx : Context) (l : Ledger) : Prop where
  frames : ctx.frames = start.frames
  opened : l.opened = first.opened
  unique : ctx.unique = l.next
  next : first.next ≤ l.next
  course : ∃ lines, l.entries = lines ++ first.entries ∧ (∀ line ∈ lines, first.next ≤ line.1.1) ∧
    ctx.bindings = Ledger.putLines stem lines start.bindings

/-- They are in the scope `frame`, which was opened where they were `start` and `first`. -/
structure Within (stem : Text) (start : Context) (first : Ledger) (frame : Frame) (ctx : Context) (l : Ledger) :
    Prop where
  frames : ctx.frames = frame :: start.frames
  number : frame.number = first.next
  opened : l.opened = first.next :: first.opened
  unique : ctx.unique = l.next
  next : first.next < l.next
  fits : Saved.Fits frame.saved ctx.bindings
  foreign : ∀ name ∈ Saved.names frame.saved, ¬ stem <+: name
  course : ∃ lines, l.entries = lines ++ first.entries ∧ (∀ line ∈ lines, first.next ≤ line.1.1) ∧
    restore frame.saved ctx.bindings = Ledger.putLines stem lines start.bindings ∧
    frame.aliases = Ledger.aliasesIn stem first.next lines

variable {stem name : Text} {start ctx after : Context} {first l l' : Ledger} {frame : Frame}

/-- Inside a scope just opened nothing is noted yet. -/
theorem within_pushScope (hu : start.unique = first.next) (stem : Text) :
    Within stem start first { number := first.next } start.pushScope.2 (first.note .push) where
  frames := by simp [pushScope, takeNumber, hu]
  number := rfl
  opened := rfl
  unique := congrArg (· + 1) hu
  next := Nat.lt_succ_self _
  fits := ⟨List.nodup_nil, by simp [Saved.names]⟩
  foreign := by simp [Saved.names]
  course := ⟨[], rfl, List.forall_mem_nil _, rfl, rfl⟩

/-- Binding in the scope saves what the name had before. -/
theorem Within.bindScoped (h : Within stem start first frame ctx l) (hn : ¬ stem <+: name) (v : Value) :
    Within stem start first (Frame.save name (Entries.get? ctx.bindings name) frame) (ctx.bindScoped name v) l := by
  obtain ⟨lines, hl, hlow, hr, ha⟩ := h.course
  have hctx : ctx.bindScoped name v =
      { ctx with
        bindings := Entries.put name v ctx.bindings
        frames := Frame.save name (Entries.get? ctx.bindings name) frame :: start.frames } := by
    simp [Context.bindScoped, h.frames]
  rw [hctx]
  refine ⟨rfl, (save_number ..).trans h.number, h.opened, h.unique, h.next, fits_save frame h.fits name v,
    fun other ho => ?_, lines, hl, hlow, ?_, ?_⟩
  · rcases List.mem_cons.mp (names_save_subset _ _ _ ho) with rfl | ho
    · exact hn
    · exact h.foreign other ho
  · rw [restore_save frame h.fits name v, hr]
  · rw [save_aliases, ha]

/-- The alias alone: it is no name of the scope, and stays. -/
theorem Within.putAlias (h : Within stem start first frame ctx l) (name : Text) (v : Value) :
    Within stem start first (Frame.addAlias name (aliasOf stem name frame.number) frame)
      { ctx with
        bindings := Entries.put (aliasOf stem name frame.number) v ctx.bindings
        frames := Frame.addAlias name (aliasOf stem name frame.number) frame :: start.frames }
      (l.note (.bindAliased name v)) := by
  obtain ⟨lines, hl, hlow, hr, ha⟩ := h.course
  have hnote : l.note (.bindAliased name v) = { l with entries := ((first.next, name), v) :: l.entries } := by
    simp [Ledger.note, Ledger.enter, h.opened]
  have hnot : aliasOf stem name first.next ∉ Saved.names frame.saved :=
    fun hm => h.foreign _ hm (stem_prefix_aliasOf ..)
  rw [hnote, h.number]
  refine ⟨rfl, h.number, h.opened, h.unique, h.next, ?_, h.foreign,
    ((first.next, name), v) :: lines, by rw [hl]; rfl, ?_, ?_, ?_⟩
  · exact ⟨h.fits.nodup, fun other ho => Entries.mem_keys_put.mpr (.inr (h.fits.bound other ho))⟩
  · exact List.forall_mem_cons.mpr ⟨Nat.le_refl _, hlow⟩
  · rw [addAlias_saved, restore_put_of_not_mem hnot h.fits, hr]
    rfl
  · rw [Ledger.aliasesIn_cons, ← ha]
    rfl

theorem Within.bindAliased (h : Within stem start first frame ctx l) (hn : ¬ stem <+: name) (v : Value) :
    ∃ frame', Within stem start first frame' (ctx.bindAliased stem name v) (l.note (.bindAliased name v)) := by
  have hctx : ctx.bindAliased stem name v =
      Context.bindScoped name v
        { ctx with
          bindings := Entries.put (aliasOf stem name frame.number) v ctx.bindings
          frames := Frame.addAlias name (aliasOf stem name frame.number) frame :: start.frames } := by
    simp [Context.bindAliased, h.frames]
  rw [hctx]
  exact ⟨_, (h.putAlias name v).bindScoped hn v⟩

theorem Within.takeNumber (h : Within stem start first frame ctx l) :
    Within stem start first frame ctx.takeNumber.2 (l.note .takeNumber) :=
  ⟨h.frames, h.number, h.opened, congrArg (· + 1) h.unique, Nat.lt_succ_of_lt h.next, h.fits, h.foreign, h.course⟩

/-- Closing the scope puts everything back but the aliases. -/
theorem Within.popScope (h : Within stem start first frame ctx l) :
    Passed stem start first ctx.popScope.2 (l.note .pop) := by
  obtain ⟨lines, hl, hlow, hr, -⟩ := h.course
  have hpop : ctx.popScope.2 = { ctx with bindings := restore frame.saved ctx.bindings, frames := start.frames } := by
    simp [Context.popScope, h.frames]
  rw [hpop]
  exact ⟨rfl, by simp [Ledger.note, Ledger.enter, h.opened], h.unique, Nat.le_of_lt h.next, lines, hl, hlow, hr⟩

/-- What passes inside a scope adds its lines to the ledger, and none of them is of this scope. -/
theorem Within.passed (h : Within stem start first frame ctx l) (hp : Passed stem ctx l after l') :
    Within stem start first frame after l' := by
  obtain ⟨lines, hl, hlow, hr, ha⟩ := h.course
  obtain ⟨more, hl', hlow', hb⟩ := hp.course
  have hother : ∀ line ∈ more, first.next < line.1.1 :=
    fun line hm => Nat.lt_of_lt_of_le h.next (hlow' line hm)
  refine ⟨hp.frames.trans h.frames, h.number, hp.opened.trans h.opened, hp.unique, Nat.lt_of_lt_of_le h.next hp.next,
    ?_, h.foreign, more ++ lines, ?_, ?_, ?_, ?_⟩
  · rw [hb]
    exact ⟨h.fits.nodup, fun name hm => Ledger.mem_keys_putLines (h.fits.bound name hm)⟩
  · rw [hl', hl, List.append_assoc]
  · exact List.forall_mem_append.mpr ⟨fun line hm => Nat.le_of_lt (hother line hm), hlow⟩
  · rw [hb, restore_putLines h.fits h.foreign, hr, Ledger.putLines_append]
  · rw [ha, Ledger.aliasesIn_append_of_ne fun line hm => Nat.ne_of_gt (hother line hm)]

end Context

open Context (Passed Within)

namespace Call

variable {stem : Text} {start ctx : Context} {first l : Ledger} {frame : Frame} {call : Call} {calls : List Call}

/-- A call that opens and closes no scope stays in the innermost. -/
theorem within_apply (h : Within stem start first frame ctx l) (hpush : call ≠ push) (hpop : call ≠ pop)
    (hn : ∀ name ∈ call.name?, ¬ stem <+: name) :
    ∃ frame', Within stem start first frame' (call.apply stem ctx) (l.note call) := by
  cases call with
  | bindScoped name v => exact ⟨_, h.bindScoped (hn name rfl) v⟩
  | bindAliased name v => exact h.bindAliased (hn name rfl) v
  | takeNumber => exact ⟨_, h.takeNumber⟩
  | append fragment =>
    exact ⟨_, h.frames, h.number, h.opened, h.unique, h.next, h.fits, h.foreign, h.course⟩
  | push => exact absurd rfl hpush
  | pop => exact absurd rfl hpop

/-- So does a balanced sequence of calls. -/
theorem Balanced.within_run (hb : Balanced calls) (hn : ∀ call ∈ calls, ∀ name ∈ call.name?, ¬ stem <+: name)
    (h : Within stem start first frame ctx l) :
    ∃ frame', Within stem start first frame' (run stem calls ctx) (calls.foldl Ledger.note l) := by
  induction hb generalizing start first frame ctx l with
  | nil => exact ⟨_, h⟩
  | cons hpush hpop _ ih =>
    rw [List.forall_mem_cons] at hn
    obtain ⟨_, hcall⟩ := within_apply h hpush hpop hn.1
    exact ih hn.2 hcall
  | @scope inner calls _ _ ihi ihc =>
    rw [List.forall_mem_cons, List.forall_mem_append, List.forall_mem_cons] at hn
    obtain ⟨-, hinner, -, hcalls⟩ := hn
    -- The inner scope is opened where the outer one has come to, with the ledger as it is there.
    obtain ⟨_, hin⟩ := ihi hinner (Context.within_pushScope h.unique stem)
    obtain ⟨frame', hrest⟩ := ihc hcalls (h.passed hin.popScope)
    refine ⟨frame', ?_⟩
    rw [← List.cons_append, List.foldl_append, run_append]
    exact hrest

/--
Closing a scope restores what was before its opening. The scopes are those of before, and the bindings too, with
the aliases of the ledger behind them; a name that the calls gave a value means what it meant, or nothing again.
The aliases that are told are those of the scope itself: each name once, by its last binding, and its alias is
bound to the value of that.
-/
theorem Balanced.popScope_run (hb : Balanced calls) (hn : ∀ call ∈ calls, ∀ name ∈ call.name?, ¬ stem <+: name)
    (hk : ∀ key ∈ ctx.bindings.keys, ¬ stem <+: key) :
    let l := Ledger.ofCalls ctx.unique (push :: calls)
    let closed := (run stem calls ctx.pushScope.2).popScope
    closed.2.frames = ctx.frames ∧
    closed.2.bindings = ctx.bindings ++ Ledger.standIns stem l.entries ∧
    (∀ call ∈ calls, ∀ name ∈ call.name?, Entries.get? closed.2.bindings name = Entries.get? ctx.bindings name) ∧
    closed.1 = (Ledger.namesIn ctx.unique l.entries).dedup.map (fun name => (name, aliasOf stem name ctx.unique)) ∧
    ∀ name ∈ Ledger.namesIn ctx.unique l.entries, ∃ v, l.last? ctx.unique name = some v ∧
      Entries.get? closed.2.bindings (aliasOf stem name ctx.unique) = some v := by
  intro l closed
  have hopen := @Context.within_pushScope ctx { next := ctx.unique } rfl stem
  obtain ⟨frame, h⟩ : ∃ frame, Within stem ctx { next := ctx.unique } frame (run stem calls ctx.pushScope.2) l :=
    hb.within_run hn hopen
  obtain ⟨lines, hl, -, hr, ha⟩ := h.course
  obtain rfl : l.entries = lines := hl.trans (List.append_nil _)
  have hclosed : closed.1 = frame.aliases ∧ closed.2.bindings = Ledger.putLines stem l.entries ctx.bindings := by
    simp [closed, Context.popScope, h.frames, hr]
  refine ⟨h.popScope.frames, hclosed.2.trans (Ledger.putLines_eq hk), fun call hc name hm => ?_,
    hclosed.1.trans ha, fun name hm => ?_⟩
  · rw [hclosed.2, Ledger.get?_putLines_of_foreign (hn call hc name hm)]
  · obtain ⟨v, hv⟩ := Ledger.exists_lookup_of_mem_namesIn hm
    refine ⟨v, hv, ?_⟩
    rw [hclosed.2, Ledger.get?_putLines_aliasOf, hv]
    rfl

/-- A scope in which `item` is bound, and bound anew where an inner scope has shadowed it. -/
def shadowingCalls : List Call :=
  [.bindAliased "item".toList (.ofNat 1),
    .push, .bindAliased "item".toList (.ofNat 2), .bindScoped "n".toList (.ofNat 3), .append "x".toList, .pop,
    .takeNumber, .bindAliased "row".toList (.ofNat 4), .bindAliased "item".toList (.ofNat 5)]

def shadowedContext : Context where
  bindings := [("item".toList, .ofNat 0), ("m".toList, .ofNat 6)]
  frames := [{ number := 3 }]
  unique := 8

/-- What the names meant is back, and three aliases are behind it. -/
theorem shadowingCalls_restored :
    let closed := (run "__frch_".toList shadowingCalls shadowedContext.pushScope.2).popScope
    closed.2.bindings = [("item".toList, .ofNat 0), ("m".toList, .ofNat 6), ("__frch_item_8".toList, .ofNat 5),
      ("__frch_item_9".toList, .ofNat 2), ("__frch_row_8".toList, .ofNat 4)] ∧
    closed.1 = [("row".toList, "__frch_row_8".toList), ("item".toList, "__frch_item_8".toList)] := by
  have hinner : Balanced [bindAliased "item".toList (.ofNat 2), bindScoped "n".toList (.ofNat 3), append "x".toList] :=
    .cons nofun nofun (.cons nofun nofun (.cons nofun nofun .nil))
  have hbalanced : Balanced shadowingCalls :=
    .cons nofun nofun (.scope hinner (.cons nofun nofun (.cons nofun nofun (.cons nofun nofun .nil))))
  obtain ⟨-, hbindings, -, haliases, -⟩ :=
    @Balanced.popScope_run "__frch_".toList shadowedContext shadowingCalls hbalanced (by decide) (by decide)
  exact ⟨hbindings.trans rfl, haliases.trans rfl⟩

end Call

end DynamicSql
