import DynamicSql.Proofs.Entries
import DynamicSql.Proofs.Template.Run

/-!
Scopes. An alias tells its name and its number, closing a scope puts back what its names meant, and
the aliases made in it stay behind the bindings that were there before.
-/
namespace DynamicSql

namespace Context

/-- Two lists up to their first `c` are equal where the lists are. -/
theorem append_cons_inj {c : Char} {p q x y : Text} (hp : c ∉ p) (hq : c ∉ q)
    (h : p ++ c :: x = q ++ c :: y) :
    p = q ∧ x = y := by
  induction p generalizing q with
  | nil =>
    cases q with
    | nil => simpa using h
    | cons d q =>
      simp only [List.nil_append, List.cons_append, List.cons.injEq] at h
      exact absurd (h.1 ▸ List.mem_cons_self) hq
  | cons d p ih =>
    cases q with
    | nil =>
      simp only [List.nil_append, List.cons_append, List.cons.injEq] at h
      exact absurd (h.1 ▸ List.mem_cons_self) hp
    | cons e q =>
      simp only [List.mem_cons, not_or] at hp hq
      simp only [List.cons_append, List.cons.injEq] at h
      obtain ⟨rfl, hx⟩ := ih hp.2 hq.2 h.2
      exact ⟨by rw [h.1], hx⟩

/-- A number is written without underscores, so an alias can be taken apart. -/
theorem underscore_not_mem_ofNat (n : Nat) : '_' ∉ Text.ofNat n := by
  intro h
  have hd := Nat.isDigit_of_mem_toDigits (by decide) (by decide) h
  simp [Char.isDigit] at hd

theorem ofNat_injective : Function.Injective Text.ofNat := by
  intro m n h
  have hv := congrArg (fun s => Nat.ofDigitChars 10 s 0) h
  simpa [Text.ofNat, Nat.ofDigitChars_toDigits] using hv

/--
The number of an alias is what follows its last underscore, so different pairs have different
aliases.
-/
theorem aliasOf_inj {stem x y : Text} {m n : Nat} (h : aliasOf stem x m = aliasOf stem y n) :
    x = y ∧ m = n := by
  have hr := congrArg List.reverse h
  simp only [aliasOf, List.append_assoc, List.reverse_append, List.reverse_cons] at hr
  simp only [← List.append_assoc, List.append_cancel_right_eq] at hr
  simp only [List.append_assoc, List.singleton_append] at hr
  obtain ⟨hd, hx⟩ := append_cons_inj (by simpa using underscore_not_mem_ofNat m)
    (by simpa using underscore_not_mem_ofNat n) hr
  exact ⟨List.reverse_inj.mp hx, ofNat_injective (List.reverse_inj.mp hd)⟩

theorem stem_prefix_aliasOf (stem name : Text) (n : Nat) : stem <+: aliasOf stem name n :=
  ⟨name ++ '_' :: Text.ofNat n, by simp [aliasOf]⟩

/-! What a scope remembers is put back when it is closed. -/

abbrev Saved := List (Text × Option Value)

def Saved.names (saved : Saved) : List Text := saved.map Prod.fst

variable {saved : Saved} {bindings added : Bindings} {name other : Text}

/-- The names that a scope remembers are all bound, and each is remembered once. -/
structure Saved.Fits (saved : Saved) (bindings : Bindings) : Prop where
  nodup : saved.names.Nodup
  bound : ∀ name ∈ saved.names, name ∈ bindings.keys

def putBack (name : Text) (previous : Option Value) (bindings : Bindings) : Bindings :=
  match previous with
  | some v => Entries.put name v bindings
  | none => Entries.erase name bindings

theorem restore_cons (name : Text) (previous : Option Value) (saved : Saved) (bindings : Bindings) :
    restore ((name, previous) :: saved) bindings = restore saved (putBack name previous bindings) := by
  cases previous <;> rfl

/-- After the latest name is put back, the others are still bound. -/
theorem Saved.Fits.tail {previous : Option Value} (h : Saved.Fits ((name, previous) :: saved) bindings) :
    Saved.Fits saved (putBack name previous bindings) := by
  obtain ⟨hn, hb⟩ := h
  simp only [names, List.map_cons, List.nodup_cons] at hn
  refine ⟨hn.2, fun other ho => ?_⟩
  have hne : other ≠ name := fun he => hn.1 (he ▸ ho)
  have hm : other ∈ bindings.keys := hb other (List.mem_cons_of_mem _ ho)
  cases previous with
  | none => exact Entries.mem_keys_erase.mpr ⟨hm, hne⟩
  | some v => exact Entries.mem_keys_put.mpr (.inr hm)

/-- What a remembered name means now does not matter when it is put back. -/
theorem restore_put_of_mem (hs : name ∈ saved.names) (hb : name ∈ bindings.keys) (v : Value) :
    restore saved (Entries.put name v bindings) = restore saved bindings := by
  induction saved generalizing bindings with
  | nil => simp [Saved.names] at hs
  | cons entry rest ih =>
    obtain ⟨first, previous⟩ := entry
    by_cases he : first = name
    · subst he
      cases previous with
      | none => simp [restore, Entries.erase_put_self]
      | some w => simp [restore, Entries.put_put]
    · have hr : name ∈ Saved.names rest := by simpa [Saved.names, Ne.symm he] using hs
      cases previous with
      | none =>
        rw [restore, restore, Entries.erase_put_of_ne he]
        exact ih hr (Entries.mem_keys_erase.mpr ⟨hb, Ne.symm he⟩)
      | some w =>
        rw [restore, restore, ← Entries.put_comm (Ne.symm he) hb]
        exact ih hr (Entries.mem_keys_put.mpr (.inr hb))

/-- A name that is not remembered keeps what it means. -/
theorem restore_put_of_not_mem (hs : name ∉ saved.names) (hf : saved.Fits bindings) (v : Value) :
    restore saved (Entries.put name v bindings) = Entries.put name v (restore saved bindings) := by
  induction saved generalizing bindings with
  | nil => rfl
  | cons entry rest ih =>
    obtain ⟨first, previous⟩ := entry
    simp only [Saved.names, List.map_cons, List.mem_cons, not_or] at hs
    have hm : first ∈ bindings.keys := hf.bound first (by simp [Saved.names])
    have hc : putBack first previous (Entries.put name v bindings) =
        Entries.put name v (putBack first previous bindings) := by
      cases previous with
      | none => exact Entries.erase_put_of_ne (Ne.symm hs.1) v bindings
      | some w => exact Entries.put_comm (Ne.symm hs.1) hm w v
    rw [restore_cons, restore_cons, hc, ih hs.2 hf.tail]

/-- Entries behind those of the scope stay where they are. -/
theorem restore_append (hf : saved.Fits bindings) (ha : ∀ name ∈ saved.names, name ∉ added.keys) :
    restore saved (bindings ++ added) = restore saved bindings ++ added := by
  induction saved generalizing bindings with
  | nil => rfl
  | cons entry rest ih =>
    obtain ⟨first, previous⟩ := entry
    have hm : first ∈ bindings.keys := hf.bound first (by simp [Saved.names])
    have hn : first ∉ added.keys := ha first (by simp [Saved.names])
    have hc : putBack first previous (bindings ++ added) =
        putBack first previous bindings ++ added := by
      cases previous with
      | none =>
        simp only [putBack]
        rw [Entries.erase_append, Entries.erase_of_not_mem hn]
      | some w => exact Entries.put_append_of_mem hm w added
    rw [restore_cons, restore_cons, hc]
    exact ih hf.tail fun name h => ha name (List.mem_cons_of_mem _ h)

/-- Names that were not saved are left alone. -/
theorem get?_restore_of_not_mem (hs : name ∉ saved.names) (bindings : Bindings) :
    Entries.get? (restore saved bindings) name = Entries.get? bindings name := by
  induction saved generalizing bindings with
  | nil => rfl
  | cons entry rest ih =>
    obtain ⟨first, previous⟩ := entry
    simp only [Saved.names, List.map_cons, List.mem_cons, not_or] at hs
    rw [restore_cons, ih hs.2]
    cases previous with
    | none => simp [putBack, Entries.get?_erase, hs.1]
    | some w => simp [putBack, Entries.get?_put, hs.1]

@[simp] theorem save_number (name : Text) (previous : Option Value) (frame : Frame) :
    (Frame.save name previous frame).number = frame.number := by
  unfold Frame.save
  split <;> rfl

@[simp] theorem save_aliases (name : Text) (previous : Option Value) (frame : Frame) :
    (Frame.save name previous frame).aliases = frame.aliases := by
  unfold Frame.save
  split <;> rfl

@[simp] theorem addAlias_number (name standIn : Text) (frame : Frame) :
    (Frame.addAlias name standIn frame).number = frame.number := rfl

@[simp] theorem addAlias_saved (name standIn : Text) (frame : Frame) :
    (Frame.addAlias name standIn frame).saved = frame.saved := rfl

theorem names_save_subset (name : Text) (previous : Option Value) (frame : Frame) :
    Saved.names (Frame.save name previous frame).saved ⊆ name :: Saved.names frame.saved := by
  unfold Frame.save
  split
  · exact List.subset_cons_self _ _
  · exact List.Subset.refl _

/-- Binding a name in a scope is undone when the scope is closed. -/
theorem restore_save (frame : Frame) (hf : Saved.Fits frame.saved bindings) (name : Text) (v : Value) :
    restore (Frame.save name (Entries.get? bindings name) frame).saved (Entries.put name v bindings) =
      restore frame.saved bindings := by
  unfold Frame.save
  split
  · rename_i h
    obtain ⟨entry, hm, he⟩ := List.any_eq_true.mp h
    have hn : name ∈ Saved.names frame.saved := by
      simp only [beq_iff_eq] at he
      exact he ▸ List.mem_map_of_mem hm
    exact restore_put_of_mem hn (hf.bound name hn) v
  · cases hp : Entries.get? bindings name with
    | none =>
      have hn : name ∉ bindings.keys := Entries.get?_eq_none_iff.mp hp
      rw [restore, Entries.erase_put_self, Entries.erase_of_not_mem hn]
    | some w => rw [restore, Entries.put_put, Entries.put_get? hp]

/-- Saving a name before it is put keeps the frame fit to restore. -/
theorem fits_save (frame : Frame) (hf : Saved.Fits frame.saved bindings) (name : Text) (v : Value) :
    Saved.Fits (Frame.save name (Entries.get? bindings name) frame).saved (Entries.put name v bindings) := by
  have hb : ∀ other ∈ Saved.names frame.saved, other ∈ (Entries.put name v bindings).keys :=
    fun other h => Entries.mem_keys_put.mpr (.inr (hf.bound other h))
  unfold Frame.save
  split
  · exact ⟨hf.nodup, hb⟩
  · rename_i h
    have hn : name ∉ Saved.names frame.saved := by
      intro hm
      obtain ⟨entry, he, rfl⟩ := List.mem_map.mp hm
      exact h (List.any_eq_true.mpr ⟨entry, he, by simp⟩)
    refine ⟨List.nodup_cons.mpr ⟨hn, hf.nodup⟩, ?_⟩
    intro other ho
    rcases List.mem_cons.mp ho with rfl | ho
    · exact Entries.mem_keys_put.mpr (.inl rfl)
    · exact hb other ho

/-- The aliases that are bound have numbers that were taken already. -/
def AliasesTaken (stem : Text) (ctx : Context) : Prop :=
  ∀ name n, aliasOf stem name n ∈ ctx.bindings.keys → n < ctx.unique

/-- Entries under aliases of some names, with numbers in a range. -/
def AreAliases (stem : Text) (names : List Text) (low high : Nat) (added : Bindings) : Prop :=
  ∀ key ∈ added.keys, ∃ name ∈ names, ∃ n, low ≤ n ∧ n < high ∧ key = aliasOf stem name n

/-- The scopes are as before, and so are the bindings, but for new aliases behind them. -/
structure Intact (stem : Text) (names : List Text) (before after : Context) : Prop where
  frames : after.frames = before.frames
  unique : before.unique ≤ after.unique
  bindings : ∃ added, after.bindings = before.bindings ++ added ∧
    AreAliases stem names before.unique after.unique added

/-- A context in the scope `frame`, which was opened where the context was `start`. -/
structure Inside (stem : Text) (names : List Text) (start : Context) (frame : Frame)
    (ctx : Context) : Prop where
  frames : ctx.frames = frame :: start.frames
  low : start.unique ≤ frame.number
  high : frame.number < ctx.unique
  fits : Saved.Fits frame.saved ctx.bindings
  saved : ∀ name ∈ Saved.names frame.saved, name ∈ names
  restored : ∃ added, restore frame.saved ctx.bindings = start.bindings ++ added ∧
    AreAliases stem names start.unique ctx.unique added
  taken : AliasesTaken stem ctx

variable {stem : Text} {names : List Text} {start before ctx after : Context} {low high : Nat}

theorem AreAliases.mono {low' high' : Nat} (h : AreAliases stem names low high added) (hl : low' ≤ low)
    (hh : high ≤ high') : AreAliases stem names low' high' added := by
  intro key hk
  obtain ⟨name, hn, n, h₁, h₂, he⟩ := h key hk
  exact ⟨name, hn, n, by omega, by omega, he⟩

theorem AreAliases.append {more : Bindings} (h : AreAliases stem names low high added)
    (hm : AreAliases stem names low high more) : AreAliases stem names low high (added ++ more) := by
  intro key hk
  rw [Entries.keys_append] at hk
  exact (List.mem_append.mp hk).elim (h key) (hm key)

theorem Intact.refl (stem : Text) (names : List Text) (ctx : Context) : Intact stem names ctx ctx :=
  ⟨rfl, Nat.le_refl _, [], by simp, by simp [AreAliases]⟩

theorem Intact.trans (h : Intact stem names before ctx) (h' : Intact stem names ctx after) :
    Intact stem names before after := by
  obtain ⟨added, hb, ha⟩ := h.bindings
  obtain ⟨more, hb', hm⟩ := h'.bindings
  refine ⟨h'.frames.trans h.frames, Nat.le_trans h.unique h'.unique, added ++ more, ?_, ?_⟩
  · rw [hb', hb, List.append_assoc]
  · exact (ha.mono (Nat.le_refl _) h'.unique).append (hm.mono h.unique (Nat.le_refl _))

theorem Intact.buffer (h : Intact stem names before after) (buffer : Text) :
    Intact stem names before { after with buffer } := ⟨h.frames, h.unique, h.bindings⟩

/-- Aliases that were taken before are still taken. -/
theorem Intact.taken (h : Intact stem names before after) (ht : AliasesTaken stem before) :
    AliasesTaken stem after := by
  obtain ⟨added, hb, ha⟩ := h.bindings
  intro name n hk
  rw [hb, Entries.keys_append] at hk
  rcases List.mem_append.mp hk with hk | hk
  · exact Nat.lt_of_lt_of_le (ht name n hk) h.unique
  · obtain ⟨other, -, m, -, hm, he⟩ := ha _ hk
    exact (aliasOf_inj he).2 ▸ hm

/-- An alias with a number that was not taken is not bound. -/
theorem AliasesTaken.fresh (h : AliasesTaken stem ctx) {n : Nat} (hn : ctx.unique ≤ n) (name : Text) :
    aliasOf stem name n ∉ ctx.bindings.keys := by
  intro hk
  have := h name n hk
  omega

theorem Inside.buffer {frame : Frame} (h : Inside stem names start frame ctx) (buffer : Text) :
    Inside stem names start frame { ctx with buffer } :=
  ⟨h.frames, h.low, h.high, h.fits, h.saved, h.restored, h.taken⟩

/-- A scope just opened is inside the one around it. -/
theorem inside_pushScope (h : AliasesTaken stem start) :
    Inside stem names start { number := start.unique } start.pushScope.2 where
  frames := rfl
  low := Nat.le_refl _
  high := Nat.lt_succ_self _
  fits := ⟨List.nodup_nil, by simp [Saved.names]⟩
  saved := by simp [Saved.names]
  restored := ⟨[], by simp [restore, pushScope, takeNumber], by simp [AreAliases]⟩
  taken := fun name n hk => Nat.lt_succ_of_lt (h name n hk)

/-- What happens around an inner scope happens inside the outer one. -/
theorem Inside.intact {frame : Frame} (hn : ∀ name ∈ names, ¬ stem <+: name)
    (h : Inside stem names start frame ctx) (hi : Intact stem names ctx after) :
    Inside stem names start frame after := by
  obtain ⟨added, hb, ha⟩ := hi.bindings
  obtain ⟨old, hr, ho⟩ := h.restored
  refine ⟨hi.frames.trans h.frames, h.low, Nat.lt_of_lt_of_le h.high hi.unique, ?_, h.saved, ?_,
    hi.taken h.taken⟩
  · refine ⟨h.fits.nodup, fun name hm => ?_⟩
    rw [hb, Entries.keys_append]
    exact List.mem_append_left _ (h.fits.bound name hm)
  · have hd : ∀ name ∈ Saved.names frame.saved, name ∉ added.keys := by
      intro name hm hk
      obtain ⟨other, -, n, -, -, rfl⟩ := ha name hk
      exact hn _ (h.saved _ hm) (stem_prefix_aliasOf stem other n)
    refine ⟨old ++ added, ?_, ?_⟩
    · rw [hb, restore_append h.fits hd, hr, List.append_assoc]
    · have hl : start.unique ≤ ctx.unique := by have := h.low; have := h.high; omega
      exact (ho.mono (Nat.le_refl _) hi.unique).append (ha.mono hl (Nat.le_refl _))

/-- Closing the scope puts everything back. -/
theorem Inside.popScope {frame : Frame} (h : Inside stem names start frame ctx) :
    Intact stem names start ctx.popScope.2 := by
  have hp : ctx.popScope.2 =
      { ctx with bindings := restore frame.saved ctx.bindings, frames := start.frames } := by
    simp [Context.popScope, h.frames]
  rw [hp]
  exact ⟨rfl, Nat.le_trans h.low (Nat.le_of_lt h.high), h.restored⟩

theorem bindAliased_of_frames {frame : Frame} {outer : List Frame} (h : ctx.frames = frame :: outer)
    (stem name : Text) (v : Value) :
    ctx.bindAliased stem name v =
      let bindings := Entries.put (aliasOf stem name frame.number) v ctx.bindings
      { ctx with
        bindings := Entries.put name v bindings
        frames := Frame.save name (Entries.get? bindings name)
          (Frame.addAlias name (aliasOf stem name frame.number) frame) :: outer } := by
  simp [bindAliased, h, bindScoped]

/-- Binding a name in the scope shows outside of it as one alias. -/
theorem Inside.bindAliased {frame : Frame} (hn : ∀ name ∈ names, ¬ stem <+: name)
    (ht : AliasesTaken stem start) (h : Inside stem names start frame ctx) (hm : name ∈ names) (v : Value) :
    Inside stem names start
      (Frame.save name (Entries.get? (Entries.put (aliasOf stem name frame.number) v ctx.bindings) name)
        (Frame.addAlias name (aliasOf stem name frame.number) frame)) (ctx.bindAliased stem name v) := by
  obtain ⟨added, hr, ha⟩ := h.restored
  have hsaved : aliasOf stem name frame.number ∉ Saved.names frame.saved :=
    fun hk => hn _ (h.saved _ hk) (stem_prefix_aliasOf ..)
  have hfits : Saved.Fits frame.saved (Entries.put (aliasOf stem name frame.number) v ctx.bindings) :=
    ⟨h.fits.nodup, fun other ho => Entries.mem_keys_put.mpr (.inr (h.fits.bound other ho))⟩
  rw [bindAliased_of_frames h.frames]
  refine ⟨rfl, by simpa using h.low, by simpa using h.high,
    fits_save (Frame.addAlias name _ frame) hfits name v, ?_, ?_, ?_⟩
  · intro other ho
    rcases List.mem_cons.mp (names_save_subset _ _ _ ho) with rfl | ho
    · exact hm
    · exact h.saved other ho
  · refine ⟨Entries.put (aliasOf stem name frame.number) v added, ?_, ?_⟩
    · rw [← Entries.put_append_of_not_mem (ht.fresh h.low name), ← hr, ← restore_put_of_not_mem hsaved h.fits]
      exact restore_save (Frame.addAlias name _ frame) hfits name v
    · intro key hk
      rcases Entries.mem_keys_put.mp hk with rfl | hk
      · exact ⟨name, hm, frame.number, h.low, h.high, rfl⟩
      · exact ha key hk
  · intro other n hk
    rcases Entries.mem_keys_put.mp hk with he | hk
    · exact absurd (he ▸ stem_prefix_aliasOf stem other n) (hn _ hm)
    · rcases Entries.mem_keys_put.mp hk with he | hk
      · exact (aliasOf_inj he).2 ▸ h.high
      · exact h.taken other n hk

end Context

/-! Every name that a tree may bind. -/

namespace Node

mutual

def names : Node → List Text
  | text _ => []
  | inlined _ => []
  | when _ body => names body
  | choose branches otherwise => namesOfBranches branches ++ namesOfOptional otherwise
  | forEach i body => i.item.toList ++ i.index.toList ++ names body
  | trim _ body => names body
  | bind name _ => [name]
  | mixed children => namesOfAll children

def namesOfBranches : List (Expression × Node) → List Text
  | [] => []
  | (_, body) :: rest => names body ++ namesOfBranches rest

def namesOfOptional : Option Node → List Text
  | some body => names body
  | none => []

def namesOfAll : List Node → List Text
  | [] => []
  | n :: rest => names n ++ namesOfAll rest

end

theorem names_subset_of_branch {branches : List (Expression × Node)} {branch : Expression × Node}
    (h : branch ∈ branches) : names branch.2 ⊆ namesOfBranches branches := by
  induction branches with
  | nil => simp at h
  | cons first rest ih =>
    obtain ⟨test, body⟩ := first
    rw [namesOfBranches]
    rcases List.mem_cons.mp h with rfl | h
    · exact List.subset_append_left _ _
    · exact List.subset_append_of_subset_right _ (ih h)

theorem names_subset_of_child {children : List Node} {n : Node} (h : n ∈ children) :
    names n ⊆ namesOfAll children := by
  induction children with
  | nil => simp at h
  | cons first rest ih =>
    rw [namesOfAll]
    rcases List.mem_cons.mp h with rfl | h
    · exact List.subset_append_left _ _
    · exact List.subset_append_of_subset_right _ (ih h)

end Node

end DynamicSql
