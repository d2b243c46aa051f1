import DynamicSql.Proofs.Expr.Roots
import DynamicSql.Proofs.Template.Splitting
import DynamicSql.Proofs.Template.Written

/-!
The content of a placeholder as a function of its roots: the name that its path begins with, or the
first names of the paths in its expression. Main statement: renaming applies to the roots, and what
is described is the same wherever the new roots mean what the old ones meant.
-/
namespace DynamicSql

open DynamicSql.Expr (IsIdentifier IsName IsTail Shape Sound)
open DynamicSql.Expr.Grammar (isNameChar isLetter)
open DynamicSql.Expr.Shape (Fits)

/-! What the first name of a path means. -/

/-- A name finds the root, and the tail is followed from there. -/
theorem resolve?_tail {x tail : Text} (hx : IsIdentifier x) (ht : IsTail tail) (b : Bindings)
    (p : Parameter) :
    b.resolve? p (x ++ tail) = (b.root? p x).bind fun v => v.follow (Path.segments (tail.drop 1)) := by
  rw [Bindings.resolve?, segments_tail hx ht]

namespace Placeholder

variable {s : Setting} {b b' : Bindings} {before after rest head core content x y : Text} {others : List Text}
  {o : Nat} {d : Descriptor} {renames : Renames} {roots : List Text} {ρ : Text → Text}

/-- Roots with the same value have the same value at every tail. -/
theorem lookup?_tail {tail : Text} (hx : IsIdentifier x) (hy : IsIdentifier y) (ht : IsTail tail)
    {p : Parameter} (h : b'.root? p y = b.root? p x) :
    lookup? b' p (y ++ tail) = lookup? b p (x ++ tail) := by
  rw [lookup?, lookup?, resolve?_tail hx ht, resolve?_tail hy ht, h, segments_tail hx ht, segments_tail hy ht]
  rfl

/-- A description succeeds where the target, the attributes and the value are there. -/
theorem describe_eq_ok_iff_of_split (hs : split content = (head, others)) (hc : Text.trim head = core)
    (hne : core ≠ []) : Query.describe s b content o = .ok d ↔
      ∃ target attributes, readTarget core = .ok target ∧ readAttributes {} others = .ok attributes ∧
        (⟨target, attributes⟩ : Placeholder).describe b s.parameter = .ok d := by
  simp only [Query.describe, parse, hs, hc, hne, if_false]
  cases readTarget core with
  | error f => simp
  | ok target => cases readAttributes {} others <;> simp

theorem describe_of_find {t t' : Target} {a : Attributes} {p : Parameter}
    (h : ∀ e' v, t'.find b' p = .ok (e', v) → ∃ e, t.find b p = .ok (e, v))
    (hd : (⟨t', a⟩ : Placeholder).describe b' p = .ok d) :
    ∃ d₀, (⟨t, a⟩ : Placeholder).describe b p = .ok d₀ ∧ d = { d₀ with expression := d.expression } := by
  cases hf' : t'.find b' p with
  | error f => simp [describe, hf'] at hd
  | ok out =>
    obtain ⟨e', v⟩ := out
    obtain ⟨e, hf⟩ := h e' v hf'
    simp only [describe, hf, hf'] at hd ⊢
    cases hv : a.settle v with
    | none => simp [hv] at hd
    | some value =>
      simp only [hv, Except.ok.injEq] at hd
      exact ⟨_, rfl, hd ▸ rfl⟩

/-! Renaming a path. -/

/-- What ends a name ends a word. -/
theorem endsName_of_head {more : Text} (h : ∀ c ∈ more.head?, c ∈ ['.', '[', ','] ∨ Text.isBlank c = true) :
    endsName more = true ∧ Expr.EndsWord more := by
  cases more with
  | nil => exact ⟨rfl, by simp [Expr.EndsWord]⟩
  | cons c r =>
    have hc := h c rfl
    refine ⟨?_, ?_⟩
    · rcases hc with hc | hc
      · simp only [List.mem_cons, List.not_mem_nil, or_false] at hc
        rcases hc with rfl | rfl | rfl <;> rfl
      · simp [endsName, hc]
    · simp only [Expr.EndsWord, List.head?_cons, Option.mem_def, Option.some.injEq, forall_eq']
      by_contra hname
      rw [Bool.not_eq_false] at hname
      rcases hc with hc | hc
      · have hmarks : ['.', '[', ','].any isNameChar = false := by decide
        exact List.any_eq_false.mp hmarks c hc hname
      · simp [isBlank_of_isNameChar hname] at hc

/-- A name gives way where it is the whole first name. -/
theorem renameReference?_eq {more name standIn : Text} (hb : ∀ c ∈ before, Text.isBlank c = true)
    (hx : IsIdentifier x) (hname : IsIdentifier name) (hends : endsName more = true)
    (hword : Expr.EndsWord more) :
    renameReference? (before ++ (x ++ more)) name standIn =
      if x = name then some (before ++ standIn ++ more) else none := by
  have hhead : ∀ c ∈ (x ++ more).head?, Text.isBlank c = false := by
    obtain ⟨c, r, rfl⟩ := List.exists_cons_of_ne_nil hx.ne_nil
    intro d hd
    obtain rfl : c = d := by simpa using hd
    exact isBlank_of_isNameChar (hx.isNameChar c List.mem_cons_self)
  rw [renameReference?, Text.takeWhile_append_eq hb hhead, Text.dropWhile_append_eq hb hhead]
  split
  · next rest hafter =>
    have hsplit := Text.after?_eq_some_iff.mp hafter
    by_cases he : x = name
    · subst he
      obtain rfl := List.append_cancel_left hsplit
      simp [hends]
    · -- One of the two names is longer, and goes on where the other has ended.
      rcases List.append_eq_append_iff.mp hsplit with ⟨w, rfl, hw⟩ | ⟨w, rfl, hw⟩
      · cases w with
        | nil => simp at he
        | cons c w =>
          have hc := hname.isNameChar c (by simp)
          simp [hword c (by simp [hw])] at hc
      · cases w with
        | nil => simp at he
        | cons c w =>
          have hc := hx.isNameChar c (by simp)
          have hnot : endsName rest = false := by
            have hne : ∀ d, isNameChar d = false → c ≠ d := by
              rintro d hd rfl
              simp [hc] at hd
            simp [hw, endsName, isBlank_of_isNameChar hc, hne '.' (by decide), hne ',' (by decide),
              hne ':' (by decide), hne '[' (by decide)]
          simp [he, hnot]
  · next hafter =>
    have hne : x ≠ name := by
      rintro rfl
      rw [Text.after?_eq_some_iff.mpr rfl] at hafter
      cases hafter
    simp [hne]

theorem renamePath?_getD {more : Text} (hb : ∀ c ∈ before, Text.isBlank c = true)
    (hx : IsIdentifier x) (hnames : ∀ entry ∈ renames, IsIdentifier entry.1)
    (hends : endsName more = true) (hword : Expr.EndsWord more) :
    (renamePath? (before ++ (x ++ more)) renames).getD (before ++ (x ++ more)) =
      before ++ (Expr.Renames.apply renames x ++ more) := by
  induction renames with
  | nil => rfl
  | cons entry rest ih =>
    obtain ⟨name, standIn⟩ := entry
    obtain ⟨hname, hrest⟩ := List.forall_mem_cons.mp hnames
    rw [renamePath?, renameReference?_eq hb hx hname hends hword]
    by_cases he : x = name
    · simp [he, Expr.Renames.apply]
    · have hl : (x == name) = false := by simp [he]
      simp only [he, if_false, Expr.Renames.apply, List.lookup_cons, hl]
      exact ih hrest

/-! Contents with other roots. -/

theorem isPlain_of_isNameChar {c : Char} (h : isNameChar c = true) : IsPlain c := by
  refine ⟨?_, ?_, ?_⟩ <;> rintro rfl <;> exact absurd h (by decide)

/-- The roots of what comes before the attributes: a path, or an expression in parentheses. -/
inductive HasRoots : Text → List Text → Prop where
  | path {x tail : Text} : IsIdentifier x → IsTail tail → HasRoots (x ++ tail) [x]
  | expression {inside : Text} {tree : Expr.Tree} : Expr.parseTree inside = .ok tree →
      HasRoots ('(' :: (inside ++ [')'])) (Expr.rootsOf tree)

/-- A content that is valid and has those roots. -/
structure Rooted (content : Text) (roots : List Text) : Prop where
  plain : ∀ c ∈ content, IsPlain c
  roots : HasRoots (Text.trim (split content).1) roots
  valid : ∃ p, parse content 0 [] = .ok p

/-- A content for every choice of names in the place of its roots. -/
structure Family (roots : List Text) (fam : (Text → Text) → Text) : Prop where
  plain : ∀ ρ, Sound roots ρ → ∀ c ∈ fam ρ, IsPlain c
  rename : ∀ ρ renames, Sound roots ρ → (∀ entry ∈ renames, IsIdentifier entry.1) →
    ∃ r, rename? (fam ρ) renames = .ok r ∧ r.getD (fam ρ) = fam fun x => Expr.Renames.apply renames (ρ x)
  describe : ∀ ρ, Sound roots ρ → ∀ (s : Setting) (b b' : Bindings) (o : Nat) (d : Descriptor),
    (∀ x ∈ roots, b'.root? s.parameter (ρ x) = b.root? s.parameter x) →
      Query.describe s b' (fam ρ) o = .ok d →
    ∃ d₀, Query.describe s b (fam id) 0 = .ok d₀ ∧ d = { d₀ with expression := d.expression }

theorem isIdentifier_of_sound (h : Sound roots ρ) (hx : x ∈ roots) (hid : IsIdentifier x) :
    IsIdentifier (ρ x) := by
  rcases h x hx with he | hn
  · exact he.symm ▸ hid
  · exact hn.identifier

/-- A path does not begin with a parenthesis. -/
theorem enclosed?_identifier (hx : IsIdentifier x) (tail : Text) : enclosed? (x ++ tail) = none := by
  cases x with
  | nil => exact absurd rfl hx.ne_nil
  | cons c r =>
    have hne : c ≠ '(' := by
      rintro rfl
      exact absurd hx.1 (by decide)
    rw [List.cons_append, enclosed?]
    rintro r' he
    exact hne (List.cons.inj he).1

theorem trimmed_reroot {tail : Text} (hy : IsIdentifier y) (h : Text.Trimmed (x ++ tail)) :
    Text.Trimmed (y ++ tail) where
  head c hc := by
    obtain ⟨d, r, rfl⟩ := List.exists_cons_of_ne_nil hy.ne_nil
    obtain rfl : d = c := by simpa using hc
    exact isBlank_of_isNameChar (hy.isNameChar d List.mem_cons_self)
  last c hc := by
    cases tail with
    | nil =>
      rw [List.append_nil] at hc
      exact (trimmed_of_isNameChar hy.isNameChar).last c hc
    | cons d r => exact h.last c (by simpa [List.getLast?_append] using hc)

/-- A target for every choice of names in the place of its roots. -/
structure Targets (roots : List Text) (core : (Text → Text) → Text) : Prop where
  trimmed : ∀ ρ, Sound roots ρ → Text.Trimmed (core ρ)
  ne_nil : ∀ ρ, Sound roots ρ → core ρ ≠ []
  alike : ∀ ρ, Sound roots ρ → Level.Alike (core id) (core ρ)
  chars : ∀ ρ, Sound roots ρ → ∀ c ∈ core ρ, c ∈ core id ∨ isNameChar c = true
  rename : ∀ ρ renames, Sound roots ρ → (∀ entry ∈ renames, IsIdentifier entry.1) →
    ∀ before after rest others, (∀ c ∈ before, Text.isBlank c = true) →
    (∀ c ∈ after, Text.isBlank c = true) → (∀ c ∈ rest.head?, c = ',') →
    split (before ++ (core ρ ++ (after ++ rest))) = (before ++ (core ρ ++ after), others) →
    ∃ r, rename? (before ++ (core ρ ++ (after ++ rest))) renames = .ok r ∧
      r.getD (before ++ (core ρ ++ (after ++ rest))) =
        before ++ (core (fun x => Expr.Renames.apply renames (ρ x)) ++ (after ++ rest))
  find : ∀ ρ, Sound roots ρ → ∃ t t', readTarget (core id) = .ok t ∧ readTarget (core ρ) = .ok t' ∧
    ∀ (b b' : Bindings) (p : Parameter), (∀ x ∈ roots, b'.root? p (ρ x) = b.root? p x) →
      ∀ e' v, t'.find b' p = .ok (e', v) → ∃ e, t.find b p = .ok (e, v)

/-- What stands around the target, blanks and attributes, stays as it is. -/
theorem Targets.exists_family {targets : (Text → Text) → Text} (h : Targets roots targets)
    (hplain : ∀ c ∈ content, IsPlain c) (hcore : Text.trim (split content).1 = targets id) :
    ∃ fam, Family roots fam ∧ fam id = content := by
  obtain ⟨before, after, rest, hcontent, hb, ha, hr, hsplit⟩ := split_head content
  rw [hcore] at hcontent hsplit
  have hsplit' : ∀ ρ, Sound roots ρ → split (before ++ (targets ρ ++ (after ++ rest))) =
      (before ++ (targets ρ ++ after), (split content).2) := fun ρ hρ => hsplit _ (h.alike ρ hρ)
  have htrim : ∀ ρ, Sound roots ρ → Text.trim (before ++ (targets ρ ++ after)) = targets ρ :=
    fun ρ hρ => Text.trim_append hb ha (h.trimmed ρ hρ) (h.ne_nil ρ hρ)
  have hid : Sound roots id := fun _ _ => .inl rfl
  refine ⟨fun ρ => before ++ (targets ρ ++ (after ++ rest)), ⟨fun ρ hρ c hc => ?_,
    fun ρ renames hρ hnames => ?_, fun ρ hρ s b b' o d hroot hd => ?_⟩, hcontent.symm⟩
  · have hold : c ∈ content ∨ isNameChar c = true := by
      rw [hcontent]
      simp only [List.mem_append] at hc ⊢
      rcases hc with hc | hc | hc
      · exact .inl (.inl hc)
      · exact (h.chars ρ hρ c hc).imp_left fun hc => .inr (.inl hc)
      · exact .inl (.inr (.inr hc))
    exact hold.elim (hplain c) isPlain_of_isNameChar
  · exact h.rename ρ renames hρ hnames before after rest _ hb ha hr (hsplit' ρ hρ)
  · obtain ⟨t, t', ht, ht', hfind⟩ := h.find ρ hρ
    rw [describe_eq_ok_iff_of_split (hsplit' ρ hρ) (htrim ρ hρ) (h.ne_nil ρ hρ), ht'] at hd
    obtain ⟨target, attributes, he, ha, hd⟩ := hd
    cases he
    obtain ⟨d₀, hd₀, he⟩ := describe_of_find (hfind b b' s.parameter hroot) hd
    refine ⟨d₀, ?_, he⟩
    rw [describe_eq_ok_iff_of_split (hsplit' id hid) (htrim id hid) (h.ne_nil id hid)]
    exact ⟨t, attributes, ht, ha, hd₀⟩

/-! Paths. -/

/-- A path is a function of its first name. -/
theorem targets_path {tail : Text} (hx : IsIdentifier x) (ht : IsTail tail)
    (htrimmed : Text.Trimmed (x ++ tail)) :
    Targets [x] fun ρ => ρ x ++ tail := by
  have hid : ∀ ρ, Sound [x] ρ → IsIdentifier (ρ x) := fun ρ h => isIdentifier_of_sound h (by simp) hx
  have htarget : ∀ y, IsIdentifier y → readTarget (y ++ tail) = .ok (.path (y ++ tail)) := by
    intro y hy
    rw [readTarget, enclosed?_identifier hy]
  refine ⟨fun ρ hρ => trimmed_reroot (hid ρ hρ) htrimmed, fun ρ hρ => by simp [(hid ρ hρ).ne_nil],
    fun ρ hρ l hl => ?_, fun ρ hρ c hc => ?_,
    fun ρ renames hρ hnames before after rest others hb ha hr hsplit => ?_, fun ρ hρ => ?_⟩
  · have hold : l.pass (id x) = some l := Level.pass_word hl hx.isNameChar
    rw [Level.pass_append, Level.pass_append, hold, Level.pass_word hl (hid ρ hρ).isNameChar]
  · rcases List.mem_append.mp hc with hc | hc
    · exact .inr ((hid ρ hρ).isNameChar c hc)
    · exact .inl (List.mem_append_right _ hc)
  · have hy := hid ρ hρ
    refine ⟨renamePath? (before ++ ((ρ x ++ tail) ++ (after ++ rest))) renames, ?_, ?_⟩
    · rw [rename?, hsplit, Text.trim_append hb ha (trimmed_reroot hy htrimmed) (by simp [hy.ne_nil]),
        enclosed?_identifier hy]
    · obtain ⟨hends, hword⟩ : endsName (tail ++ (after ++ rest)) = true ∧
          Expr.EndsWord (tail ++ (after ++ rest)) := by
        refine endsName_of_head fun c hc => ?_
        cases tail with
        | cons d r =>
          obtain rfl : d = c := by simpa using hc
          left
          rcases ht d rfl with rfl | rfl <;> simp
        | nil =>
          cases after with
          | cons d r =>
            obtain rfl : d = c := by simpa using hc
            exact .inr (ha d List.mem_cons_self)
          | nil => exact .inl (by simp [hr c hc])
      simp only [List.append_assoc]
      exact renamePath?_getD hb hy hnames hends hword
  · refine ⟨.path (x ++ tail), .path (ρ x ++ tail), htarget x hx, htarget _ (hid ρ hρ),
      fun b b' p hroot e' v hfind => ⟨x ++ tail, ?_⟩⟩
    have hlookup := lookup?_tail hx (hid ρ hρ) ht (hroot x (by simp))
    simp only [Target.find, Except.ok.injEq, Prod.mk.injEq] at hfind
    rw [Target.find, ← hlookup, hfind.2]

/-! Expressions. -/

theorem enclosed?_parentheses (inside : Text) : enclosed? ('(' :: (inside ++ [')'])) = some inside := by
  simp [enclosed?]

/-- Other names bring in no characters but those of names. -/
theorem mem_fill {shape : Shape} (σ : Nat → Text) {τ : Nat → Text} (hτ : Fits τ shape) {c : Char}
    (hc : c ∈ shape.fill τ) :
    c ∈ shape.fill σ ∨ isNameChar c = true := by
  induction shape with
  | nil => cases hc
  | cons a rest ih =>
    cases a with
    | char d =>
      rw [Expr.Shape.fill_char, List.mem_cons] at hc ⊢
      rcases hc with rfl | hc
      · exact .inl (.inl rfl)
      · exact (ih hτ.tail hc).imp_left .inr
    | slot i =>
      rw [Expr.Shape.fill_slot, List.mem_append] at hc ⊢
      rcases hc with hc | hc
      · exact .inr (hτ.head.identifier.isNameChar c hc)
      · exact (ih hτ.tail hc).imp_left .inr

theorem trimmed_parentheses (inside : Text) : Text.Trimmed ('(' :: (inside ++ [')'])) where
  head c hc := by
    obtain rfl : '(' = c := by simpa using hc
    decide
  last c hc := by
    rw [← List.cons_append, List.getLast?_concat] at hc
    obtain rfl : ')' = c := by simpa using hc
    decide

/-- What stands in parentheses is renamed in its place. -/
theorem rename?_parentheses {inside renamed : Text} (hb : ∀ c ∈ before, Text.isBlank c = true)
    (ha : ∀ c ∈ after, Text.isBlank c = true)
    (hsplit : split (before ++ (('(' :: (inside ++ [')'])) ++ (after ++ rest))) =
      (before ++ (('(' :: (inside ++ [')'])) ++ after), others))
    (h : ∃ r, Expr.renameRoots inside renames = .ok r ∧ r.getD inside = renamed) :
    ∃ r, rename? (before ++ (('(' :: (inside ++ [')'])) ++ (after ++ rest))) renames = .ok r ∧
      r.getD (before ++ (('(' :: (inside ++ [')'])) ++ (after ++ rest))) =
        before ++ (('(' :: (renamed ++ [')'])) ++ (after ++ rest)) := by
  obtain ⟨r, hr, hrenamed⟩ := h
  have htrim := Text.trim_append hb ha (trimmed_parentheses inside) (List.cons_ne_nil _ _)
  have hlength : ((before ++ (('(' :: (inside ++ [')'])) ++ after)).takeWhile Text.isBlank).length =
      before.length := by
    rw [Text.takeWhile_append_eq hb fun c hc => ?_]
    obtain rfl : '(' = c := by simpa using hc
    decide
  rw [rename?, hsplit]
  simp only [htrim, enclosed?_parentheses, hlength, hr]
  cases r with
  | none =>
    rw [Option.getD_none] at hrenamed
    exact ⟨none, rfl, by rw [Option.getD_none, hrenamed]⟩
  | some r =>
    rw [Option.getD_some] at hrenamed
    refine ⟨_, rfl, ?_⟩
    have htake : (before ++ (('(' :: (inside ++ [')'])) ++ (after ++ rest))).take (before.length + 1) =
        before ++ ['('] := by
      rw [List.take_length_add_append]
      rfl
    have hdrop : (before ++ (('(' :: (inside ++ [')'])) ++ (after ++ rest))).drop
        (before.length + 1 + inside.length) = ')' :: (after ++ rest) := by
      rw [Nat.add_assoc, List.drop_length_add_append, Nat.add_comm]
      simp
    rw [Option.getD_some, htake, hdrop, hrenamed]
    simp

/-- An expression in parentheses is a function of the first names of its paths. -/
theorem exists_targets_expression {inside : Text} {tree : Expr.Tree} {e : Expr}
    (htree : Expr.parseTree inside = .ok tree) (he : Expr.ofTree tree = .ok e) :
    ∃ targets, Targets (Expr.rootsOf tree) targets ∧ targets id = '(' :: (inside ++ [')']) := by
  obtain ⟨shape, refill, rfl, hname, hrefill⟩ := Expr.exists_refill htree he
  have hid : Sound (Expr.rootsOf tree) id := fun _ _ => .inl rfl
  have hfits : ∀ ρ, Sound (Expr.rootsOf tree) ρ → Fits (refill ρ) shape := fun ρ h => (hrefill ρ h).1
  have htarget : ∀ ρ e, Expr.parse (shape.fill (refill ρ)) = .ok e →
      readTarget ('(' :: (shape.fill (refill ρ) ++ [')'])) =
        .ok (.expr ⟨Text.trim (shape.fill (refill ρ)), e⟩) := by
    intro ρ e h
    simp only [readTarget, enclosed?_parentheses, Expression.parse, h]
    rfl
  refine ⟨fun ρ => '(' :: (shape.fill (refill ρ) ++ [')']), ⟨fun _ _ => trimmed_parentheses _,
    fun _ _ => List.cons_ne_nil _ _, fun ρ hρ l hl => ?_, fun ρ hρ c hc => ?_,
    fun ρ renames hρ _ before after rest others hb ha _ hsplit => ?_, fun ρ hρ => ?_⟩, rfl⟩
  · have hnext : (l.next '(').Plain := hl.next '('
    rw [Level.pass, Level.pass, Level.pass_append, Level.pass_append,
      Level.pass_fill hnext (hfits id hid) (hfits ρ hρ)]
  · simp only [List.mem_cons, List.mem_append] at hc ⊢
    rcases hc with hc | hc | hc
    · exact .inl (.inl hc)
    · exact (mem_fill (refill id) (hfits ρ hρ) hc).imp_left fun hc => .inr (.inl hc)
    · exact .inl (.inr (.inr hc))
  · exact rename?_parentheses hb ha hsplit ((hrefill ρ hρ).2.1 renames)
  · obtain ⟨e', he', heval⟩ := (hrefill ρ hρ).2.2
    have hparse : Expr.parse (shape.fill (refill id)) = .ok e := by
      rw [Expr.parse, htree]
      exact he
    refine ⟨_, _, htarget id e hparse, htarget ρ e' he', fun b b' p hroot text v hfind => ?_⟩
    have hvalue : Expr.eval (b'.resolve? p) e' = Expr.eval (b.resolve? p) e := by
      refine heval _ _ fun x hx tail ht => ?_
      have hx' := (hname x hx).identifier
      rw [resolve?_tail hx' ht, resolve?_tail (isIdentifier_of_sound hρ hx hx') ht, hroot x hx]
    cases hv : Expr.eval (b.resolve? p) e with
    | error f => simp [Target.find, Expression.evaluate, hvalue, hv, Except.map] at hfind
    | ok w =>
      simp only [Target.find, Expression.evaluate, hvalue, hv, Except.map, Except.ok.injEq,
        Prod.mk.injEq] at hfind ⊢
      exact ⟨_, rfl, hfind.2⟩

/-- Every content with roots is a function of them. -/
theorem Rooted.exists_family (h : Rooted content roots) : ∃ fam, Family roots fam ∧ fam id = content := by
  obtain ⟨hplain, hroots, p, hp⟩ := h
  generalize hcore : Text.trim (split content).1 = core at hroots
  cases hroots with
  | path hx ht => exact (targets_path hx ht (hcore ▸ Text.trimmed_trim _)).exists_family hplain hcore
  | @expression inside tree htree =>
    obtain ⟨e, he⟩ : ∃ e, Expr.ofTree tree = .ok e := by
      simp only [parse, hcore, readTarget, enclosed?_parentheses, Expression.parse, Expr.parse, htree,
        List.cons_ne_nil, if_false] at hp
      cases he : Expr.ofTree tree with
      | ok e => exact ⟨e, rfl⟩
      | error f => simp [Except.bind, he, Except.map] at hp
    obtain ⟨targets, htargets, hid⟩ := exists_targets_expression htree he
    exact htargets.exists_family hplain (hcore.trans hid.symm)

end Placeholder

end DynamicSql
