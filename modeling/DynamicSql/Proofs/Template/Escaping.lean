import DynamicSql.Proofs.Template.Scanning
import DynamicSql.Proofs.Template.Written

/-!
Texts written so that nothing in them opens. A backslash goes before every opener, for the placeholders first
and then for the splices, and each stage takes away the backslashes of its own openers. Main statement: a text
that is not blank, written so, resolves to itself.
-/
namespace DynamicSql

namespace Token

/-- A backslash before every occurrence of a delimiter, leftmost first and without overlap. -/
def escapeDelimiter (delimiter s : Text) : Text := Text.replace delimiter (escape :: delimiter) s

variable {d : Delimiters} {delimiter r r' s s' t w : Text} {c : Char}

/-- The second text is the first with a backslash before every occurrence of the delimiter. -/
inductive Escapes (delimiter : Text) : Text → Text → Prop where
  | nil : Escapes delimiter [] []
  | delimiter {r r' : Text} : Escapes delimiter r r' → Escapes delimiter (delimiter ++ r) (escape :: (delimiter ++ r'))
  | char {c : Char} {r r' : Text} : ¬ delimiter <+: c :: r → Escapes delimiter r r' →
      Escapes delimiter (c :: r) (c :: r')

/-- A delimiter at the front is passed over as a whole. -/
theorem escapeDelimiter_delimiter (hd : delimiter ≠ []) (r : Text) :
    escapeDelimiter delimiter (delimiter ++ r) = escape :: (delimiter ++ escapeDelimiter delimiter r) := by
  have hskip : ∀ u : Text, Text.replaceFrom delimiter (escape :: delimiter) u.length (u ++ r) =
      escapeDelimiter delimiter r := by
    intro u
    induction u with
    | nil => rfl
    | cons c u ih => simpa [Text.replaceFrom] using ih
  obtain ⟨c, rest, rfl⟩ := List.exists_cons_of_ne_nil hd
  have hprefix : (c :: rest).isPrefixOf (c :: (rest ++ r)) = true :=
    List.isPrefixOf_iff_prefix.mpr (List.prefix_append (c :: rest) r)
  rw [escapeDelimiter, Text.replace, List.cons_append, Text.replaceFrom, if_pos ⟨hd, hprefix⟩]
  simp [hskip rest]

/-- A character at which no delimiter begins stays as it is. -/
theorem escapeDelimiter_cons (h : ¬ delimiter <+: c :: r) :
    escapeDelimiter delimiter (c :: r) = c :: escapeDelimiter delimiter r := by
  have hprefix : ¬ (delimiter ≠ [] ∧ delimiter.isPrefixOf (c :: r) = true) :=
    fun hp => h (List.isPrefixOf_iff_prefix.mp hp.2)
  rw [escapeDelimiter, Text.replace, Text.replaceFrom, if_neg hprefix]
  rfl

/-- The function escapes as the relation says. -/
theorem escapes_escapeDelimiter (hd : delimiter ≠ []) (s : Text) :
    Escapes delimiter s (escapeDelimiter delimiter s) := by
  -- A delimiter is passed over as a whole, so the induction is on the length.
  induction hn : s.length using Nat.strongRecOn generalizing s with
  | _ n ih =>
    subst hn
    cases s with
    | nil => exact .nil
    | cons c r =>
      by_cases h : delimiter <+: c :: r
      · obtain ⟨rest, hrest⟩ := h
        have hlt : rest.length < (c :: r).length := by
          have hpos : 0 < delimiter.length := List.length_pos_iff.mpr hd
          rw [← hrest, List.length_append]
          omega
        rw [← hrest, escapeDelimiter_delimiter hd]
        exact .delimiter (ih _ hlt rest rfl)
      · rw [escapeDelimiter_cons h]
        exact .char h (ih _ (Nat.lt_succ_self _) r rfl)

/-- Nothing changes in front of where the first delimiter may begin. -/
theorem escapeDelimiter_append_left (hd : delimiter ≠ []) (hw : ∀ c ∈ w, c ∉ delimiter) (s : Text) :
    escapeDelimiter delimiter (w ++ s) = w ++ escapeDelimiter delimiter s := by
  induction w with
  | nil => rfl
  | cons c w ih =>
    obtain ⟨hc, hrest⟩ := List.forall_mem_cons.mp hw
    have hopen : ¬ delimiter <+: c :: (w ++ s) := by
      obtain ⟨x, k, rfl⟩ := List.exists_cons_of_ne_nil hd
      rw [List.cons_prefix_cons]
      exact fun hp => hc (by simp [hp.1])
    rw [List.cons_append, escapeDelimiter_cons hopen, ih hrest, List.cons_append]

/-- No delimiter reaches over a character that is not in it. -/
theorem prefix_of_append (hw : ∀ c ∈ w.head?, c ∉ delimiter) (h : delimiter <+: s ++ w) : delimiter <+: s := by
  induction delimiter generalizing s with
  | nil => exact List.nil_prefix
  | cons x k ih =>
    cases s with
    | nil =>
      obtain ⟨t, rfl⟩ := h
      exact absurd List.mem_cons_self (hw x rfl)
    | cons c s =>
      obtain ⟨rfl, htail⟩ := List.cons_prefix_cons.mp h
      exact List.cons_prefix_cons.mpr ⟨rfl, ih (fun c hc hm => hw c hc (List.mem_cons_of_mem _ hm)) htail⟩

/-- No delimiter runs over into what begins with none of its characters. -/
theorem escapeDelimiter_append_right (hd : delimiter ≠ []) (hw : ∀ c ∈ w.head?, c ∉ delimiter) (s : Text) :
    escapeDelimiter delimiter (s ++ w) = escapeDelimiter delimiter s ++ escapeDelimiter delimiter w := by
  have h := escapes_escapeDelimiter hd s
  generalize escapeDelimiter delimiter s = s' at h ⊢
  induction h with
  | nil => rfl
  | delimiter _ ih => rw [List.append_assoc, escapeDelimiter_delimiter hd, ih, List.cons_append, List.append_assoc]
  | @char c r r' hopen _ ih =>
    have hopen' : ¬ delimiter <+: c :: (r ++ w) := mt (prefix_of_append (s := c :: r) hw) hopen
    rw [List.cons_append, escapeDelimiter_cons hopen', ih, List.cons_append]

namespace Escapes

theorem sublist (h : Escapes delimiter s s') : s.Sublist s' := by
  induction h with
  | nil => exact .slnil
  | delimiter _ ih => exact .cons _ ((List.Sublist.refl delimiter).append ih)
  | char _ _ ih => exact ih.cons_cons _

/-- What the escaped text begins with, up to a backslash, the text itself begins with. -/
theorem begins_append (h : Escapes delimiter s s') (hw : escape ∉ w) (hp : w <+: s' ++ t) : w <+: s ++ t := by
  induction w generalizing s s' with
  | nil => exact List.nil_prefix
  | cons a w ih =>
    rw [List.mem_cons, not_or] at hw
    cases h with
    | nil => exact hp
    | delimiter _ => exact absurd (List.cons_prefix_cons.mp hp).1.symm hw.1
    | char _ h =>
      obtain ⟨rfl, htail⟩ := List.cons_prefix_cons.mp hp
      exact List.cons_prefix_cons.mpr ⟨rfl, ih h hw.2 htail⟩

/-- No delimiter stands where the escaped text begins. -/
theorem unopened (h : Escapes delimiter s s') (hd : delimiter ≠ []) (he : escape ∉ delimiter) :
    ¬ delimiter <+: s' := by
  intro hp
  have hs : delimiter <+: s := by
    have hp' : delimiter <+: s' ++ [] := by rwa [List.append_nil]
    simpa using h.begins_append he hp'
  cases h with
  | nil => exact hd (List.prefix_nil.mp hp)
  | delimiter _ =>
    obtain ⟨c, rest, rfl⟩ := List.exists_cons_of_ne_nil hd
    exact he ((List.cons_prefix_cons.mp hp).1 ▸ List.mem_cons_self)
  | char hn _ => exact hn hs

/-- The scan finds no expression, and the tokens stand for the text. -/
theorem scanFrom (h : Escapes d.opening s s') (ho : d.opening ≠ []) (he : escape ∉ d.opening)
    (offset : Nat) (pending : Text) :
    ∃ tokens, Token.scanFrom d offset 0 false pending s' = .ok tokens ∧ exprs tokens = [] ∧
      literalAll d.opening tokens = pending.reverse ++ s := by
  induction h generalizing offset pending with
  | nil => exact ⟨flush pending [], rfl, exprs_flush pending [], literalAll_flush d.opening pending []⟩
  | @delimiter r r' h ih =>
    -- A backslash begins no opener, and the opener behind it is passed over.
    have hopen : ¬ d.opening <+: escape :: (d.opening ++ r') := by
      obtain ⟨c, rest, hc⟩ := List.exists_cons_of_ne_nil ho
      rw [hc, List.cons_append, List.cons_prefix_cons]
      exact fun hp => he (by simp [hc, hp.1])
    have hend : endsInEscape d.opening = false := by
      rw [endsInEscape, beq_eq_false_iff_ne]
      exact fun hl => he (List.mem_of_getLast? hl)
    obtain ⟨tokens, ht, hexprs, hall⟩ := ih (offset + Text.byteLength (escape :: d.opening)) []
    refine ⟨flush pending (.escaped :: tokens), ?_, by simpa using hexprs, by simp [literal, hall]⟩
    rw [scanFrom_escape hopen, hend, ht]
    rfl
  | @char c r r' hn h ih =>
    have hescape : ¬ (c = escape ∧ d.opening <+: r') := fun hp => h.unopened ho he hp.2
    obtain ⟨tokens, ht, hexprs, hall⟩ := ih (offset + c.utf8Size) (c :: pending)
    refine ⟨tokens, ?_, hexprs, by simpa using hall⟩
    rw [scanFrom_char ((char hn h).unopened ho he) hescape, ht]

end Escapes

/-- Escaping a text is undone by the scan. -/
theorem scan_escapeDelimiter (ho : d.opening ≠ []) (hc : d.closing ≠ []) (he : escape ∉ d.opening) (s : Text) :
    ∃ tokens, scan d (escapeDelimiter d.opening s) = .ok tokens ∧ exprs tokens = [] ∧
      literalAll d.opening tokens = s := by
  obtain ⟨tokens, ht, hexprs, hall⟩ := (escapes_escapeDelimiter ho s).scanFrom ho he 0 []
  exact ⟨tokens, scan_eq_ok_iff.mpr ⟨ho, hc, ht⟩, hexprs, hall⟩

end Token

open Token (exprs literalAll escapeDelimiter)

theorem InlineText.exists_partsOf (d : Delimiters) (source : Text) {tokens : List Token}
    (h : exprs tokens = []) : ∃ parts, partsOf d source tokens = .ok parts := by
  induction tokens with
  | nil => exact ⟨[], rfl⟩
  | cons token rest ih =>
    cases token with
    | text s =>
      obtain ⟨parts, hp⟩ := ih (by simpa using h)
      exact ⟨_, by rw [partsOf, hp]; rfl⟩
    | escaped =>
      obtain ⟨parts, hp⟩ := ih (by simpa using h)
      exact ⟨_, by rw [partsOf, hp]; rfl⟩
    | expr content offset => simp at h

/-- A text with its inline openers escaped is read as parts that render as the text. -/
theorem InlineText.parse_escapeDelimiter {c : Config} (ho : c.inlined.opening ≠ []) (hc : c.inlined.closing ≠ [])
    (he : Token.escape ∉ c.inlined.opening) (s : Text) :
    ∃ t, parse c (escapeDelimiter c.inlined.opening s) = .ok t ∧ ∀ scope, render scope t.parts = .ok s := by
  obtain ⟨tokens, ht, hexprs, hall⟩ := Token.scan_escapeDelimiter ho hc he s
  obtain ⟨parts, hp⟩ := exists_partsOf c.inlined (escapeDelimiter c.inlined.opening s) hexprs
  refine ⟨⟨_, parts⟩, parse_eq_ok_iff.mpr ⟨tokens, ht, parts, hp, rfl⟩, fun scope => ?_⟩
  rw [render_partsOf scope hp hexprs, hall]

/-- Without placeholders the pieces are the text itself. -/
theorem Query.piecesFrom_literal (config : Config) {count : Nat} {tokens : List Token} (h : exprs tokens = []) :
    (piecesFrom config count tokens).flatten = literalAll config.placeholder.opening tokens := by
  induction tokens generalizing count with
  | nil => rfl
  | cons token rest ih =>
    cases token with
    | text s | escaped =>
      rw [piecesFrom, List.flatten_cons, ih (by simpa using h)]
      rfl
    | expr content offset => simp at h

/-- A text with its placeholder openers escaped is a query that describes nothing. -/
theorem Query.ofText_escapeDelimiter {s : Setting} (ho : s.config.placeholder.opening ≠ [])
    (hc : s.config.placeholder.closing ≠ []) (he : Token.escape ∉ s.config.placeholder.opening)
    (bindings : Bindings) (t : Text) :
    ofText s bindings (escapeDelimiter s.config.placeholder.opening t) = .ok ⟨t, [], bindings⟩ := by
  obtain ⟨tokens, ht, hexprs, hall⟩ := Token.scan_escapeDelimiter ho hc he t
  refine ofText_eq_ok_iff.mpr ⟨tokens, ht, ?_, ?_, rfl⟩
  · rw [hexprs]
    exact .nil
  · rw [pieces_eq, piecesFrom_literal _ hexprs, hall]

/-- In a valid configuration no delimiter is empty. -/
theorem Config.delimiters_ne_nil {c : Config} (h : c.validate = .ok ()) :
    ∀ entry ∈ c.delimiterTexts, entry.2 ≠ [] := by
  rw [validate] at h
  split at h
  · cases h
  · next hn => simpa using hn

/-- A text with the openers of both stages escaped, those of the second stage first. -/
def Template.written (c : Config) (t : Text) : Text :=
  escapeDelimiter c.inlined.opening (escapeDelimiter c.placeholder.opening t)

/--
Every text that is not blank can be written as a template: with its openers escaped it is read as a text with
splices, and the template of that node resolves to the text, with no parameters and no bindings of its own,
whatever the parameter.
-/
theorem Template.resolve_written {c : Config} (hc : c.validate = .ok ())
    (hp : Token.escape ∉ c.placeholder.opening) (hi : Token.escape ∉ c.inlined.opening) {t : Text}
    (ht : Text.allBlank t = false) :
    ∃ inline template, InlineText.parse c (written c t) = .ok inline ∧
      withConfig (.inlined inline) c = .ok template ∧
      ∀ p, template.resolve p = .ok ⟨t, [], (Context.initial c).bindings⟩ := by
  have hne := Config.delimiters_ne_nil hc
  simp only [Config.delimiterTexts, List.forall_mem_cons] at hne
  obtain ⟨hpo, hpc, hio, hic, -⟩ := hne
  obtain ⟨inline, hparse, hrender⟩ := InlineText.parse_escapeDelimiter hio hic hi
    (escapeDelimiter c.placeholder.opening t)
  refine ⟨inline, ⟨.inlined inline, c⟩, hparse, by rw [withConfig, hc]; rfl, fun p => ?_⟩
  -- The first stage writes the text with the openers of the second still escaped; it is not blank either.
  have hblank : Text.allBlank (escapeDelimiter c.placeholder.opening t) = false := by
    rw [Text.allBlank, List.all_eq_false] at ht ⊢
    obtain ⟨x, hx, hnot⟩ := ht
    exact ⟨x, (Token.escapes_escapeDelimiter hpo t).sublist.subset hx, hnot⟩
  have htext : (Node.inlined inline).renderText ⟨p, c⟩ =
      .ok (escapeDelimiter c.placeholder.opening t, (Context.initial c).bindings) := by
    rw [Node.renderText, Node.render_inlined_apply, hrender]
    simp only [Context.append, Context.initial, Context.appendText_nil, hblank, Bool.false_eq_true, if_false]
  rw [resolve_eq, htext]
  exact Query.ofText_escapeDelimiter hpo hpc hp _ t

/-- Openers of both kinds, with a backslash before them or without; one character belongs to two of them. -/
def openMarks : Text := "C:\\\x7b\x7bx\x7d\x7d \\$\x7by\x7d $\x7b\x7b\x7b".toList

/-- The backslashes of the text itself stay; the placeholder opener behind the last dollar leaves no splice. -/
theorem Template.resolve_written_openMarks :
    written {} openMarks = "C:\\\\\x7b\x7bx\x7d\x7d \\\\$\x7by\x7d $\\\x7b\x7b\x7b".toList ∧
    ∃ inline template, InlineText.parse {} (written {} openMarks) = .ok inline ∧
      withConfig (.inlined inline) {} = .ok template ∧
      ∀ p, template.resolve p = .ok ⟨openMarks, [], []⟩ :=
  ⟨by decide, resolve_written (c := {}) rfl (by decide) (by decide) (by decide)⟩

end DynamicSql
