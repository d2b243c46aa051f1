import DynamicSql.Template.Renaming
import DynamicSql.Proofs.Template.Markers
import DynamicSql.Proofs.Text

/-!
Texts of plain characters and placeholders in the default delimiters. Main statement: scanning such
a text finds its placeholders, and renaming in them gives such a text again.
-/
namespace DynamicSql

def IsPlain (c : Char) : Prop := c ≠ '\\' ∧ c ≠ '\x7b' ∧ c ≠ '\x7d'

instance : DecidablePred IsPlain := fun c => inferInstanceAs (Decidable (c ≠ '\\' ∧ c ≠ '\x7b' ∧ c ≠ '\x7d'))

theorem plain_of_all {s : Text} (h : s.all (fun c => decide (IsPlain c)) = true) : ∀ c ∈ s, IsPlain c := by
  simpa using h

theorem isPlain_of_isBlank {c : Char} (h : Text.isBlank c = true) : IsPlain c := by
  refine ⟨?_, ?_, ?_⟩ <;> rintro rfl <;> exact absurd h (by decide)

/-- The text has placeholders with those contents, from left to right, and plain characters around them. -/
inductive Written : Text → List Text → Prop where
  | nil : Written [] []
  | char {c : Char} {s : Text} {cs : List Text} : IsPlain c → Written s cs → Written (c :: s) cs
  | placeholder {content s : Text} {cs : List Text} : (∀ c ∈ content, IsPlain c) → Written s cs →
      Written ('\x7b' :: '\x7b' :: (content ++ '\x7d' :: '\x7d' :: s)) (content :: cs)

namespace Written

variable {s r before after fragment separator : Text} {cs ds : List Text} {c : Char}

theorem of_plain (h : ∀ c ∈ s, IsPlain c) : Written s [] := by
  induction s with
  | nil => exact .nil
  | cons c s ih => exact .char (h c List.mem_cons_self) (ih fun d hd => h d (List.mem_cons_of_mem _ hd))

theorem append (h : Written s cs) (h' : Written r ds) : Written (s ++ r) (cs ++ ds) := by
  induction h with
  | nil => exact h'
  | char hc _ ih => exact .char hc ih
  | placeholder hc _ ih => simpa using placeholder hc ih

/-! Trimming and joining. -/

theorem tail (h : Written (c :: s) cs) (hc : IsPlain c) : Written s cs := by
  cases h with
  | char _ h => exact h
  | placeholder _ _ => exact absurd rfl hc.2.1

/-- Blanks at the beginning hold no placeholder. -/
theorem of_blank_append (hb : ∀ c ∈ before, Text.isBlank c = true) (h : Written (before ++ s) cs) :
    Written s cs := by
  induction before with
  | nil => exact h
  | cons c before ih =>
    have hc := isPlain_of_isBlank (hb c List.mem_cons_self)
    exact ih (fun d hd => hb d (List.mem_cons_of_mem _ hd)) (h.tail hc)

theorem eq_nil_of_blank (hs : ∀ c ∈ s, Text.isBlank c = true) (h : Written s cs) : cs = [] := by
  induction h with
  | nil => rfl
  | char _ _ ih => exact ih fun d hd => hs d (List.mem_cons_of_mem _ hd)
  | placeholder _ _ => exact absurd (hs '\x7b' List.mem_cons_self) (by decide)

theorem of_append_blank (ha : ∀ c ∈ after, Text.isBlank c = true) (h : Written (s ++ after) cs) :
    Written s cs := by
  generalize ht : s ++ after = t at h
  induction h generalizing s with
  | nil =>
    obtain ⟨rfl, -⟩ := List.append_eq_nil_iff.mp ht
    exact .nil
  | @char c r cs hc h ih =>
    cases s with
    | nil =>
      have hafter : after = c :: r := ht
      have hcs := eq_nil_of_blank (fun d hd => ha d (by simp [hafter, hd])) h
      exact hcs ▸ .nil
    | cons d s =>
      obtain ⟨rfl, hr⟩ := List.cons.inj ht
      exact .char hc (ih hr)
  | @placeholder content r cs hc h ih =>
    have hsplit : s ++ after = ('\x7b' :: '\x7b' :: (content ++ ['\x7d', '\x7d'])) ++ r := by simp [ht]
    rcases List.append_eq_append_iff.mp hsplit with ⟨w, hw, hafter⟩ | ⟨w, rfl, hr⟩
    · -- The placeholder ends in a character that is not blank.
      rcases List.eq_nil_or_concat w with rfl | ⟨w, d, rfl⟩
      · obtain rfl : '\x7b' :: '\x7b' :: (content ++ ['\x7d', '\x7d']) = s := by simpa using hw
        have hcs := eq_nil_of_blank (s := r) (fun d hd => ha d (by simpa [hafter] using hd)) h
        subst hcs
        exact placeholder hc .nil
      · have hlast := congrArg List.getLast? hw
        simp only [← List.append_assoc, List.concat_eq_append, List.getLast?_concat] at hlast
        have hd : d = '\x7d' := by
          have hend : ('\x7b' :: '\x7b' :: (content ++ ['\x7d', '\x7d'])).getLast? = some '\x7d' := by
            rw [show '\x7b' :: '\x7b' :: (content ++ ['\x7d', '\x7d']) =
              ('\x7b' :: '\x7b' :: (content ++ ['\x7d'])) ++ ['\x7d'] by simp, List.getLast?_concat]
          simpa [hend] using hlast.symm
        have hblank := ha d (by simp [hafter])
        rw [hd] at hblank
        exact absurd hblank (by decide)
    · have hrest := ih (s := w) hr.symm
      simpa using placeholder hc hrest

/-- Trimming takes no placeholder away. -/
theorem trim (h : Written s cs) : Written (Text.trim s) cs := by
  obtain ⟨before, after, hs, hb, ha⟩ := Text.exists_trim s
  rw [hs] at h
  exact of_append_blank ha (of_blank_append hb h)

/-- A space between two texts adds no placeholder, and a blank text has none. -/
theorem appendText (h : Written s cs) (hf : Written fragment ds) :
    Written (Context.appendText s fragment) (cs ++ ds) := by
  unfold Context.appendText
  split
  · next hblank =>
    have hds := eq_nil_of_blank (by simpa [Text.allBlank] using hblank) hf
    simpa [hds] using h
  · split
    · exact h.append (.char (by decide) hf)
    · exact h.append hf

theorem join {parts : List Text} {css : List (List Text)} (hs : Written separator [])
    (h : List.Forall₂ Written parts css) : Written (Text.join separator parts) css.flatten := by
  induction h with
  | nil => exact .nil
  | @cons part cs parts css hpart hrest ih =>
    cases parts with
    | nil =>
      cases hrest
      simpa [Text.join] using hpart
    | cons next parts =>
      rw [Text.join]
      · simpa using (hpart.append hs).append ih
      · simp

end Written

/-! Scanning. -/

namespace Token

variable {s content : Text} {cs cs' : List Text} {tokens : List Token} {d : Delimiters} {renames : Renames}

/-- Plain texts, and expressions with those contents. -/
inductive Spells : List Token → List Text → Prop where
  | nil : Spells [] []
  | text {t : Text} {tokens : List Token} {cs : List Text} : (∀ c ∈ t, IsPlain c) → Spells tokens cs →
      Spells (.text t :: tokens) cs
  | expr {content : Text} {offset : Nat} {tokens : List Token} {cs : List Text} : (∀ c ∈ content, IsPlain c) →
      Spells tokens cs → Spells (.expr content offset :: tokens) (content :: cs)

theorem Spells.contents (h : Spells tokens cs) : (exprs tokens).map Prod.fst = cs := by
  induction h with
  | nil => rfl
  | text _ _ ih => exact ih
  | expr _ _ ih => rw [exprs_expr, List.map_cons, ih]

theorem Spells.flush (h : Spells tokens cs) {pending : Text} (hp : ∀ c ∈ pending, IsPlain c) :
    Spells (flush pending tokens) cs := by
  unfold Token.flush
  split
  · exact h
  · exact .text (by simpa using hp) h

/-- A plain content ends at the first two braces. -/
theorem content_plain (hc : ∀ c ∈ content, IsPlain c) (s : Text) :
    Token.content ['\x7d', '\x7d'] 0 (content ++ '\x7d' :: '\x7d' :: s) =
      .closed content (content.length + 2) := by
  induction content with
  | nil => simp [Token.content]
  | cons c r ih =>
    obtain ⟨hescape, -, hclose⟩ := hc c List.mem_cons_self
    have hr := ih fun d hd => hc d (List.mem_cons_of_mem _ hd)
    have hescape' : c ≠ escape := hescape
    simp [Token.content, Ne.symm hclose, hescape', hr, Content.cons]
    omega

theorem scanFrom_skip (d : Delimiters) (offset : Nat) (afterEscape : Bool) (pending u s : Text) :
    ∃ offset', scanFrom d offset u.length afterEscape pending (u ++ s) =
      scanFrom d offset' 0 afterEscape pending s := by
  induction u generalizing offset with
  | nil => exact ⟨offset, rfl⟩
  | cons c u ih => exact ih (offset + c.utf8Size)

/-- Scanning finds the placeholders. -/
theorem scanFrom_written (h : Written s cs) (offset : Nat) {pending : Text} (hp : ∀ c ∈ pending, IsPlain c) :
    ∃ tokens, scanFrom Config.default.placeholder offset 0 false pending s = .ok tokens ∧
      Spells tokens cs := by
  induction h generalizing offset pending with
  | nil => exact ⟨_, rfl, Spells.nil.flush hp⟩
  | @char c s cs hc _ ih =>
    obtain ⟨tokens, ht, hs⟩ := ih (offset + c.utf8Size) (List.forall_mem_cons.mpr ⟨hc, hp⟩)
    refine ⟨tokens, ?_, hs⟩
    have hopen : Config.default.placeholder.opening.isPrefixOf (c :: s) = false := by
      simp [Config.default, List.isPrefixOf, Ne.symm hc.2.1]
    have hescape : ¬ (c = escape ∧ Config.default.placeholder.opening.isPrefixOf s = true) :=
      fun h => hc.1 h.1
    rw [scanFrom, if_neg (by simp [hopen]), if_neg hescape]
    exact ht
  | @placeholder content s cs hc _ ih =>
    have hopen : Config.default.placeholder.opening.isPrefixOf
        ('\x7b' :: '\x7b' :: (content ++ '\x7d' :: '\x7d' :: s)) = true := by simp [Config.default]
    obtain ⟨offset', hskip⟩ := scanFrom_skip Config.default.placeholder
      (offset + ('\x7b' : Char).utf8Size) false [] ('\x7b' :: (content ++ ['\x7d', '\x7d'])) s
    obtain ⟨tokens, ht, hs⟩ := ih offset' (List.forall_mem_nil _)
    refine ⟨flush pending (.expr content offset :: tokens), ?_, (Spells.expr hc hs).flush hp⟩
    rw [scanFrom, if_pos hopen, if_neg (by simp)]
    have hcontent : Token.content Config.default.placeholder.closing 0
        (List.drop Config.default.placeholder.opening.length
          ('\x7b' :: '\x7b' :: (content ++ '\x7d' :: '\x7d' :: s))) =
        .closed content (content.length + 2) := by
      simpa [Config.default] using content_plain hc s
    have hlength : Config.default.placeholder.opening.length + (content.length + 2) - 1 =
        ('\x7b' :: (content ++ ['\x7d', '\x7d'])).length := by
      simp [Config.default]
      omega
    have hrest : '\x7b' :: (content ++ '\x7d' :: '\x7d' :: s) =
        '\x7b' :: (content ++ ['\x7d', '\x7d']) ++ s := by simp
    have hescape : endsInEscape Config.default.placeholder.closing = false := by decide
    rw [hcontent]
    simp only [hlength, hescape, hrest, hskip, ht]
    rfl

/-- A written text is scanned into tokens that spell its contents. -/
theorem scan_written (h : Written s cs) :
    ∃ tokens, scan Config.default.placeholder s = .ok tokens ∧ Spells tokens cs := by
  obtain ⟨tokens, ht, hs⟩ := scanFrom_written h 0 (List.forall_mem_nil _)
  refine ⟨tokens, ?_, hs⟩
  rw [scan, if_neg (by decide)]
  exact ht

end Token

namespace Placeholder

open Token (Spells)

variable {s content out : Text} {cs cs' : List Text} {tokens : List Token} {renames : Renames}

def RenamesTo (renames : Renames) (content content' : Text) : Prop :=
  (∃ r, rename? content renames = .ok r ∧ r.getD content = content') ∧ ∀ c ∈ content', IsPlain c

theorem replaceFrom_plain (hc : ∀ c ∈ content, IsPlain c) (new : Text) :
    Text.replaceFrom Config.default.placeholder.closing new 0 content = content := by
  induction content with
  | nil => rfl
  | cons c r ih =>
    have hclose : Config.default.placeholder.closing.isPrefixOf (c :: r) = false := by
      simp [Config.default, List.isPrefixOf, Ne.symm (hc c List.mem_cons_self).2.2]
    rw [Text.replaceFrom, if_neg (by simp [hclose]), ih fun d hd => hc d (List.mem_cons_of_mem _ hd)]

/-- Each placeholder is renamed by itself, and written again. -/
theorem renameTokens_spells (h : Spells tokens cs) (hr : List.Forall₂ (RenamesTo renames) cs cs') :
    ∃ out, renameTokens Config.default.placeholder renames tokens = .ok out ∧ Written out cs' := by
  induction h generalizing cs' with
  | nil =>
    cases hr
    exact ⟨[], rfl, .nil⟩
  | @text t tokens cs ht _ ih =>
    obtain ⟨out, ho, hw⟩ := ih hr
    exact ⟨t ++ out, by simp [renameTokens, ho, Except.map], (Written.of_plain ht).append hw⟩
  | @expr content offset tokens cs hc _ ih =>
    cases hr with
    | cons hfirst hrest =>
      obtain ⟨⟨r, hr, rfl⟩, hplain⟩ := hfirst
      obtain ⟨out, ho, hw⟩ := ih hrest
      refine ⟨write Config.default.placeholder (r.getD content) ++ out,
        by simp [renameTokens, hr, ho, Except.map], ?_⟩
      rw [write, Text.replace, replaceFrom_plain hplain]
      simpa [Config.default] using Written.placeholder hplain hw

/-- Renaming changes the contents of placeholders and nothing else. -/
theorem renameAll_written (h : Written s cs) (hr : List.Forall₂ (RenamesTo renames) cs cs')
    (hnil : renames = [] → cs' = cs) (ho : renameAll Config.default.placeholder renames s = .ok out) :
    Written out cs' := by
  unfold renameAll at ho
  split at ho
  · next hempty =>
    cases ho
    exact hnil hempty ▸ h
  · obtain ⟨tokens, ht, hs⟩ := Token.scan_written h
    obtain ⟨out', ho', hw⟩ := renameTokens_spells hs hr
    simp only [Token.ofText_eq_ok_iff.mpr ht, ho', Halt.raise_ok, Except.ok.injEq] at ho
    exact ho ▸ hw

end Placeholder

namespace Query

/-- What a text with placeholders resolves to describes them in their order. -/
theorem describes_of_written {s : Setting} (hs : s.config.placeholder = Config.default.placeholder)
    {bindings : Bindings} {text : Text} {cs : List Text} (h : Written text cs) {q : Query}
    (hq : ofText s bindings text = .ok q) :
    List.Forall₂ (fun content d => ∃ offset, describe s bindings content offset = .ok d) cs q.parameters := by
  obtain ⟨tokens, ht, hd, -, -⟩ := ofText_eq_ok_iff.mp hq
  obtain ⟨tokens', ht', hspells⟩ := Token.scan_written h
  rw [hs, ht', Except.ok.injEq] at ht
  subst ht
  rw [← hspells.contents, List.forall₂_map_left_iff]
  exact hd.imp fun e d h => ⟨e.2, describe_eq_ok_iff.mpr h⟩

end Query

end DynamicSql
