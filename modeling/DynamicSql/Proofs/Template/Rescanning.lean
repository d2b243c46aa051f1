import DynamicSql.Proofs.Template.Closers

/-!
Rewritten texts scanned again. Renaming writes the tokens of a text back, with a backslash before every closer
in a content. Main statement: the text that is written has the tokens of the text that was read, its contents
renamed, exactly when each of its placeholders is read back where it stands alone.
-/
namespace DynamicSql

namespace Token

variable {d : Delimiters} {s content : Text} {offset : Nat} {afterEscape : Bool} {pending : Text}
  {tokens tokens' : List Token}

/-- The same token up to its offset, the content renamed. -/
inductive Renamed (renames : Renames) : Token → Token → Prop where
  | text (s : Text) : Renamed renames (.text s) (.text s)
  | escaped : Renamed renames .escaped .escaped
  | expr {content : Text} {new : Option Text} (offset offset' : Nat) : Placeholder.rename? content renames = .ok new →
      Renamed renames (.expr content offset) (.expr (new.getD content) offset')

theorem forall₂_flush {renames : Renames} (pending : Text) :
    List.Forall₂ (Renamed renames) (flush pending tokens) (flush pending tokens') ↔
      List.Forall₂ (Renamed renames) tokens tokens' := by
  unfold flush
  split
  · rfl
  · simp [Renamed.text]

theorem renameTokens_flush {renames : Renames} {pending out : Text} :
    Placeholder.renameTokens d renames (flush pending tokens) = .ok out ↔
      ∃ out', Placeholder.renameTokens d renames tokens = .ok out' ∧ pending.reverse ++ out' = out := by
  unfold flush
  split
  · next h => simp [List.isEmpty_iff.mp h]
  · rw [Placeholder.renameTokens, Except.map_eq_ok_iff]

def Yields (renames : Renames) (tokens : List Token) (found : Except ScanError (List Token)) : Prop :=
  ∃ tokens', found = .ok tokens' ∧ List.Forall₂ (Renamed renames) tokens tokens'

theorem yields_map {renames : Renames} {found : Except ScanError (List Token)} {before : List Token}
    {f : List Token → List Token}
    (hf : ∀ tokens', List.Forall₂ (Renamed renames) before (f tokens') ↔
      List.Forall₂ (Renamed renames) tokens tokens') :
    Yields renames before (found.map f) ↔ Yields renames tokens found := by
  cases found with
  | error e => simp [Yields, Except.map]
  | ok tokens' => simp [Yields, Except.map, hf]

def EachReadBack (d : Delimiters) (renames : Renames) (tokens : List Token) : Prop :=
  ∀ content ∈ (exprs tokens).map Prod.fst, ∀ new, Placeholder.rename? content renames = .ok new →
    ReadsBack d (new.getD content)

/-- Texts and escaped openers have nothing to read back. -/
theorem eachReadBack_flush_escaped {renames : Renames} (pending : Text) :
    EachReadBack d renames (flush pending (.escaped :: tokens)) ↔ EachReadBack d renames tokens := by
  simp [EachReadBack]

theorem eachReadBack_flush_expr {renames : Renames} {new : Option Text}
    (hnew : Placeholder.rename? content renames = .ok new) :
    EachReadBack d renames (flush pending (.expr content offset :: tokens)) ↔
      ReadsBack d (new.getD content) ∧ EachReadBack d renames tokens := by
  simp [EachReadBack, hnew]

/-- The opener, with its backslash, is read as escaped again. -/
theorem yields_escape {renames : Renames} {rest : Text} {P : Prop}
    (hopen : ¬ d.opening <+: Token.escape :: (d.opening ++ rest))
    (hrest : ∀ offset, Yields renames tokens (scanFrom d offset 0 (endsInEscape d.opening) [] rest) ↔ P)
    (offset : Nat) :
    Yields renames (flush pending (.escaped :: tokens))
      (scanFrom d offset 0 afterEscape pending (Token.escape :: (d.opening ++ rest))) ↔ P := by
  rw [scanFrom_escape hopen, yields_map fun tokens' => ?_, hrest]
  rw [forall₂_flush]
  simp [Renamed.escaped]

/-- The placeholder is read as one with the new content exactly when that is read back. -/
theorem yields_write {renames : Renames} {rest : Text} {P : Prop} {new : Option Text} (ho : d.opening ≠ [])
    (hc : d.closing ≠ []) (hp : ¬ (afterEscape = true ∧ pending = []))
    (hnew : Placeholder.rename? content renames = .ok new)
    (hrest : ∀ offset, Yields renames tokens (scanFrom d offset 0 (endsInEscape d.closing) [] rest) ↔ P)
    (offset offset' : Nat) :
    Yields renames (flush pending (.expr content offset :: tokens))
      (scanFrom d offset' 0 afterEscape pending (Placeholder.write d (new.getD content) ++ rest)) ↔
      ReadsBack d (new.getD content) ∧ P := by
  rw [write_append]
  by_cases hback : ReadsBack d (new.getD content)
  · have hdrop : (escapeDelimiter d.closing (new.getD content) ++ (d.closing ++ rest)).drop
        ((escapeDelimiter d.closing (new.getD content)).length + d.closing.length) = rest := by
      rw [← List.append_assoc, ← List.length_append, List.drop_left]
    rw [scanFrom_opening ho hp (hback.closed rest), hdrop, yields_map fun tokens' => ?_, hrest, and_iff_right hback]
    rw [forall₂_flush]
    simp [Renamed.expr offset offset' hnew]
  · simp only [hback, false_and, iff_false]
    rintro ⟨tokens', hscan, hall⟩
    obtain ⟨content', n, hclosed⟩ := content_closed_of_scanFrom ho hp hscan
    rw [scanFrom_opening ho hp hclosed, Except.map_eq_ok_iff] at hscan
    obtain ⟨tokens'', -, rfl⟩ := hscan
    -- The content that is read is the new one, and so it is read back.
    rw [forall₂_flush, List.forall₂_cons] at hall
    cases hall.1 with
    | expr _ _ hnew' =>
      obtain rfl := Except.ok.inj (hnew.symm.trans hnew')
      exact hback (readsBack_of_closed ho hc hclosed)

/-- The text that renaming writes begins as the scanned one, for as long as an opener is. -/
theorem Scans.rescan {renames : Renames} (h : Scans d afterEscape pending s tokens) (ho : d.opening ≠ [])
    (hc : d.closing ≠ [])
    (hescaped : .escaped ∈ tokens → ∀ rest, ¬ d.opening <+: Token.escape :: (d.opening ++ rest)) {out : Text}
    (hout : Placeholder.renameTokens d renames tokens = .ok out) :
    ∃ out', out = pending.reverse ++ out' ∧
      (afterEscape = false → out'.take d.opening.length = s.take d.opening.length) ∧
      ∀ offset, Yields renames tokens (scanFrom d offset 0 afterEscape pending out') ↔
        EachReadBack d renames tokens := by
  induction h generalizing out with
  | @nil afterEscape pending =>
    obtain ⟨_, ⟨⟩, rfl⟩ := renameTokens_flush.mp hout
    refine ⟨[], rfl, fun _ => rfl, fun offset => ?_⟩
    have hsame : Yields renames (flush pending []) (.ok (flush pending [])) :=
      ⟨_, rfl, (forall₂_flush pending).mpr .nil⟩
    simpa [EachReadBack, scanFrom] using hsame
  | @again r tokens h ih =>
    rw [Placeholder.renameTokens, Except.map_eq_ok_iff] at hout
    obtain ⟨rest, hrest, rfl⟩ := hout
    obtain ⟨out', heq, -, hyields⟩ := ih (fun hm => hescaped (List.mem_cons_of_mem _ hm)) hrest
    obtain rfl : rest = out' := heq
    refine ⟨_, rfl, fun hfalse => absurd hfalse (by simp), fun offset => ?_⟩
    exact (yields_escape (hescaped List.mem_cons_self rest) hyields offset).trans (eachReadBack_flush_escaped []).symm
  | @escape afterEscape pending r tokens hopen h ih =>
    obtain ⟨rest, hrest, rfl⟩ := renameTokens_flush.mp hout
    rw [Placeholder.renameTokens, Except.map_eq_ok_iff] at hrest
    obtain ⟨rest', hrest', rfl⟩ := hrest
    obtain ⟨out', heq, -, hyields⟩ := ih (fun hm => hescaped (by simp)) hrest'
    obtain rfl : rest' = out' := heq
    refine ⟨_, rfl, fun _ => ?_, fun offset => ?_⟩
    · exact take_cons_congr _ (by rw [List.take_left, List.take_left])
    · exact (yields_escape (hescaped (by simp) rest') hyields offset).trans (eachReadBack_flush_escaped pending).symm
  | @opening afterEscape pending r content n offset tokens hp hcontent h ih =>
    obtain ⟨rest, hrest, rfl⟩ := renameTokens_flush.mp hout
    rw [Placeholder.renameTokens] at hrest
    cases hnew : Placeholder.rename? content renames with
    | error f => simp [hnew] at hrest
    | ok new =>
      simp only [hnew, Except.map_eq_ok_iff] at hrest
      obtain ⟨rest', hrest', rfl⟩ := hrest
      obtain ⟨out', heq, -, hyields⟩ := ih (fun hm => hescaped (by simp [hm])) hrest'
      obtain rfl : rest' = out' := heq
      refine ⟨_, rfl, fun _ => ?_, fun offset' => ?_⟩
      · rw [write_append, List.take_left, List.take_left]
      · rw [eachReadBack_flush_expr hnew]
        exact yields_write ho hc hp hnew hyields offset offset'
  | @char afterEscape c pending r tokens hopen hescape h ih =>
    obtain ⟨out', rfl, hbegin, hyields⟩ := ih hescaped hout
    have hbegin' := hbegin rfl
    have hopen' := mt (prefix_congr (take_cons_congr c hbegin') (Nat.le_refl _)).mp hopen
    have hescape' := mt (And.imp_right (prefix_congr hbegin' (Nat.le_refl _)).mp) hescape
    refine ⟨c :: out', by simp, fun _ => take_cons_congr c hbegin', fun offset => ?_⟩
    rw [scanFrom_char hopen' hescape']
    exact hyields _

end Token

namespace Placeholder

open Token (Yields EachReadBack ReadsBack)

/-- A text is scanned, and its tokens are written again. -/
theorem renameAll_eq_ok_iff {d : Delimiters} {renames : Renames} {s out : Text} (hr : renames ≠ []) :
    renameAll d renames s = .ok out ↔
      ∃ tokens, Token.scan d s = .ok tokens ∧ renameTokens d renames tokens = .ok out := by
  rw [renameAll, if_neg hr]
  simp only [← Token.ofText_eq_ok_iff]
  cases Token.ofText d s <;> simp [Halt.raise_eq_ok_iff]

/--
The text that renaming writes has the tokens of the text that was read, its contents renamed, exactly when each
placeholder that is written would be read back if it stood alone. Where the closer has no backslash these are the
contents that can be sealed. Where the opener is made of backslashes only, no opener may be escaped.
-/
theorem scan_renameAll_iff {d : Delimiters} {renames : Renames} {s out : Text} {tokens : List Token}
    (hs : Token.scan d s = .ok tokens) (hr : renames ≠ [])
    (he : .escaped ∈ tokens → ¬ d.opening <+: Token.escape :: d.opening) (hout : renameAll d renames s = .ok out) :
    (Yields renames tokens (Token.scan d out) ↔ EachReadBack d renames tokens) ∧
    (Token.escape ∉ d.closing → (EachReadBack d renames tokens ↔
      ∀ content ∈ (Token.exprs tokens).map Prod.fst, ∀ new, rename? content renames = .ok new →
        Token.Sealable d.closing (new.getD content))) := by
  obtain ⟨ho, hc, hscan⟩ := Token.scan_eq_ok_iff.mp hs
  obtain ⟨tokens', hs', hrename⟩ := (renameAll_eq_ok_iff hr).mp hout
  obtain rfl := Except.ok.inj (hs.symm.trans hs')
  have hescaped : .escaped ∈ tokens → ∀ rest, ¬ d.opening <+: Token.escape :: (d.opening ++ rest) := by
    intro hm rest hp
    have hp' : d.opening <+: (Token.escape :: d.opening) ++ rest := hp
    exact he hm (List.prefix_of_prefix_length_le hp' (List.prefix_append _ _) (by simp))
  obtain ⟨out', rfl, -, hyields⟩ := (Token.scans_of_scanFrom ho hscan).rescan ho hc hescaped hrename
  refine ⟨?_, fun hclosing => ?_⟩
  · rw [← hyields 0, Token.scan, if_neg (by simp [ho, hc])]
  · simp only [EachReadBack, Token.readsBack_iff ho hc hclosing]

/-! The body of an iteration over identifiers: one placeholder is the identifier's, one has nested braces. -/

def idRenames : Renames := [("id".toList, "__frch_id_0".toList)]

def idBody : Text := "\\\x7b\x7b \x7b\x7bid.k, default=\"a\\\x7d\x7db\"\x7d\x7d".toList

def idTokens : List Token := [.escaped, .text " ".toList, .expr "id.k, default=\"a\x7d\x7db\"".toList 4]

def idRenamed : Text := "\\\x7b\x7b \x7b\x7b__frch_id_0.k, default=\"a\\\x7d\x7db\"\x7d\x7d".toList

theorem idBody_rescanned :
    Token.scan Config.default.placeholder idBody = .ok idTokens ∧ idRenames ≠ [] ∧
    (.escaped ∈ idTokens →
      ¬ Config.default.placeholder.opening <+: Token.escape :: Config.default.placeholder.opening) ∧
    renameAll Config.default.placeholder idRenames idBody = .ok idRenamed ∧
    Yields idRenames idTokens (Token.scan Config.default.placeholder idRenamed) := by
  have hscan : Token.scan Config.default.placeholder idBody = .ok idTokens := by decide
  have hout : renameAll Config.default.placeholder idRenames idBody = .ok idRenamed := by decide
  have hopener : ¬ Config.default.placeholder.opening <+: Token.escape :: Config.default.placeholder.opening := by
    decide
  refine ⟨hscan, by decide, fun _ => hopener, hout,
    (scan_renameAll_iff hscan (by decide) (fun _ => hopener) hout).1.mpr ?_⟩
  intro content hmem new hnew
  obtain rfl : "id.k, default=\"a\x7d\x7db\"".toList = content := by simpa [idTokens, eq_comm] using hmem
  have hrename : rename? "id.k, default=\"a\x7d\x7db\"".toList idRenames =
      .ok (some "__frch_id_0.k, default=\"a\x7d\x7db\"".toList) := by decide
  obtain rfl := Except.ok.inj (hrename.symm.trans hnew)
  decide

/-- A default with nested braces, which end where the placeholder does. -/
def nestedBody : Text := "\x7b\x7bv, default=\x7b\"a\":\x7b\"b\":\x7b\x7d\\\x7d\x7d\x7d\x7d".toList

/--
Of the three braces that end the content the first two are escaped together when it is written, and the third
ends the placeholder too early.
-/
theorem nestedBody_differs :
    Config.default.validate = .ok () ∧
    Token.scan Config.default.placeholder nestedBody =
      .ok [.expr "v, default=\x7b\"a\":\x7b\"b\":\x7b\x7d\x7d\x7d".toList 0] ∧
    ∃ out, renameAll Config.default.placeholder idRenames nestedBody = .ok out ∧
      Token.scan Config.default.placeholder out =
        .ok [.expr "v, default=\x7b\"a\":\x7b\"b\":\x7b\x7d\x7d".toList 0, .text "\x7d".toList] ∧
      ¬ Yields idRenames [.expr "v, default=\x7b\"a\":\x7b\"b\":\x7b\x7d\x7d\x7d".toList 0]
        (Token.scan Config.default.placeholder out) := by
  have hagain : Token.scan Config.default.placeholder
      "\x7b\x7bv, default=\x7b\"a\":\x7b\"b\":\x7b\\\x7d\x7d\x7d\x7d\x7d".toList =
      .ok [.expr "v, default=\x7b\"a\":\x7b\"b\":\x7b\x7d\x7d".toList 0, .text "\x7d".toList] := by decide
  refine ⟨rfl, by decide, _, by decide, hagain, ?_⟩
  rintro ⟨tokens, hscan, hall⟩
  obtain rfl := Except.ok.inj (hagain.symm.trans hscan)
  exact absurd hall.length_eq (by decide)

end Placeholder

end DynamicSql
