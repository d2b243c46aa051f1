import DynamicSql.Proofs.Template.Occurrences

/-!
What the tokens are of a text, for delimiters without a backslash. Main statement: a scan succeeds with just the
tokens that tile the text from its first to its last byte, and fails just where the tokens tile it up to an
opener that no backslash escapes and that has no closer; that opener is the one the fault is about.
-/
namespace DynamicSql.Token

variable {d : Delimiters} {closing u v w r s rest raw content : Text} {offset : Nat} {pending : Text}
  {tokens : List Token}

/--
What stands between an opener and its closer, which `rest` follows, and the content that it stands for. Closers
are taken from the left: the first that no backslash stands before is the closer, and of each one passed over
that backslash is left out.
-/
inductive Raw (closing rest : Text) : Text → Text → Prop where
  | last {u : Text} : Clear closing u (closing ++ rest) → endsInEscape u = false → Raw closing rest u u
  | escaped {u raw content : Text} : Clear closing (u ++ [escape]) (closing ++ (raw ++ (closing ++ rest))) →
      Raw closing rest raw content → Raw closing rest (u ++ escape :: (closing ++ raw)) (u ++ (closing ++ content))

def Closes (closing s : Text) : Prop :=
  ∃ raw content rest, s = raw ++ (closing ++ rest) ∧ Raw closing rest raw content

/-- What may stand behind a text: no other text, and no expression where a backslash is last in the text. -/
def Behind (u : Text) : List Token → Prop
  | [] | .escaped :: _ => True
  | .text _ :: _ => False
  | .expr _ _ :: _ => endsInEscape u = false

/-- The text that begins at the byte offset, and that `rest` follows, is the slices of the tokens in their order. -/
inductive Tiles (d : Delimiters) (rest : Text) : Nat → Text → List Token → Prop where
  | nil {offset : Nat} : Tiles d rest offset [] []
  | text {offset : Nat} {u s : Text} {tokens : List Token} : u ≠ [] → Clear d.opening u (s ++ rest) →
      Behind u tokens → Tiles d rest (offset + Text.byteLength u) s tokens →
      Tiles d rest offset (u ++ s) (.text u :: tokens)
  | escaped {offset : Nat} {s : Text} {tokens : List Token} :
      Tiles d rest (offset + Text.byteLength (escape :: d.opening)) s tokens →
      Tiles d rest offset (escape :: (d.opening ++ s)) (.escaped :: tokens)
  | expr {offset : Nat} {raw content s : Text} {tokens : List Token} : Raw d.closing (s ++ rest) raw content →
      Tiles d rest (offset + Text.byteLength (d.opening ++ (raw ++ d.closing))) s tokens →
      Tiles d rest offset (d.opening ++ (raw ++ (d.closing ++ s))) (.expr content offset :: tokens)

/-- Behind the text `u`, which the tokens tile, there is an opener without a closer. -/
structure Stray (d : Delimiters) (offset : Nat) (s u r : Text) : Prop where
  split : s = u ++ (d.opening ++ r)
  tiled : ∃ tokens, Tiles d (d.opening ++ r) offset u tokens
  unescaped : endsInEscape u = false
  unclosed : ¬ Closes d.closing r

/-! Contents. -/

theorem Raw.shorten (h : Raw closing rest raw content) (hp : s <+: rest) : Raw closing s raw content := by
  induction h with
  | last hclear hend => exact .last (hclear.shorten (by simpa using hp)) hend
  | escaped hclear _ ih => exact .escaped (hclear.shorten (by simpa using hp)) ih

/-- A raw content is read up to its closer. -/
theorem Raw.content_eq (h : Raw closing rest raw content) (hc : closing ≠ []) (he : escape ∉ closing) :
    Token.content closing 0 (raw ++ (closing ++ rest)) = .closed content (raw.length + closing.length) := by
  induction h with
  | last hclear hend => exact content_closed hc hclear hend
  | @escaped u raw content hclear _ ih =>
    have hover : ¬ (endsInEscape closing = true ∧ closing <+: raw ++ (closing ++ rest)) := by
      simp [endsInEscape_of_not_mem he]
    simp only [List.append_assoc, List.cons_append]
    rw [content_escaped hclear, if_neg hover, ih, Content.cons, List.append_assoc]
    simp only [List.length_append, List.length_cons, Content.closed.injEq, true_and]
    omega

theorem closes_or_unclosed (hc : closing ≠ []) (s : Text) (he : escape ∉ closing) :
    Closes closing s ∨ Token.content closing 0 s = .unclosed := by
  induction s using first_induction closing with
  | clear s hclear => exact .inr (content_unclosed hc hclear)
  | escaped u r hclear ih =>
    cases ih with
    | inl hcloses =>
      obtain ⟨raw, content, rest, rfl, hraw⟩ := hcloses
      exact .inl ⟨_, _, rest, by simp, .escaped hclear hraw⟩
    | inr hunclosed =>
      rw [content_escaped hclear, hunclosed]
      exact .inr (by simp [endsInEscape_of_not_mem he, Content.cons])
  | first u r hclear hend => exact .inl ⟨u, u, r, rfl, .last hclear hend⟩

/-- A content is unclosed exactly when nothing closes it. -/
theorem content_eq_unclosed_iff (hc : closing ≠ []) (he : escape ∉ closing) :
    Token.content closing 0 s = .unclosed ↔ ¬ Closes closing s := by
  constructor
  · rintro h ⟨raw, content, rest, rfl, hraw⟩
    rw [hraw.content_eq hc he] at h
    cases h
  · exact (closes_or_unclosed hc s he).resolve_left

/-! Tilings. -/

namespace Tiles

/-- A tiling of a text is one of it alone. -/
theorem alone (h : Tiles d rest offset s tokens) : Tiles d [] offset s tokens := by
  induction h with
  | nil => exact .nil
  | text hne hclear hbehind _ ih => exact .text hne (hclear.shorten (by simp)) hbehind ih
  | escaped _ ih => exact .escaped ih
  | expr hraw _ ih => exact .expr (hraw.shorten (by simp)) ih

/-- A stretch without an opener, in front of tokens that may stand behind it. -/
theorem flush (hclear : Clear d.opening u (s ++ rest)) (h : Tiles d rest (offset + Text.byteLength u) s tokens)
    (hbehind : Behind u tokens) : Tiles d rest offset (u ++ s) (Token.flush u.reverse tokens) := by
  by_cases hu : u = []
  · subst hu
    exact h
  · rw [flush_reverse hu]
    exact .text hu hclear hbehind h

/-- Without openers the text is one tile. -/
theorem of_clear (h : Clear d.opening u rest) : Tiles d rest offset u (Token.flush u.reverse []) := by
  have htiles : Tiles d rest offset (u ++ []) (Token.flush u.reverse []) := flush h .nil trivial
  rwa [List.append_nil] at htiles

end Tiles

theorem endsInEscape_behind (v : Text) (hw : w ≠ []) (he : escape ∉ w) (h : endsInEscape u = false) :
    endsInEscape (v ++ (w ++ u)) = false := by
  rw [endsInEscape_append v (by simp [hw])]
  by_cases hu : u = []
  · subst hu
    rw [List.append_nil]
    exact endsInEscape_of_not_mem he
  · rw [endsInEscape_append w hu, h]

/-- The tokens tile the whole text, or they tile it up to an opener without a closer. -/
def Settled (d : Delimiters) (offset : Nat) (s : Text) : Prop :=
  (∃ tokens, Tiles d [] offset s tokens) ∨ ∃ u r, Stray d offset s u r

/-- What can stand in front of every tiling that reaches as far as the text does. -/
theorem Settled.behind (h : Settled d (offset + Text.byteLength v) s)
    (hend : ∀ u, endsInEscape u = false → endsInEscape (v ++ u) = false)
    (hfront : ∀ rest u tokens, u ++ rest = s → Tiles d rest (offset + Text.byteLength v) u tokens →
      ∃ tokens, Tiles d rest offset (v ++ u) tokens) : Settled d offset (v ++ s) := by
  rcases h with ⟨tokens, htiles⟩ | ⟨u, r, rfl, ⟨tokens, htiles⟩, hunescaped, hunclosed⟩
  · exact .inl (hfront [] s tokens (List.append_nil s) htiles)
  · exact .inr ⟨v ++ u, r, by simp, hfront _ u tokens rfl htiles, hend u hunescaped, hunclosed⟩

/-- An escaped opener is a tile behind the text before it. -/
theorem Settled.escaped (h : Settled d (offset + Text.byteLength (v ++ escape :: d.opening)) s)
    (ho : d.opening ≠ []) (heo : escape ∉ d.opening) (hclear : Clear d.opening v (escape :: (d.opening ++ s))) :
    Settled d offset (v ++ escape :: (d.opening ++ s)) := by
  have hsplit : v ++ escape :: (d.opening ++ s) = (v ++ escape :: d.opening) ++ s := by simp
  rw [hsplit]
  refine h.behind (fun u hu => ?_) fun rest u tokens hs htiles => ?_
  · simpa using endsInEscape_behind (v ++ [escape]) ho heo hu
  · rw [Text.byteLength_append, ← Nat.add_assoc] at htiles
    have hbehind : Behind v (.escaped :: tokens) := trivial
    exact ⟨_, by simpa using Tiles.flush (by simpa [hs] using hclear) (.escaped htiles) hbehind⟩

theorem Settled.expr (h : Settled d (offset + Text.byteLength (u ++ (d.opening ++ (raw ++ d.closing)))) s)
    (hc : d.closing ≠ []) (hec : escape ∉ d.closing)
    (hclear : Clear d.opening u (d.opening ++ (raw ++ (d.closing ++ s)))) (hend : endsInEscape u = false)
    (hraw : Raw d.closing s raw content) : Settled d offset (u ++ (d.opening ++ (raw ++ (d.closing ++ s)))) := by
  have hsplit : u ++ (d.opening ++ (raw ++ (d.closing ++ s))) = (u ++ (d.opening ++ (raw ++ d.closing))) ++ s := by
    simp
  rw [hsplit]
  refine h.behind (fun v hv => ?_) fun rest v tokens hs htiles => ?_
  · simpa using endsInEscape_behind (u ++ (d.opening ++ raw)) hc hec hv
  · rw [Text.byteLength_append, ← Nat.add_assoc] at htiles
    have hbehind : Behind u (.expr content (offset + Text.byteLength u) :: tokens) := hend
    exact ⟨_, by simpa using Tiles.flush (by simpa [hs] using hclear) (.expr (hs.symm ▸ hraw) htiles) hbehind⟩

/-- Every text is tiled, or has an opener that nothing closes. -/
theorem settled (ho : d.opening ≠ []) (hc : d.closing ≠ []) (heo : escape ∉ d.opening)
    (hec : escape ∉ d.closing) (offset : Nat) (s : Text) : Settled d offset s := by
  -- A delimiter is passed over as a whole, so the induction is on the length.
  induction hn : s.length using Nat.strongRecOn generalizing offset s with
  | _ n ih =>
    subst hn
    have hpos : 0 < d.opening.length := List.length_pos_iff.mpr ho
    rcases first_cases d.opening s with hclear | ⟨u, r, rfl, hclear⟩ | ⟨u, r, rfl, hclear, hend⟩
    · exact .inl ⟨_, .of_clear hclear⟩
    · have hshort : r.length < (u ++ escape :: (d.opening ++ r)).length := by
        simp only [List.length_append, List.length_cons]
        omega
      exact (ih r.length hshort _ r rfl).escaped ho heo (clear_concat.mp hclear).1
    · by_cases hcloses : Closes d.closing r
      · obtain ⟨raw, content, rest, rfl, hraw⟩ := hcloses
        have hshort : rest.length < (u ++ (d.opening ++ (raw ++ (d.closing ++ rest)))).length := by
          simp only [List.length_append]
          omega
        exact (ih rest.length hshort _ rest rfl).expr hc hec hclear hend hraw
      · exact .inr ⟨u, r, rfl, ⟨_, .of_clear hclear⟩, hend, hcloses⟩

theorem not_opening_escape (ho : d.opening ≠ []) (heo : escape ∉ d.opening) (s : Text) :
    ¬ d.opening <+: escape :: s := by
  obtain ⟨c, o, hco⟩ := List.exists_cons_of_ne_nil ho
  rw [hco, List.cons_prefix_cons]
  exact fun hp => heo (by simp [hco, hp.1])

/-- Where the next token is no text, the pending text becomes one in front of it. -/
theorem scanFrom_pending (ho : d.opening ≠ []) (heo : escape ∉ d.opening)
    (h : s = [] ∨ d.opening <+: s ∨ escape :: d.opening <+: s) (offset : Nat) (pending : Text) :
    scanFrom d offset 0 false pending s = (scanFrom d offset 0 false [] s).map (flush pending) := by
  have hfresh : ∀ pending : Text, ¬ (false = true ∧ pending = []) := by simp
  rcases h with rfl | ⟨r, rfl⟩ | ⟨r, rfl⟩
  · rfl
  · rw [scanFrom_content ho (hfresh pending), scanFrom_content ho (hfresh [])]
    cases Token.content d.closing 0 r with
    | unclosed | overlapping => rfl
    | closed content n => exact (Except.map_map _ _ _).symm
  · have hopen := not_opening_escape ho heo (d.opening ++ r)
    rw [List.cons_append, scanFrom_escape hopen, scanFrom_escape hopen]
    exact (Except.map_map _ _ _).symm

/-- What may begin behind a text in front of a tiling. -/
theorem Tiles.begins (h : Tiles d rest offset s tokens) (ho : d.opening ≠ []) (heo : escape ∉ d.opening)
    (hrest : rest = [] ∨ d.opening <+: rest ∧ endsInEscape (u ++ s) = false) (hbehind : Behind u tokens) :
    (s ++ rest = [] ∨ d.opening <+: s ++ rest ∨ escape :: d.opening <+: s ++ rest) ∧
      ¬ (endsInEscape u = true ∧ d.opening <+: s ++ rest) := by
  cases h with
  | nil =>
    rw [List.append_nil] at hrest
    rcases hrest with rfl | ⟨hrest, hend⟩
    · exact ⟨.inl rfl, fun hp => ho (List.prefix_nil.mp hp.2)⟩
    · exact ⟨.inr (.inl hrest), by simp [hend]⟩
  | text => exact hbehind.elim
  | escaped => exact ⟨.inr (.inr (by simp)), fun hp => not_opening_escape ho heo _ hp.2⟩
  | expr =>
    have hend : endsInEscape u = false := hbehind
    exact ⟨.inr (.inl (by simp)), by simp [hend]⟩

/-- A text that tokens tile is scanned as these. -/
theorem Tiles.scanFrom_eq (h : Tiles d rest offset s tokens) (ho : d.opening ≠ []) (hc : d.closing ≠ [])
    (heo : escape ∉ d.opening) (hec : escape ∉ d.closing)
    (hrest : rest = [] ∨ d.opening <+: rest ∧ endsInEscape s = false) :
    scanFrom d offset 0 false [] (s ++ rest) =
      (scanFrom d (offset + Text.byteLength s) 0 false [] rest).map (tokens ++ ·) := by
  have hlast : ∀ {u v : Text}, endsInEscape (u ++ v) = false → endsInEscape v = false := by
    intro u v hend
    by_cases hv : v = []
    · rw [hv]
      rfl
    · rwa [endsInEscape_append u hv] at hend
  induction h with
  | nil =>
    rw [List.nil_append, Text.byteLength_nil, Nat.add_zero]
    cases scanFrom d _ 0 false [] rest <;> rfl
  | @text offset u s tokens hne hclear hbehind h ih =>
    obtain ⟨hnext, hend⟩ := h.begins ho heo hrest hbehind
    rw [List.append_assoc, scanFrom_clear hclear hend, Bool.false_and, List.append_nil,
      scanFrom_pending ho heo hnext, ih (hrest.imp_right (And.imp_right hlast)), Except.map_map, Text.byteLength_append,
      Nat.add_assoc]
    simp only [flush_reverse hne, List.cons_append]
  | @escaped offset s tokens h ih =>
    have hopen := not_opening_escape ho heo (d.opening ++ (s ++ rest))
    rw [List.cons_append, List.append_assoc, scanFrom_escape hopen, endsInEscape_of_not_mem heo,
      ih (hrest.imp_right (And.imp_right fun hend => hlast (u := escape :: d.opening) hend)), Except.map_map]
    simp [flush_nil, Nat.add_assoc]
  | @expr offset raw content s tokens hraw h ih =>
    have hfresh : ¬ (false = true ∧ ([] : Text) = []) := by simp
    have hclosed := hraw.content_eq hc hec
    rw [← List.append_assoc, ← List.length_append] at hclosed
    have hwhole : d.opening ++ (raw ++ (d.closing ++ s)) = (d.opening ++ (raw ++ d.closing)) ++ s := by simp
    rw [hwhole] at hrest
    have hrest' := hrest.imp_right (And.imp_right hlast)
    have hsplit : (d.opening ++ (raw ++ (d.closing ++ s))) ++ rest =
        d.opening ++ ((raw ++ d.closing) ++ (s ++ rest)) := by simp
    rw [hsplit, scanFrom_opening ho hfresh hclosed, List.take_left, List.drop_left, endsInEscape_of_not_mem hec,
      ih hrest', Except.map_map]
    simp [flush_nil, Nat.add_assoc]

/-- A scan finds the tiles. -/
theorem Tiles.scan_eq (h : Tiles d [] 0 s tokens) (ho : d.opening ≠ []) (hc : d.closing ≠ [])
    (heo : escape ∉ d.opening) (hec : escape ∉ d.closing) : scan d s = .ok tokens := by
  have hscan := h.scanFrom_eq ho hc heo hec (.inl rfl)
  rw [List.append_nil] at hscan
  rw [scan, if_neg (by simp [ho, hc]), hscan, scanFrom]
  simp [flush_nil, Except.map]

/-- A scan fails at the stray opener, with the text from there. -/
theorem Stray.scan_eq (h : Stray d 0 s u r) (ho : d.opening ≠ []) (hc : d.closing ≠ [])
    (heo : escape ∉ d.opening) (hec : escape ∉ d.closing) :
    scan d s = .error (.unterminated (Text.byteLength u) ((d.opening ++ r).take snippetLength)) := by
  obtain ⟨rfl, ⟨tokens, htiles⟩, hend, hunclosed⟩ := h
  have hfresh : ¬ (false = true ∧ ([] : Text) = []) := by simp
  rw [scan, if_neg (by simp [ho, hc]), htiles.scanFrom_eq ho hc heo hec (.inr ⟨List.prefix_append _ _, hend⟩),
    scanFrom_content ho hfresh, (content_eq_unclosed_iff hc hec).mpr hunclosed, Nat.zero_add]
  rfl

/--
A scan succeeds with just the tokens that tile the text. It fails just where there is an opener without a closer
behind a tiled text; then the fault is about that opener, and what is before the opener can be scanned.
-/
theorem ofText_tiles (ho : d.opening ≠ []) (hc : d.closing ≠ []) (heo : escape ∉ d.opening)
    (hec : escape ∉ d.closing) (s : Text) :
    (∀ tokens, ofText d s = .ok tokens ↔ Tiles d [] 0 s tokens) ∧
      ((∃ e, ofText d s = .error e) ↔ ∃ u r, Stray d 0 s u r) ∧
      ∀ u r, Stray d 0 s u r →
        (∃ f, ofText d s = .error (.fault f) ∧ f.code = .templateSyntax ∧ f.offset = some (Text.byteLength u) ∧
          f = d.unterminated (Text.byteLength u) ((d.opening ++ r).take snippetLength)) ∧
        ∃ tokens, ofText d u = .ok tokens := by
  have htiled : ∀ {t : Text} {tokens : List Token}, Tiles d [] 0 t tokens → ofText d t = .ok tokens :=
    fun h => ofText_eq_ok_iff.mpr (h.scan_eq ho hc heo hec)
  have hstray : ∀ {u r : Text}, Stray d 0 s u r → ofText d s =
      .error (.fault (d.unterminated (Text.byteLength u) ((d.opening ++ r).take snippetLength))) := by
    intro u r h
    rw [ofText, h.scan_eq ho hc heo hec]
    rfl
  refine ⟨fun tokens => ⟨fun h => ?_, htiled⟩, ⟨?_, ?_⟩, fun u r h => ⟨⟨_, hstray h, rfl, rfl, rfl⟩, ?_⟩⟩
  · rcases settled ho hc heo hec 0 s with ⟨tokens', htiles⟩ | ⟨u, r, hs⟩
    · obtain rfl := Except.ok.inj ((htiled htiles).symm.trans h)
      exact htiles
    · cases (hstray hs).symm.trans h
  · rintro ⟨e, h⟩
    refine (settled ho hc heo hec 0 s).resolve_left ?_
    rintro ⟨tokens, htiles⟩
    cases (htiled htiles).symm.trans h
  · rintro ⟨u, r, h⟩
    exact ⟨_, hstray h⟩
  · obtain ⟨tokens, htiles⟩ := h.tiled
    exact ⟨tokens, htiled htiles.alone⟩

/-! A word in two bytes a letter, before a splice with a closer in it and before one that is left open. -/

theorem greeting_tiles :
    Tiles Config.default.inlined [] 0 "дай $\x7ba\\\x7d\x7d\\$\x7b".toList
        [.text "дай ".toList, .expr "a\x7d".toList 7, .escaped] ∧
      ∃ u r, Stray Config.default.inlined 0 "дай $\x7ba\\\x7d".toList u r ∧ Text.byteLength u = 7 := by
  have ho : Config.default.inlined.opening ≠ [] := by decide
  have hc : Config.default.inlined.closing ≠ [] := by decide
  have heo : escape ∉ Config.default.inlined.opening := by decide
  have hec : escape ∉ Config.default.inlined.closing := by decide
  refine ⟨((ofText_tiles ho hc heo hec _).1 _).mp rfl, ?_⟩
  have hscan : scan Config.default.inlined "дай $\x7ba\\\x7d".toList =
      .error (.unterminated 7 "$\x7ba\\\x7d".toList) := by decide
  obtain ⟨-, hfails, hfault⟩ := ofText_tiles ho hc heo hec "дай $\x7ba\\\x7d".toList
  rw [ofText, hscan] at hfails hfault
  obtain ⟨u, r, h⟩ := hfails.mp ⟨_, rfl⟩
  obtain ⟨⟨f, hf, -, hoffset, -⟩, -⟩ := hfault u r h
  obtain rfl := Halt.fault.inj (Except.error.inj hf)
  exact ⟨u, r, h, (Option.some.inj hoffset).symm⟩

end DynamicSql.Token
