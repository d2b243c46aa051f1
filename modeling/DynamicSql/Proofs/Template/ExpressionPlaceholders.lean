import Mathlib
import DynamicSql.Proofs.Expr.Closing
import DynamicSql.Proofs.Template.Attributes
import DynamicSql.Proofs.Template.PathPlaceholders

/-!
Expressions as placeholders: in parentheses, with attributes behind them. The content is cut at its commas without
notice of backslashes, so a literal must not hold the quote that it stands in. Main statement: every other expression
is read as itself, with the attributes that are written, and is renamed as it would be alone.
-/
namespace DynamicSql.Placeholder

open DynamicSql.Expr (Opened escapesQuote)
open DynamicSql.Expr.Opened (nothing)

/-! What is open in an expression, and the level of its characters. -/

section

variable {o o' : Opened} {c : Char} {s r e : Text} {x : Expression}

/-- The level of a character inside one more pair of parentheses. -/
def levelOf (o : Opened) : Level where
  depth := o.depth + 1
  quote := match o.quoting with
    | .outside => none
    | .inside q | .escaped q => some q

theorem separates_levelOf (o : Opened) (c : Char) : (levelOf o).separates c = false := by
  simp [levelOf, Level.separates]

/-- A backslash makes a difference before the quote only. -/
theorem next_levelOf (ho : o.Plain) (hc : o.next? c = some o') (hk : ∀ q, o.quoting = .escaped q → c ≠ q) :
    (levelOf o).next c = levelOf o' := by
  obtain ⟨d, m⟩ := o
  cases m with
  | escaped q =>
    cases hc
    simp [levelOf, Level.next, hk q rfl]
  | inside q =>
    cases hc
    have hq : q ≠ '\\' := by
      rintro rfl
      exact absurd (ho '\\' (.inl rfl)) (by decide)
    by_cases hb : c = '\\'
    · simp [levelOf, Level.next, hb, Ne.symm hq]
    by_cases hcq : c = q <;> simp [levelOf, Level.next, hcq, hb, hq]
  | outside =>
    simp only [Opened.next?, Opened.deeper] at hc
    simp only [levelOf, Level.next]
    grind

theorem escapesQuote_cons (hc : o.next? c = some o') (h : escapesQuote o.quoting (c :: s) = false) :
    (∀ q, o.quoting = .escaped q → c ≠ q) ∧ escapesQuote o'.quoting s = false := by
  obtain ⟨d, m⟩ := o
  cases m with
  | escaped q =>
    cases hc
    simpa [escapesQuote] using h
  | inside q =>
    cases hc
    exact ⟨by simp, by simpa [escapesQuote] using h⟩
  | outside =>
    refine ⟨by simp, ?_⟩
    simp only [Opened.next?, Opened.deeper] at hc
    simp only [escapesQuote] at h
    grind

/-- As long as no quote is escaped, splitting and the depth check agree on quotes and parentheses. -/
theorem pass_levelOf (ho : o.Plain) (hs : o.pass? s = some o') (hk : escapesQuote o.quoting s = false) :
    (levelOf o).pass s = some (levelOf o') := by
  induction s generalizing o with
  | nil =>
    cases hs
    rfl
  | cons c s ih =>
    obtain ⟨mid, hc, hs⟩ := Option.bind_eq_some_iff.mp hs
    obtain ⟨hquote, hrest⟩ := escapesQuote_cons hc hk
    rw [Level.pass, separates_levelOf, if_neg Bool.false_ne_true, next_levelOf ho hc hquote]
    exact ih (ho.next hc) hs hrest

/-- An expression in parentheses is closed for the cutting too, when no literal holds the quote it stands in. -/
theorem pass_parentheses (hx : Expression.parse e = .ok x) (hk : escapesQuote .outside e = false) :
    Level.pass .top ('(' :: (e ++ [')'])) = some .top := by
  obtain ⟨hparse, -⟩ := Expression.parse_eq_ok_iff.mp hx
  obtain ⟨tree, hd, -⟩ := Expr.parse_eq_ok_iff_denotes.mp hparse
  have hopen : Level.pass .top ('(' :: (e ++ [')'])) = Level.pass (levelOf nothing) (e ++ [')']) := rfl
  rw [hopen, Level.pass_append, pass_levelOf Opened.plain_nothing hd.pass?_eq hk]
  rfl

end

/-! The whole content. -/

variable {e : Text} {parts : List Text} {ds : List Attribute} {x : Expression}

def contentOf (e : Text) (parts : List Text) : Text :=
  '(' :: (e ++ ')' :: parts.flatMap fun part => ',' :: ' ' :: part)

theorem contentOf_eq (e : Text) (parts : List Text) :
    contentOf e parts = '(' :: (e ++ [')']) ++ parts.flatMap fun part => ',' :: ' ' :: part := by
  simp [contentOf]

/-- No comma of the expression in parentheses separates, and nothing is open behind it if attributes follow. -/
def Separable (e : Text) (parts : List Text) : Prop :=
  ∃ l, Level.pass .top ('(' :: (e ++ [')'])) = some l ∧ (parts ≠ [] → l = .top)

/-- An expression without escaped quotes is not cut by its own commas. -/
theorem separable_of_escapesQuote (hx : Expression.parse e = .ok x) (hk : escapesQuote .outside e = false) :
    Separable e parts := ⟨.top, pass_parentheses hx hk, fun _ => rfl⟩

/-- An expression that is separable is split from its attributes. -/
theorem Separable.split_eq (hs : Separable e parts) (h : List.Forall₂ Declares parts ds) :
    split (contentOf e parts) = ('(' :: (e ++ [')']), parts.map (' ' :: ·)) := by
  obtain ⟨l, hp, hl⟩ := hs
  rw [split, contentOf_eq, splitFrom_append hp]
  cases h with
  | nil => simp [splitFrom]
  | cons hpart hrest =>
    obtain rfl := hl (List.cons_ne_nil _ _)
    rw [splitFrom_parts (.cons hpart hrest), List.append_nil]

/-- A content that is cut behind the closing parenthesis is read as the expression and its attributes. -/
theorem Separable.parse_eq (hs : Separable e parts) (hx : Expression.parse e = .ok x)
    (h : List.Forall₂ Declares parts ds) (offset : Nat) (span : Text) :
    parse (contentOf e parts) offset span = .ok ⟨.expr x, ds.foldl Attribute.set {}⟩ := by
  have hblank : List.Forall₂ Declares (parts.map (' ' :: ·)) ds :=
    List.forall₂_map_left_iff.mpr (h.imp fun _ _ hpart => hpart.blank)
  rw [parse_eq_ok_iff, hs.split_eq h, (trimmed_parentheses e).trim_eq]
  refine ⟨List.cons_ne_nil _ _, ?_, readAttributes_eq hblank {}⟩
  simp [readTarget, enclosed?_parentheses, hx, Except.map]

/-- What can be read can be renamed. -/
theorem exists_renameRoots (hx : Expression.parse e = .ok x) (renames : Renames) :
    ∃ r, Expr.renameRoots e renames = .ok r := by
  obtain ⟨hparse, -⟩ := Expression.parse_eq_ok_iff.mp hx
  obtain ⟨tree, hd, hdepth, -⟩ := Expr.parse_eq_ok_iff_denotes.mp hparse
  have htree : Expr.parseTree e = .ok tree := Expr.parseTree_eq_ok_iff_derived.mpr ⟨hd, hdepth⟩
  simp only [Expr.renameRoots, htree]
  split <;> exact ⟨_, rfl⟩

/-- The attributes are left as they are; only the expression is renamed. -/
theorem Separable.rename?_eq (hs : Separable e parts) (h : List.Forall₂ Declares parts ds) (renames : Renames) :
    rename? (contentOf e parts) renames =
      (Expr.renameRoots e renames).map (Option.map fun renamed => contentOf renamed parts) := by
  have hbefore : (('(' :: (e ++ [')'])).takeWhile Text.isBlank).length = 0 := rfl
  rw [rename?, hs.split_eq h]
  simp only [(trimmed_parentheses e).trim_eq, enclosed?_parentheses, hbefore]
  rcases Expr.renameRoots e renames with f | (_ | renamed)
  · rfl
  · rfl
  · simp [Except.map, contentOf, Nat.add_comm 1]

/-! A content that is cut elsewhere. -/

/-- A head is enclosed by its first and last character. -/
theorem enclosed?_eq_some_iff {head inside : Text} :
    enclosed? head = some inside ↔ head = '(' :: (inside ++ [')']) := by
  constructor
  · intro h
    unfold enclosed? at h
    split at h
    · next r =>
      split at h
      · next hlast =>
        cases h
        rw [List.dropLast_append_getLast?]
        exact hlast
      · cases h
    · cases h
  · rintro rfl
    exact enclosed?_parentheses inside

theorem readTarget_eq_expr_iff {head : Text} : readTarget head = .ok (.expr x) ↔
    ∃ inside, head = '(' :: (inside ++ [')']) ∧ Expression.parse inside = .ok x := by
  simp only [← enclosed?_eq_some_iff, readTarget]
  cases enclosed? head with
  | none => simp
  | some inside => cases h : Expression.parse inside <;> simp [h, Except.map]

theorem count_trim (s : Text) : (Text.trim s).count ',' = s.count ',' := by
  obtain ⟨before, after, hs, hb, ha⟩ := Text.exists_trim s
  have hblank : ∀ v : Text, (∀ c ∈ v, Text.isBlank c = true) → v.count ',' = 0 := by
    intro v hv
    exact List.count_eq_zero.mpr fun hm => absurd (hv ',' hm) (by decide)
  conv_rhs => rw [hs]
  simp [hblank before hb, hblank after ha]

/-- Cut at a comma of its own, the expression is no longer whole. -/
theorem exists_pass_of_target {offset : Nat} {span rest : Text} {p : Placeholder} (hx : Expression.parse e = .ok x)
    (hp : parse ('(' :: (e ++ [')']) ++ rest) offset span = .ok p) (ht : p.target = .expr x) :
    ∃ l, Level.pass .top ('(' :: (e ++ [')'])) = some l := by
  obtain ⟨-, htarget, -⟩ := parse_eq_ok_iff.mp hp
  rw [ht, readTarget_eq_expr_iff] at htarget
  obtain ⟨inside, htrim, hinside⟩ := htarget
  have hsource : Text.trim inside = Text.trim e :=
    (Expression.parse_eq_ok_iff.mp hinside).2.symm.trans (Expression.parse_eq_ok_iff.mp hx).2
  have hcount : (split ('(' :: (e ++ [')']) ++ rest)).1.count ',' = e.count ',' := by
    rw [← count_trim, htrim, ← count_trim e, ← hsource, count_trim]
    simp
  obtain ⟨l', behind, hpass, hcontent, -, hcomma⟩ := exists_pass .top ('(' :: (e ++ [')']) ++ rest)
  rw [← split] at hpass hcontent
  rcases List.append_eq_append_iff.mp hcontent with ⟨w, hw, -⟩ | ⟨w, hw, hbehind⟩
  · rw [hw, Level.pass_append, Option.bind_eq_some_iff] at hpass
    obtain ⟨l, hl, -⟩ := hpass
    exact ⟨l, hl⟩
  · cases w with
    | nil =>
      rw [List.append_nil] at hw
      exact ⟨l', hw ▸ hpass⟩
    | cons c w =>
      obtain rfl : c = ',' := hcomma c (by simp [hbehind])
      have hmore := congrArg (List.count ',') hw
      simp only [List.count_append, List.count_cons, hcount] at hmore
      simp at hmore

/-- Behind the sign of the first attribute there is no parenthesis, so the content does not end in one. -/
theorem exists_trim_contentOf (h : List.Forall₂ Declares parts ds) (hne : parts ≠ []) :
    ∃ s r, Text.trim (contentOf e parts) = s ++ '=' :: r ∧ ')' ∉ r := by
  cases h with
  | nil => exact absurd rfl hne
  | @cons part d parts ds hpart hrest =>
    obtain @⟨name, value, _, -, -, hplain⟩ := hpart
    have hcontent : contentOf e ((name ++ '=' :: value) :: parts) = '(' :: (e ++ ')' :: ',' :: ' ' :: name) ++
        '=' :: (value ++ parts.flatMap fun part => ',' :: ' ' :: part) := by simp [contentOf]
    refine ⟨_, _, by rw [hcontent, Text.trim_append_cons (by decide)], fun hm => ?_⟩
    have hmem := (List.rdropWhile_prefix Text.isBlank _).subset hm
    rcases List.mem_append.mp hmem with hm | hm
    · exact hplain ')' hm (by decide)
    · exact parts_plain hrest ')' hm (by decide)

/-- A content that is cut elsewhere is not read as the expression. -/
theorem separable_of_parse {offset : Nat} {span : Text} {p : Placeholder} (hx : Expression.parse e = .ok x)
    (h : List.Forall₂ Declares parts ds) (hp : parse (contentOf e parts) offset span = .ok p)
    (ht : p.target = .expr x) : Separable e parts := by
  obtain ⟨l, hl⟩ := exists_pass_of_target hx (contentOf_eq e parts ▸ hp) ht
  refine ⟨l, hl, fun hne => ?_⟩
  by_contra htop
  -- What is open takes in the attributes, and no parenthesis is at the end.
  have hplain : l.Plain := Level.Plain.pass (by simp [Level.Plain, Level.top]) hl
  have hsplit : split (contentOf e parts) = (contentOf e parts, []) := by
    refine split_of_pass (l := l) ?_
    rw [contentOf_eq, Level.pass_append, hl, Option.bind_some, Level.pass_open hplain htop (parts_plain h)]
  obtain ⟨-, htarget, -⟩ := parse_eq_ok_iff.mp hp
  rw [ht, hsplit, readTarget_eq_expr_iff] at htarget
  obtain ⟨inside, htrim, -⟩ := htarget
  obtain ⟨s, r, hend, hr⟩ := exists_trim_contentOf h hne (e := e)
  have hlast := congrArg List.getLast? (htrim.symm.trans hend)
  rw [← List.cons_append, List.getLast?_concat, List.getLast?_append, List.getLast?_cons, Option.some_or] at hlast
  cases hc : r.getLast? with
  | none => simp [hc] at hlast
  | some c =>
    obtain rfl : c = ')' := by simpa [hc, eq_comm] using hlast
    exact hr (List.mem_of_getLast? hc)

/--
An expression in parentheses is read as itself, with the attributes that are written behind it, exactly when it
separates nothing and closes what it opens; then it is renamed as it would be alone. It does so when no literal and
no key in it holds the quote that it stands in.
-/
theorem parse_expression_iff (hx : Expression.parse e = .ok x) (h : List.Forall₂ Declares parts ds) :
    ((∀ offset span, parse (contentOf e parts) offset span = .ok ⟨.expr x, ds.foldl Attribute.set {}⟩) ↔
      Separable e parts) ∧
    (Separable e parts → ∀ renames, ∃ r, Expr.renameRoots e renames = .ok r ∧
      rename? (contentOf e parts) renames = .ok (r.map fun renamed => contentOf renamed parts)) ∧
    (escapesQuote .outside e = false → Separable e parts) := by
  refine ⟨⟨fun hp => separable_of_parse hx h (hp 0 []) rfl, fun hs => hs.parse_eq hx h⟩, fun hs renames => ?_,
    separable_of_escapesQuote hx⟩
  obtain ⟨r, hr⟩ := exists_renameRoots hx renames
  exact ⟨r, hr, by rw [hs.rename?_eq h, hr, Except.map]⟩

/-! A test of the user that an iteration is at, and a word with an apostrophe. -/

def noted : Text := "u.note == \"it's (a, b\" or u['k)'] != 1".toList

def notedExpression : Expression where
  source := noted
  expr := .or [.compare .eq (.path "u.note".toList) (.literal (.text "it's (a, b".toList)),
    .compare .ne (.path "u.k)".toList) (.literal (.int 1))]

def notedRenamed : Text := "__frch_u_0.note == \"it's (a, b\" or __frch_u_0['k)'] != 1".toList

def notedParts : List Text := ["type=bool".toList, " default = FALSE ".toList]

/-- A comma, a parenthesis and the other quote belong to the literal or the key that they are in. -/
theorem noted_read :
    Expression.parse noted = .ok notedExpression ∧ escapesQuote .outside noted = false ∧
    List.Forall₂ Declares notedParts [.type .bool, .default (.text "FALSE".toList)] ∧
    parse (contentOf noted notedParts) 0 [] =
      .ok ⟨.expr notedExpression, { type := some .bool, default := some (.text "FALSE".toList) }⟩ ∧
    rename? (contentOf noted notedParts) [("u".toList, "__frch_u_0".toList)] =
      .ok (some (contentOf notedRenamed notedParts)) := by
  have hx : Expression.parse noted = .ok notedExpression := by cbv
  have hk : escapesQuote .outside noted = false := by decide
  have htype : Declares "type=bool".toList (.type .bool) :=
    @Declares.mk "type".toList "bool".toList _ (by decide) ⟨"bool", by decide, by decide⟩ (by simp)
  have hdefault : Declares " default = FALSE ".toList (.default (.text "FALSE".toList)) :=
    @Declares.mk " default ".toList " FALSE ".toList _ (by decide) rfl (by simp)
  have hparts : List.Forall₂ Declares notedParts [.type .bool, .default (.text "FALSE".toList)] :=
    .cons htype (.cons hdefault .nil)
  have hrenamed : Expr.renameRoots noted [("u".toList, "__frch_u_0".toList)] = .ok (some notedRenamed) := by
    decide +kernel
  obtain ⟨hread, hrename, hseparable⟩ := parse_expression_iff hx hparts
  have hs := hseparable hk
  obtain ⟨r, hr, hout⟩ := hrename hs [("u".toList, "__frch_u_0".toList)]
  obtain rfl : r = some notedRenamed := Except.ok.inj (hr.symm.trans hrenamed)
  exact ⟨hx, hk, hparts, hread.mpr hs 0 [], hout⟩

/-- The escaped quote closes the literal for the cutting, and the next one opens another that takes in the attribute. -/
theorem apostrophe_unread :
    Expression.parse "'it\\'s'".toList = .ok ⟨"'it\\'s'".toList, .literal (.text "it's".toList)⟩ ∧
    Declares "type=string".toList (.type .text) ∧
    parse (contentOf "'it\\'s'".toList ["type=string".toList]) 0 [] =
      .ok ⟨.path "('it\\'s'), type=string".toList, {}⟩ := by
  refine ⟨by cbv, ?_, rfl⟩
  exact @Declares.mk "type".toList "string".toList _ (by decide) ⟨"string", by decide, by decide⟩ (by simp)

end DynamicSql.Placeholder
