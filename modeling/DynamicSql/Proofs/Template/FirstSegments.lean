import DynamicSql.Proofs.Template.PathPlaceholders

/-!
The first segment of a path and the name that renaming looks for. Renaming compares the text at the start of a
content, and a lookup the segments between dots and brackets. Main statement: a path is renamed exactly when it
begins with a name that is its first segment, or that a colon or a blank ends within it, and then it is read as
the path in which the stand-in takes the place of that name.
-/
namespace DynamicSql

open DynamicSql.Expr (IsIdentifier)
open DynamicSql.Expr.Grammar (isNameChar)

namespace Path

variable {w more : Text} {c : Char}

theorem trim_word_append (hw : IsIdentifier w) (s : Text) : Text.trim (w ++ s) = w ++ Text.trimEnd s := by
  have hs : Text.trimEnd s ++ s.rtakeWhile Text.isBlank = s := List.rdropWhile_append_rtakeWhile
  have hword := trimmed_of_isNameChar hw.isNameChar
  have htrimmed : Text.Trimmed (w ++ Text.trimEnd s) := by
    refine ⟨fun c hc => hword.head c ?_, fun c hc => ?_⟩
    · obtain ⟨d, r, rfl⟩ := List.exists_cons_of_ne_nil hw.ne_nil
      exact hc
    · rw [List.getLast?_append, Option.mem_def, Option.or_eq_some_iff] at hc
      rcases hc with hc | ⟨-, hc⟩
      · obtain ⟨hne, rfl⟩ := List.mem_getLast?_eq_getLast hc
        exact Bool.not_eq_true _ ▸ List.rdropWhile_last_not Text.isBlank s hne
      · exact hword.last c hc
  have hblank : ∀ c ∈ s.rtakeWhile Text.isBlank, Text.isBlank c = true := fun c => List.mem_rtakeWhile_imp
  have htrim := Text.trim_append (List.forall_mem_nil _) hblank htrimmed (by simp [hw.ne_nil])
  rwa [List.nil_append, List.append_assoc, hs] at htrim

/-- A word at the start of a path stands at the start of its first segment, whatever word it is. -/
theorem segments_word_append (hw : IsIdentifier w) (more : Text) : segments (w ++ more) =
    (w ++ Text.trimEnd (more.takeWhile fun c => !isMark c)) :: segments (more.dropWhile fun c => !isMark c) := by
  have hfirst : ∀ u : Text, (∀ c ∈ u, isMark c = false) → segments (w ++ u) = [w ++ Text.trimEnd u] := by
    intro u hu
    have hmark : ∀ c ∈ w ++ u, isMark c = false :=
      List.forall_mem_append.mpr ⟨fun c hc => isMark_of_isNameChar (hw.isNameChar c hc), hu⟩
    simp [segments, Text.pieces_of_not_mark hmark, trim_word_append hw, hw.ne_nil]
  have htake : ∀ c ∈ more.takeWhile fun c => !isMark c, isMark c = false := fun c hc => by
    simpa using List.mem_takeWhile_imp hc
  have hall := List.takeWhile_append_dropWhile (p := fun c => !isMark c) (l := more)
  cases hv : more.dropWhile fun c => !isMark c with
  | nil =>
    rw [hv, List.append_nil] at hall
    rw [hall] at htake ⊢
    rw [hfirst more htake]
    rfl
  | cons c v =>
    have hc : isMark c = true := by simpa [hv] using List.head?_dropWhile_not (fun c => !isMark c) more
    rw [hv] at hall
    rw [Expr.segments_mark hc, ← List.singleton_append, ← hfirst _ htake, ← segments_append_mark hc,
      List.append_assoc, hall]

/-- The path begins with the name. The name is its first segment, or a colon or a blank ends the name within that
segment; no closing bracket is directly behind the name. -/
structure Leads (name path : Text) : Prop where
  begins : name <+: path
  first : ∃ more rest, segments path = (name ++ more) :: rest ∧ ∀ c ∈ more.head?, c = ':' ∨ Text.isBlank c = true
  unbracketed : ¬ name ++ [']'] <+: path

/-- A name ends there that leads a path. -/
def Ends (more : Text) : Prop := ∀ c ∈ more.head?, c = '.' ∨ c = '[' ∨ c = ':' ∨ Text.isBlank c = true

/-- A name leads when what follows ends it. -/
theorem leads_append_iff (hw : IsIdentifier w) : Leads w (w ++ more) ↔ Ends more := by
  have hsegments := segments_word_append hw more
  constructor
  · rintro ⟨-, ⟨first, rest, hfirst, hhead⟩, hbracket⟩ c hc
    obtain ⟨m, rfl⟩ := List.head?_eq_some_iff.mp hc
    by_cases hmark : isMark c = true
    · simp only [isMark, Bool.or_eq_true, decide_eq_true_eq] at hmark
      rcases hmark with (rfl | rfl) | rfl
      · exact .inl rfl
      · exact .inr (.inl rfl)
      · exact absurd (List.prefix_append_right_inj w |>.mpr ⟨m, rfl⟩) hbracket
    cases hblank : Text.isBlank c with
    | true => exact .inr (.inr (.inr rfl))
    | false =>
      -- What is left of the first segment begins with that character.
      have hend := Text.trimEnd_append_cons hblank [] (m.takeWhile fun c => !isMark c)
      rw [List.nil_append] at hend
      rw [hfirst, List.takeWhile_cons_of_pos (by simpa using hmark), hend] at hsegments
      obtain rfl := List.append_cancel_left (List.cons.inj hsegments).1
      have := hhead c rfl
      simp [hblank] at this
      exact .inr (.inr (.inl this))
  · intro hends
    refine ⟨List.prefix_append w more, ⟨_, _, hsegments, fun c hc => ?_⟩, fun hp => ?_⟩
    · obtain ⟨m, hm⟩ := List.head?_eq_some_iff.mp hc
      have hp : c :: m <+: more.takeWhile fun c => !isMark c := hm ▸ List.rdropWhile_prefix Text.isBlank _
      have hmark : isMark c = false := by simpa using List.mem_takeWhile_imp (hp.subset List.mem_cons_self)
      obtain ⟨n, rfl⟩ := hp.trans (List.takeWhile_prefix _)
      rcases hends c rfl with rfl | rfl | hc
      · cases hmark
      · cases hmark
      · exact hc
    · obtain ⟨m, rfl⟩ := (List.prefix_append_right_inj w).mp hp
      have := hends ']' rfl
      revert this
      decide

theorem Ends.endsWord (h : Ends more) : Expr.EndsWord more := by
  have hmarks : ['.', '[', ':'].any isNameChar = false := by decide
  intro c hc
  by_contra hname
  rw [Bool.not_eq_false] at hname
  have hends : c ∈ ['.', '[', ':'] ∨ Text.isBlank c = true := by simpa [or_assoc] using h c hc
  rcases hends with hmark | hblank
  · exact List.any_eq_false.mp hmarks c hmark hname
  · simp [isBlank_of_isNameChar hname] at hblank

theorem Leads.unique {a b path : Text} (ha : IsIdentifier a) (hb : IsIdentifier b) (h : Leads a path)
    (h' : Leads b path) : a = b := by
  obtain ⟨x, rfl⟩ := h.begins
  obtain ⟨y, hy⟩ := h'.begins
  rw [leads_append_iff ha] at h
  rw [← hy, leads_append_iff hb] at h'
  -- Each name is all that comes before the first character of no name.
  rw [← Text.takeWhile_append_eq ha.isNameChar h.endsWord, ← hy, Text.takeWhile_append_eq hb.isNameChar h'.endsWord]

end Path

namespace Placeholder

open DynamicSql.Path (Leads Ends)

variable {before s core tail name standIn out : Text} {renames : Renames}

/-- A reference is renamed behind its blanks, and what follows the name is kept. -/
theorem renameReference?_eq_some_iff (hb : ∀ c ∈ before, Text.isBlank c = true)
    (hs : ∀ c ∈ s.head?, Text.isBlank c = false) : renameReference? (before ++ s) name standIn = some out ↔
      ∃ after, s = name ++ after ∧ endsName after = true ∧ before ++ (standIn ++ after) = out := by
  rw [renameReference?, Text.takeWhile_append_eq hb hs, Text.dropWhile_append_eq hb hs]
  cases ha : Text.after? name s with
  | none =>
    have hnot : ∀ after, s ≠ name ++ after := fun after h => by simp [Text.after?_eq_some_iff.mpr h] at ha
    simp [hnot]
  | some after =>
    obtain rfl := Text.after?_eq_some_iff.mp ha
    simp [List.append_cancel_left_eq]

/-- A comma or a blank ends a name as the end of the text does. -/
theorem endsName_append_iff {more : Text} (hcomma : ',' ∉ more.head?)
    (htail : ∀ c ∈ tail.head?, c = ',' ∨ Text.isBlank c = true) : endsName (more ++ tail) = true ↔ Ends more := by
  cases more with
  | nil =>
    refine iff_of_true ?_ (by simp [Ends])
    cases tail with
    | nil => rfl
    | cons c r => rcases htail c rfl with rfl | hc <;> simp [endsName, *]
  | cons c m =>
    have hc : c ≠ ',' := by simpa using hcomma
    simp only [List.cons_append, endsName, Ends, List.head?_cons, Option.mem_def, Option.some.injEq, forall_eq',
      Bool.or_eq_true, decide_eq_true_eq, hc, or_false]
    tauto

/-- A path between blanks and what comes behind the head. -/
structure Stands (before core tail : Text) : Prop where
  blank : ∀ c ∈ before, Text.isBlank c = true
  trimmed : Text.Trimmed core
  ne_nil : core ≠ []
  comma : ∀ name more, IsIdentifier name → core = name ++ more → ',' ∉ more.head?
  tail : ∀ c ∈ tail.head?, c = ',' ∨ Text.isBlank c = true

theorem Stands.renameReference?_eq_some_iff (h : Stands before core tail) (hname : IsIdentifier name) :
    renameReference? (before ++ (core ++ tail)) name standIn = some out ↔
      ∃ more, core = name ++ more ∧ Ends more ∧ before ++ ((standIn ++ more) ++ tail) = out := by
  have hhead : ∀ c ∈ (core ++ tail).head?, Text.isBlank c = false := by
    obtain ⟨c, r, hcore⟩ := List.exists_cons_of_ne_nil h.ne_nil
    intro d hd
    exact h.trimmed.head d (by simpa [hcore] using hd)
  rw [Placeholder.renameReference?_eq_some_iff h.blank hhead]
  constructor
  · rintro ⟨after, hsplit, hends, rfl⟩
    rcases List.append_eq_append_iff.mp hsplit with ⟨w, rfl, hw⟩ | ⟨more, rfl, rfl⟩
    · cases w with
      | nil =>
        refine ⟨[], by simp, by simp [Ends], ?_⟩
        simp [show tail = after by simpa using hw]
      | cons c w =>
        -- What is behind the path goes on with no name.
        have hc := hname.isNameChar c (by simp)
        rcases h.tail c (by simp [hw]) with rfl | hblank
        · exact absurd hc (by decide)
        · simp [isBlank_of_isNameChar hc] at hblank
    · exact ⟨more, rfl, (endsName_append_iff (h.comma _ _ hname rfl) h.tail).mp hends, by simp⟩
  · rintro ⟨more, rfl, hends, rfl⟩
    exact ⟨more ++ tail, by simp, (endsName_append_iff (h.comma _ _ hname rfl) h.tail).mpr hends, by simp⟩

/-- A content is renamed exactly when the name leads its path. -/
theorem Stands.renameReference?_ne_none_iff (h : Stands before core tail) (hname : IsIdentifier name) :
    renameReference? (before ++ (core ++ tail)) name standIn ≠ none ↔ Leads name core := by
  rw [Option.ne_none_iff_exists']
  simp only [h.renameReference?_eq_some_iff hname]
  constructor
  · rintro ⟨_, more, rfl, hends, -⟩
    exact (Path.leads_append_iff hname).mpr hends
  · intro hleads
    obtain ⟨more, rfl⟩ := hleads.begins
    exact ⟨_, more, rfl, (Path.leads_append_iff hname).mp hleads, rfl⟩

/-- A path is left alone when it begins with no name of the list. -/
theorem renamePath?_eq_none_iff {content : Text} : renamePath? content renames = none ↔
    ∀ entry ∈ renames, renameReference? content entry.1 entry.2 = none := by
  induction renames with
  | nil => simp [renamePath?]
  | cons entry rest ih =>
    rw [List.forall_mem_cons, ← ih, renamePath?]
    cases renameReference? content entry.1 entry.2 <;> simp

/-- One name at most applies, wherever its rename stands. -/
theorem renamePath?_eq_of_mem {content : Text} {entry : Text × Text} (hnames : (renames.map Prod.fst).Nodup)
    (hm : entry ∈ renames)
    (hone : ∀ other ∈ renames, renameReference? content other.1 other.2 ≠ none → other.1 = entry.1) :
    renamePath? content renames = renameReference? content entry.1 entry.2 := by
  induction renames with
  | nil => cases hm
  | cons first rest ih =>
    rw [List.map_cons, List.nodup_cons] at hnames
    rw [renamePath?]
    rcases List.mem_cons.mp hm with rfl | hm
    · cases hfirst : renameReference? content entry.1 entry.2 with
      | some out => rfl
      | none =>
        simp only
        rw [renamePath?_eq_none_iff]
        intro other hother
        by_contra hsome
        have heq := hone other (List.mem_cons_of_mem _ hother) hsome
        exact hnames.1 (heq ▸ List.mem_map_of_mem hother)
    · have hfirst : renameReference? content first.1 first.2 = none := by
        by_contra hsome
        have heq := hone first List.mem_cons_self hsome
        exact hnames.1 (heq ▸ List.mem_map_of_mem hm)
      rw [hfirst]
      exact ih hnames.2 hm fun other hother => hone other (List.mem_cons_of_mem _ hother)

theorem readTarget_eq_path_iff {path : Text} :
    readTarget core = .ok (.path path) ↔ enclosed? core = none ∧ core = path := by
  rw [readTarget]
  cases enclosed? core with
  | none => simp
  | some inside => cases h : Expression.parse inside <;> simp [h, Except.map]

theorem Stands.renamePath?_ne_none_iff (h : Stands before core tail)
    (hnames : ∀ entry ∈ renames, IsIdentifier entry.1) :
    renamePath? (before ++ (core ++ tail)) renames ≠ none ↔ ∃ entry ∈ renames, Leads entry.1 core := by
  rw [Ne, renamePath?_eq_none_iff]
  push Not
  exact exists_congr fun entry => and_congr_right fun hm => h.renameReference?_ne_none_iff (hnames entry hm)

theorem Stands.renamePath?_eq {entry : Text × Text} {more : Text} (h : Stands before (entry.1 ++ more) tail)
    (hnames : ∀ entry ∈ renames, IsIdentifier entry.1) (hdistinct : (renames.map Prod.fst).Nodup)
    (hm : entry ∈ renames) (hends : Ends more) :
    renamePath? (before ++ ((entry.1 ++ more) ++ tail)) renames = some (before ++ ((entry.2 ++ more) ++ tail)) := by
  have hname := hnames entry hm
  have hleads := (Path.leads_append_iff hname).mpr hends
  rw [renamePath?_eq_of_mem hdistinct hm fun other hother hsome => ?_]
  · exact (h.renameReference?_eq_some_iff hname).mpr ⟨more, rfl, hends, rfl⟩
  · have hother' := hnames other hother
    exact ((h.renameReference?_ne_none_iff hother').mp hsome).unique hother' hname hleads

/-- A comma behind a word separates the word from what follows. -/
theorem not_comma_of_split {after more : Text} {others : List Text} (hb : ∀ c ∈ before, Text.isBlank c = true)
    (hname : ∀ c ∈ name, isNameChar c = true) (hcore : core = name ++ more)
    (hsplit : split (before ++ (core ++ tail)) = (before ++ (core ++ after), others)) : ',' ∉ more.head? := by
  intro hc
  obtain ⟨m, rfl⟩ := List.head?_eq_some_iff.mp hc
  have htop : Level.Plain .top := by simp [Level.Plain, Level.top]
  have hpass : Level.pass .top (before ++ name) = some .top := by
    rw [Level.pass_append, Level.pass_blank htop hb, Option.bind_some, Level.pass_word htop hname]
  have hhead := congrArg Prod.fst (splitFrom_append hpass (',' :: (m ++ tail)))
  have hcontent : before ++ (core ++ tail) = before ++ name ++ ',' :: (m ++ tail) := by simp [hcore]
  have hsep : Level.top.separates ',' = true := rfl
  rw [← hcontent, ← split, hsplit] at hhead
  simp [hcore, splitFrom, hsep] at hhead

/-- The path of a content stands between blanks and the attributes. -/
theorem exists_stands {content : Text} (hne : Text.trim (split content).1 ≠ []) : ∃ before tail,
    content = before ++ (Text.trim (split content).1 ++ tail) ∧ Stands before (Text.trim (split content).1) tail ∧
      ∀ core, Level.Alike (Text.trim (split content).1) core → Text.Trimmed core → core ≠ [] →
        Text.trim (split (before ++ (core ++ tail))).1 = core ∧
          (split (before ++ (core ++ tail))).2 = (split content).2 := by
  obtain ⟨before, after, rest, hcontent, hb, ha, hr, hsplit⟩ := split_head content
  refine ⟨before, after ++ rest, hcontent,
    ⟨hb, Text.trimmed_trim _, hne, fun name more hname heq => ?_, fun c hc => ?_⟩, fun core halike htrimmed hcore => ?_⟩
  · exact not_comma_of_split hb hname.isNameChar heq (hsplit _ fun _ _ => rfl)
  · cases after with
    | nil => exact .inl (hr c hc)
    | cons d after =>
      obtain rfl : d = c := by simpa using hc
      exact .inr (ha d List.mem_cons_self)
  · rw [hsplit core halike]
    exact ⟨Text.trim_append hb ha htrimmed hcore, rfl⟩

/--
A placeholder for a path is renamed exactly when one of the names leads the path, and then only the name changes:
the new content has the same attributes, and its path has the stand-in where the name stood, in the first
segment, and the other segments behind it.
-/
theorem rename?_path {content span path : Text} {offset : Nat} {p : Placeholder}
    (hp : parse content offset span = .ok p) (ht : p.target = .path path) (hdistinct : (renames.map Prod.fst).Nodup)
    (hids : ∀ entry ∈ renames, IsIdentifier entry.1 ∧ IsIdentifier entry.2) :
    ∃ r, rename? content renames = .ok r ∧ (r ≠ none ↔ ∃ entry ∈ renames, Leads entry.1 path) ∧
      ∀ entry ∈ renames, Leads entry.1 path → ∃ more rest out path', Path.segments path = (entry.1 ++ more) :: rest ∧
        r = some out ∧ (∀ offset' span', parse out offset' span' = .ok ⟨.path path', p.attributes⟩) ∧
        Path.segments path' = (entry.2 ++ more) :: rest := by
  obtain ⟨hne, htarget, hattributes⟩ := parse_eq_ok_iff.mp hp
  rw [ht, readTarget_eq_path_iff] at htarget
  obtain ⟨henclosed, hcore⟩ := htarget
  obtain ⟨before, tail, hcontent, hstands, hsplit⟩ := exists_stands hne
  have hnames : ∀ entry ∈ renames, IsIdentifier entry.1 := fun entry hm => (hids entry hm).1
  have hrename : rename? content renames = .ok (renamePath? content renames) := by rw [rename?, henclosed]
  rw [hcore] at hcontent hstands hsplit
  refine ⟨renamePath? content renames, hrename, ?_, fun entry hm hleads => ?_⟩
  · rw [hcontent]
    exact hstands.renamePath?_ne_none_iff hnames
  · obtain ⟨hname, halias⟩ := hids entry hm
    obtain ⟨more, rfl⟩ := hleads.begins
    have hends := (Path.leads_append_iff hname).mp hleads
    refine ⟨_, _, before ++ ((entry.2 ++ more) ++ tail), entry.2 ++ more, Path.segments_word_append hname more, ?_,
      fun offset' span' => ?_, Path.segments_word_append halias more⟩
    · rw [hcontent]
      exact hstands.renamePath?_eq hnames hdistinct hm hends
    · have halike : Level.Alike (entry.1 ++ more) (entry.2 ++ more) := by
        intro l hl
        rw [Level.pass_append, Level.pass_append, Level.pass_word hl hname.isNameChar,
          Level.pass_word hl halias.isNameChar]
      have hne' : entry.2 ++ more ≠ [] := by simp [halias.ne_nil]
      obtain ⟨htrim, hothers⟩ := hsplit _ halike (trimmed_reroot halias hstands.trimmed) hne'
      rw [parse_eq_ok_iff, htrim, hothers, readTarget_eq_path_iff]
      exact ⟨hne', ⟨enclosed?_identifier halias more, rfl⟩, hattributes⟩

/-! The user that an iteration is at, in paths that begin with the name. -/

def userRenames : Renames := [("v".toList, "__frch_v_1".toList), ("u".toList, "__frch_u_0".toList)]

/-- A blank behind the name is no part of the segment. -/
theorem userKey_renamed :
    parse " u .ids[0], type=int".toList 0 [] = .ok ⟨.path "u .ids[0]".toList, { type := some .int }⟩ ∧
    (userRenames.map Prod.fst).Nodup ∧ (∀ entry ∈ userRenames, IsIdentifier entry.1 ∧ IsIdentifier entry.2) ∧
    Leads "u".toList "u .ids[0]".toList ∧
    ∃ out path, rename? " u .ids[0], type=int".toList userRenames = .ok (some out) ∧
      parse out 0 [] = .ok ⟨.path path, { type := some .int }⟩ ∧
      Path.segments path = ["__frch_u_0".toList, "ids".toList, "0".toList] := by
  have hparse : parse " u .ids[0], type=int".toList 0 [] = .ok ⟨.path "u .ids[0]".toList, { type := some .int }⟩ := rfl
  have hdistinct : (userRenames.map Prod.fst).Nodup := by decide
  have hids : ∀ entry ∈ userRenames, IsIdentifier entry.1 ∧ IsIdentifier entry.2 := by decide
  have hsegments : Path.segments "u .ids[0]".toList = ["u".toList, "ids".toList, "0".toList] := by decide
  have hleads : Leads "u".toList "u .ids[0]".toList :=
    ⟨by decide, ⟨[], ["ids".toList, "0".toList], hsegments, by simp⟩, by decide⟩
  obtain ⟨r, hr, -, hpath⟩ := rename?_path hparse rfl hdistinct hids
  obtain ⟨more, rest, out, path, hfirst, rfl, hout, hnew⟩ := hpath ("u".toList, "__frch_u_0".toList) (by decide) hleads
  rw [hsegments, List.cons.injEq] at hfirst
  obtain ⟨hmore, rfl⟩ := hfirst
  obtain rfl : more = [] := List.append_cancel_left (hmore.symm.trans (List.append_nil _).symm)
  exact ⟨hparse, hdistinct, hids, hleads, out, path, hr, hout 0 [], hnew⟩

/-- A colon ends the name for the renaming and not for the path; brackets around it are the other way round. -/
theorem userColon_renamed :
    parse "u:x".toList 0 [] = .ok ⟨.path "u:x".toList, {}⟩ ∧ Path.segments "u:x".toList = ["u:x".toList] ∧
    "u:x".toList ∉ userRenames.map Prod.fst ∧
    rename? "u:x".toList userRenames = .ok (some "__frch_u_0:x".toList) ∧
    parse "[u]".toList 0 [] = .ok ⟨.path "[u]".toList, {}⟩ ∧ Path.segments "[u]".toList = ["u".toList] ∧
    "u".toList ∈ userRenames.map Prod.fst ∧ rename? "[u]".toList userRenames = .ok none :=
  ⟨rfl, by decide, by decide, by decide, rfl, by decide, by decide, by decide⟩

end Placeholder

end DynamicSql
