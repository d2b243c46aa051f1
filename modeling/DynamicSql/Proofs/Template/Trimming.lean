import DynamicSql.Proofs.Template.ByteRanges
import DynamicSql.Proofs.Text
import DynamicSql.Template.Trim

/-!
What trimming takes away: at either end the first connector of a list that is there, and the blanks between it
and the core. Connectors are cut off by their length in bytes. Main statement: every body splits into these
parts, no cut is inside a character, and the clause is made of the core.
-/
namespace DynamicSql

namespace Text

variable {u s c : Text}

theorem utf8Size_toLower (c : Char) : c.toLower.utf8Size = c.utf8Size := by
  unfold Char.toLower
  split
  · next h =>
    have hle : c.val.toNat ≤ 90 := h.2
    have hsum : (c.val + ('a'.val - 'A'.val)).toNat ≤ 127 := by
      rw [UInt32.toNat_add]
      have hshift : ('a'.val - 'A'.val).toNat = 32 := rfl
      omega
    have hsmall : c.val.toNat ≤ 127 := by omega
    exact (if_pos hsum).trans (if_pos hsmall).symm
  · rfl

/-- No blank is a letter, in upper or lower case. -/
theorem toLower_of_isBlank {c : Char} (h : isBlank c = true) : c.toLower = c := by
  unfold Char.toLower
  split
  · next hupper =>
    have hge : 65 ≤ c.toNat := hupper.1
    have hle : c.toNat ≤ 90 := hupper.2
    simp [isBlank, blankRanges] at h
    omega
  · rfl

theorem isBlank_toLower (c : Char) : isBlank c.toLower = isBlank c := by
  unfold Char.toLower
  split
  · next hupper =>
    have hge : 65 ≤ c.val.toNat := hupper.1
    have hle : c.val.toNat ≤ 90 := hupper.2
    have hsum : (c.val + ('a'.val - 'A'.val)).toNat = c.val.toNat + 32 := by
      have hshift : ('a'.val - 'A'.val).toNat = 32 := rfl
      rw [UInt32.toNat_add, hshift]
      omega
    rw [Bool.eq_iff_iff]
    simp only [isBlank, blankRanges, Char.toNat, List.any_cons, List.any_nil, Bool.or_eq_true, Bool.and_eq_true,
      decide_eq_true_eq, Bool.false_eq_true, or_false, hsum]
    omega
  · rfl

/-- Only ASCII letters are changed, so the length stays the same in bytes. -/
theorem byteLength_toLower (s : Text) : byteLength (toLower s) = byteLength s := by
  induction s with
  | nil => rfl
  | cons c r ih =>
    have hcons : toLower (c :: r) = c.toLower :: toLower r := rfl
    rw [hcons, byteLength_cons, byteLength_cons, ih, utf8Size_toLower]

theorem length_eq_of_equalIgnoringCase (h : equalIgnoringCase u c = true) : u.length = c.length := by
  have hmap : u.map Char.toLower = c.map Char.toLower := beq_iff_eq.mp h
  simpa using congrArg List.length hmap

/-- Texts that are equal but for capitals are as long in bytes. -/
theorem byteLength_eq_of_equalIgnoringCase (h : equalIgnoringCase u c = true) : byteLength u = byteLength c := by
  rw [← byteLength_toLower u, ← byteLength_toLower c]
  exact congrArg byteLength (beq_iff_eq.mp h)

theorem not_isBlank_of_equalIgnoringCase (h : equalIgnoringCase u c = true) (hc : ∀ d ∈ c, isBlank d = false) :
    ∀ d ∈ u, isBlank d = false := by
  intro d hd
  have hm : d.toLower ∈ toLower c := beq_iff_eq.mp h ▸ List.mem_map_of_mem hd
  obtain ⟨e, he, hde⟩ := List.mem_map.mp hm
  rw [← isBlank_toLower, ← hde, isBlank_toLower, hc e he]

end Text

open Text (equalIgnoringCase isBlank byteLength slice? trim Trimmed)

namespace TrimRule

variable {rule : TrimRule} {connectors : List Text} {connector s : Text}

def Begins (connector s : Text) : Prop := ∃ u, u <+: s ∧ equalIgnoringCase u connector = true

def Ends (connector s : Text) : Prop := ∃ u, u <:+ s ∧ equalIgnoringCase u connector = true

theorem beginsWith_iff : beginsWith connector s = true ↔ Begins connector s := by
  constructor
  · exact fun h => ⟨s.take connector.length, List.take_prefix _ _, h⟩
  · rintro ⟨u, ⟨r, rfl⟩, hu⟩
    rw [beginsWith, ← Text.length_eq_of_equalIgnoringCase hu, List.take_left]
    exact hu

theorem endsWith_iff : endsWith connector s = true ↔ Ends connector s := by
  rw [endsWith, Bool.and_eq_true]
  constructor
  · exact fun h => ⟨s.drop (s.length - connector.length), List.drop_suffix _ _, h.2⟩
  · rintro ⟨u, ⟨r, rfl⟩, hu⟩
    have hlength := Text.length_eq_of_equalIgnoringCase hu
    have hcut : (r ++ u).length - connector.length = r.length := by
      rw [List.length_append]
      omega
    rw [hcut, List.drop_left]
    refine ⟨decide_eq_true ?_, hu⟩
    rw [List.length_append]
    omega

/-! Cuts by bytes. -/

def byteBegins (connector s : Text) : Bool :=
  match slice? s 0 (byteLength connector) with
  | some u => equalIgnoringCase u connector
  | none => false

def byteEnds (connector s : Text) : Bool :=
  decide (byteLength connector ≤ byteLength s) &&
    match slice? s (byteLength s - byteLength connector) (byteLength s) with
    | some u => equalIgnoringCase u connector
    | none => false

/-- The text without the first connector at its start that there is; nothing if the cut is inside a character. -/
def cutLeading? (rule : TrimRule) (s : Text) : Option Text :=
  match rule.leading.find? fun c => byteBegins c s with
  | some c => (slice? s (byteLength c) (byteLength s)).map Text.trimStart
  | none => some s

def cutTrailing? (rule : TrimRule) (s : Text) : Option Text :=
  match rule.trailing.find? fun c => byteEnds c s with
  | some c => (slice? s 0 (byteLength s - byteLength c)).map Text.trimEnd
  | none => some s

/-- What is left stands between the texts of the clause; nothing is left as it is. -/
def clause (rule : TrimRule) (core : Text) : Text :=
  if core = [] then []
  else rule.opening.elim [] (fun s => s ++ [' ']) ++ (core ++ rule.closing.elim [] fun s => ' ' :: s)

def cut? (rule : TrimRule) (body : Text) : Option Text :=
  ((rule.cutLeading? (trim body)).bind rule.cutTrailing?).map rule.clause

theorem apply_eq_clause (rule : TrimRule) (body : Text) : rule.apply body = rule.clause (rule.core body) := by
  rw [apply, clause]
  cases rule.core body with
  | nil => rfl
  | cons c r =>
    rw [if_neg (List.cons_ne_nil c r)]
    cases rule.opening <;> cases rule.closing <;> simp

/-- There is no clause around an empty core. -/
theorem clause_eq_nil_iff {core : Text} : rule.clause core = [] ↔ core = [] := by
  rw [clause]
  split
  · next h => simp [h]
  · next h => simp [h]

/-- Comparing bytes comes to comparing characters. -/
theorem byteBegins_eq (connector s : Text) : byteBegins connector s = beginsWith connector s := by
  rw [Bool.eq_iff_iff, beginsWith_iff, byteBegins]
  constructor
  · intro h
    split at h
    · next u hslice =>
      obtain ⟨before, after, rfl, hbefore, -⟩ := Text.slice?_eq_some_iff.mp hslice
      rw [Text.byteLength_eq_zero.mp hbefore]
      exact ⟨u, List.prefix_append u after, h⟩
    · cases h
  · rintro ⟨u, ⟨after, rfl⟩, hu⟩
    have hslice : slice? (u ++ after) 0 (byteLength connector) = some u := by
      rw [← Text.byteLength_eq_of_equalIgnoringCase hu]
      exact Text.slice?_inside [] u after
    rw [hslice]
    exact hu

theorem byteEnds_eq (connector s : Text) : byteEnds connector s = endsWith connector s := by
  rw [Bool.eq_iff_iff, endsWith_iff, byteEnds, Bool.and_eq_true]
  constructor
  · rintro ⟨-, h⟩
    split at h
    · next u hslice =>
      obtain ⟨before, after, rfl, -, hstop⟩ := Text.slice?_eq_some_iff.mp hslice
      have hafter : byteLength after = 0 := by
        simp only [Text.byteLength_append] at hstop
        omega
      rw [Text.byteLength_eq_zero.mp hafter, List.append_nil]
      exact ⟨u, List.suffix_append before u, h⟩
    · cases h
  · rintro ⟨u, ⟨before, rfl⟩, hu⟩
    rw [← Text.byteLength_eq_of_equalIgnoringCase hu]
    have hstart : byteLength (before ++ u) - byteLength u = byteLength before := by
      rw [Text.byteLength_append, Nat.add_sub_cancel]
    rw [hstart, Text.slice?_rest]
    refine ⟨decide_eq_true ?_, hu⟩
    rw [Text.byteLength_append]
    omega

/-! The parts of a body. -/

/--
What is taken at one end, where the parts that satisfy `part` are: one that is the first connector of the list which
any of them is, up to ASCII case, or nothing if there is no such connector.
-/
inductive Takes (part : Text → Prop) (connectors : List Text) : Text → Prop where
  | nothing (h : ∀ c ∈ connectors, ∀ u, part u → equalIgnoringCase u c = false) : Takes part connectors []
  | first {u connector : Text} {earlier later : List Text} (hlist : connectors = earlier ++ connector :: later)
      (hpart : part u) (hu : equalIgnoringCase u connector = true)
      (h : ∀ c ∈ earlier, ∀ v, part v → equalIgnoringCase v c = false) : Takes part connectors u

/-- The parts of a body: what is taken at the start, blanks, the core, blanks, and what is taken at the end. -/
structure Splits (rule : TrimRule) (body lead before core after tail : Text) : Prop where
  whole : trim body = lead ++ (before ++ (core ++ (after ++ tail)))
  atStart : Takes (· <+: trim body) rule.leading lead
  beforeBlank : ∀ c ∈ before, isBlank c = true
  beforeNil : lead = [] → before = []
  rest : ∀ c ∈ (core ++ (after ++ tail)).head?, isBlank c = false
  atEnd : Takes (· <:+ core ++ (after ++ tail)) rule.trailing tail
  afterBlank : ∀ c ∈ after, isBlank c = true
  afterNil : tail = [] → after = []
  trimmed : Trimmed core

theorem takes_of_find?_eq_none {part : Text → Prop} {test : Text → Bool}
    (htest : ∀ c, test c = true ↔ ∃ u, part u ∧ equalIgnoringCase u c = true) (h : connectors.find? test = none) :
    Takes part connectors [] := by
  refine .nothing fun c hc u hu => ?_
  rw [← Bool.not_eq_true]
  intro heq
  exact List.find?_eq_none.mp h c hc ((htest c).mpr ⟨u, hu, heq⟩)

/-- The connector that is taken is the first of the list that matches. -/
theorem takes_of_find?_eq_some {part : Text → Prop} {test : Text → Bool}
    (htest : ∀ c, test c = true ↔ ∃ u, part u ∧ equalIgnoringCase u c = true)
    (h : connectors.find? test = some connector) :
    ∃ u, part u ∧ equalIgnoringCase u connector = true ∧ Takes part connectors u := by
  obtain ⟨hfound, earlier, later, hlist, hearlier⟩ := List.find?_eq_some_iff_append.mp h
  obtain ⟨u, hpart, hu⟩ := (htest connector).mp hfound
  refine ⟨u, hpart, hu, .first hlist hpart hu fun c hc v hv => ?_⟩
  rw [← Bool.not_eq_true]
  intro heq
  have hnot : test c = false := by simpa using hearlier c hc
  exact absurd ((htest c).mpr ⟨v, hv, heq⟩) (by simp [hnot])

/-- What the start of a trimmed text loses. -/
theorem exists_leading (rule : TrimRule) (hs : Trimmed s) : ∃ lead before rest, s = lead ++ (before ++ rest) ∧
    Takes (· <+: s) rule.leading lead ∧ (∀ c ∈ before, isBlank c = true) ∧ (lead = [] → before = []) ∧ Trimmed rest ∧
    rule.dropLeading s = rest ∧ rule.cutLeading? s = some rest := by
  rw [dropLeading, cutLeading?]
  simp only [byteBegins_eq]
  cases hfind : rule.leading.find? fun c => beginsWith c s with
  | none =>
    have htakes := takes_of_find?_eq_none (fun c => beginsWith_iff) hfind
    exact ⟨[], [], s, rfl, htakes, by simp, fun _ => rfl, hs, rfl, rfl⟩
  | some c =>
    obtain ⟨lead, ⟨r, hr⟩, hlead, htakes⟩ := takes_of_find?_eq_some (fun c => beginsWith_iff) hfind
    subst hr
    have hparts : r.takeWhile isBlank ++ Text.trimStart r = r := List.takeWhile_append_dropWhile
    have hdrop : (lead ++ r).drop c.length = r := by
      rw [← Text.length_eq_of_equalIgnoringCase hlead, List.drop_left]
    have hslice : slice? (lead ++ r) (byteLength c) (byteLength (lead ++ r)) = some r := by
      rw [← Text.byteLength_eq_of_equalIgnoringCase hlead, Text.slice?_rest]
    refine ⟨lead, r.takeWhile isBlank, Text.trimStart r, by rw [hparts], htakes, fun c => List.mem_takeWhile_imp,
      ?_, ?_, congrArg Text.trimStart hdrop, congrArg (Option.map Text.trimStart) hslice⟩
    · rintro rfl
      cases r with
      | nil => rfl
      | cons d r => simp [hs.head d rfl]
    · exact hs.suffix ((List.dropWhile_suffix isBlank).trans (List.suffix_append lead r)) (Text.head?_trimStart r)

/-- What the end of a trimmed text loses. -/
theorem exists_trailing (rule : TrimRule) (hs : Trimmed s) : ∃ core after tail, s = core ++ (after ++ tail) ∧
    Takes (· <:+ s) rule.trailing tail ∧ (∀ c ∈ after, isBlank c = true) ∧ (tail = [] → after = []) ∧ Trimmed core ∧
    rule.dropTrailing s = core ∧ rule.cutTrailing? s = some core := by
  rw [dropTrailing, cutTrailing?]
  simp only [byteEnds_eq]
  cases hfind : rule.trailing.find? fun c => endsWith c s with
  | none =>
    have htakes := takes_of_find?_eq_none (fun c => endsWith_iff) hfind
    exact ⟨s, [], [], by simp, htakes, by simp, fun _ => rfl, hs, rfl, rfl⟩
  | some c =>
    obtain ⟨tail, ⟨r, hr⟩, htail, htakes⟩ := takes_of_find?_eq_some (fun c => endsWith_iff) hfind
    subst hr
    have hparts : Text.trimEnd r ++ r.rtakeWhile isBlank = r := List.rdropWhile_append_rtakeWhile
    have htake : (r ++ tail).take ((r ++ tail).length - c.length) = r := by
      rw [← Text.length_eq_of_equalIgnoringCase htail, List.length_append, Nat.add_sub_cancel, List.take_left]
    have hslice : slice? (r ++ tail) 0 (byteLength (r ++ tail) - byteLength c) = some r := by
      rw [← Text.byteLength_eq_of_equalIgnoringCase htail, Text.byteLength_append, Nat.add_sub_cancel]
      exact Text.slice?_inside [] r tail
    refine ⟨Text.trimEnd r, r.rtakeWhile isBlank, tail, by rw [← List.append_assoc, hparts], htakes,
      fun c => List.mem_rtakeWhile_imp, ?_, hs.trimEnd_prefix (List.prefix_append r tail),
      congrArg Text.trimEnd htake, congrArg (Option.map Text.trimEnd) hslice⟩
    rintro rfl
    rw [List.rtakeWhile_eq_nil_iff]
    intro hne
    have hlast := hs.last (r.getLast hne) (by rw [List.append_nil]; exact List.getLast_mem_getLast? hne)
    simp [hlast]

/--
Trimming removes only what it may. Every body splits into its parts; cutting it by the lengths of connectors in bytes
is never inside a character and comes to the same; the clause is empty exactly when the core is, and otherwise holds
the core and nothing else of the body.
-/
theorem apply_splits (rule : TrimRule) (body : Text) : ∃ lead before core after tail,
    Splits rule body lead before core after tail ∧
    rule.cut? body = some (rule.apply body) ∧
    (rule.apply body = [] ↔ core = []) ∧
    rule.apply body = if core = [] then []
      else rule.opening.elim [] (fun s => s ++ [' ']) ++ (core ++ rule.closing.elim [] fun s => ' ' :: s) := by
  obtain ⟨lead, before, rest, hwhole, hlead, hbefore, hnone, hrest, hdropLeading, hcutLeading⟩ :=
    exists_leading rule (Text.trimmed_trim body)
  obtain ⟨core, after, tail, rfl, htail, hafter, hnone', hcore, hdropTrailing, hcutTrailing⟩ :=
    exists_trailing rule hrest
  have happly : rule.apply body = rule.clause core := by
    rw [apply_eq_clause, TrimRule.core, hdropLeading, hdropTrailing]
  refine ⟨lead, before, core, after, tail,
    ⟨hwhole, hlead, hbefore, hnone, hrest.head, htail, hafter, hnone', hcore⟩, ?_, ?_, ?_⟩
  · rw [cut?, hcutLeading, Option.bind_some, hcutTrailing, happly]
    rfl
  · rw [happly, clause_eq_nil_iff]
  · rw [happly, clause]

/-- Letters beyond ASCII have no case, and the end is looked for in what the start has left. -/
example : apply
    { opening := some ['('], leading := ["É".toList, "é and".toList], trailing := ["d y x".toList, "X".toList] }
    " é AND y x\n".toList = "( y".toList := by decide

end TrimRule

end DynamicSql
