import DynamicSql.Proofs.Expr.Readings
import DynamicSql.Proofs.Peg.Stretches

/-!
How deep an expression nests, told by its tree. Main statement: the pass over the characters of a text, which
knows no rules, finds the depth of the tree that the rules read, because every quote and every parenthesis that
it meets is one of a pair in the tree.
-/
namespace DynamicSql.Expr

open Peg (Reading Reads)
open Grammar

mutual

/-- How many expressions stand in one another, each but the outermost in parentheses. -/
def depth : Tree → Nat
  | .leaf _ _ _ => 0
  | .node .orExpr _ parts => depthOfAll parts + 1
  | .node _ _ parts => depthOfAll parts

def depthOfAll : List Tree → Nat
  | [] => 0
  | t :: rest => max (depth t) (depthOfAll rest)

end

@[simp] theorem depthOfAll_append (ts us : List Tree) :
    depthOfAll (ts ++ us) = max (depthOfAll ts) (depthOfAll us) := by
  induction ts with
  | nil => simp [depthOfAll]
  | cons t ts ih => simp [depthOfAll, ih, Nat.max_assoc]

theorem depth_node {rule : Rule} (h : rule ≠ .orExpr) (start : Nat) (parts : List Tree) :
    depth (.node rule start parts) = depthOfAll parts := by
  rw [depth]
  exact h

variable {reference : Reading Rule} {w v u r : Text} {ts us : List Tree} {limit d : Nat} {q : Char}

/-- The characters that the pass tells from all others. -/
def delimits (c : Char) : Bool := ['(', ')', '\x27', '\x22'].contains c

/--
Where nothing is open but parentheses, a stretch of text adds the depth of its trees, and it closes what it
opens.
-/
def Weighs (w : Text) (ts : List Tree) : Prop :=
  ∀ limit d r, d ≤ limit → (nestsWithin limit d .outside (w ++ r) = true ↔
    d + depthOfAll ts ≤ limit ∧ nestsWithin limit d .outside r = true)

namespace Weighs

theorem nil : Weighs [] [] := fun limit d r hd => by simp [depthOfAll, hd]

/-- Stretches one behind the other weigh what the deeper one does. -/
theorem append (h : Weighs w ts) (h' : Weighs v us) : Weighs (w ++ v) (ts ++ us) := by
  intro limit d r hd
  rw [List.append_assoc, h limit d (v ++ r) hd, h' limit d r hd, depthOfAll_append, ← and_assoc]
  refine and_congr_left' ?_
  omega

theorem congr (h : Weighs w ts) (he : depthOfAll us = depthOfAll ts) : Weighs w us := by
  intro limit d r hd
  rw [he]
  exact h limit d r hd

/-- Where nothing is opened or closed, no depth is added. -/
theorem of_plain (hw : ∀ c ∈ w, delimits c = false) (hts : depthOfAll ts = 0) : Weighs w ts := by
  intro limit d r hd
  rw [hts]
  induction w with
  | nil => simp [hd]
  | cons c w ih =>
    have hc := hw c List.mem_cons_self
    have hne : ∀ x, delimits x = true → c ≠ x := by
      rintro x hx rfl
      simp [hc] at hx
    rw [← ih fun e he => hw e (List.mem_cons_of_mem _ he), List.cons_append, nestsWithin]
    simp [hne '\x27' (by decide), hne '\x22' (by decide), hne '(' (by decide), hne ')' (by decide)]

/-- Parentheses add the level that the tree in them has. -/
theorem parenthesized {start : Nat} {parts : List Tree} (h : Weighs w parts) :
    Weighs ('(' :: (w ++ [')'])) [.node .orExpr start parts] := by
  intro limit d r hd
  have hclose : nestsWithin limit (d + 1) .outside (')' :: r) = nestsWithin limit d .outside r := by
    simp [nestsWithin]
  have hopen : nestsWithin limit d .outside ('(' :: (w ++ [')'] ++ r)) =
      if d < limit then nestsWithin limit (d + 1) .outside (w ++ ')' :: r) else false := by
    simp [nestsWithin]
  rw [List.cons_append, hopen]
  by_cases hlt : d < limit
  · rw [if_pos hlt, h limit (d + 1) (')' :: r) hlt, hclose]
    refine and_congr_left' ?_
    simp only [depthOfAll, depth]
    omega
  · simp only [hlt, if_false, Bool.false_eq_true, depthOfAll, depth, false_iff, not_and]
    omega

end Weighs

inductive Inner (q : Char) : Text → Prop
  | nil : Inner q []
  | escaped {c w} (h : Inner q w) : Inner q ('\\' :: c :: w)
  | plain {c w} (hq : c ≠ q) (hb : c ≠ '\\') (h : Inner q w) : Inner q (c :: w)

/-- Between quotes no parenthesis counts, up to the quote that closes. -/
theorem nestsWithin_inner (h : Inner q w) (hb : q ≠ '\\') (r : Text) :
    nestsWithin limit d (.inside q) (w ++ q :: r) = nestsWithin limit d .outside r := by
  induction h with
  | nil => simp [nestsWithin, hb]
  | escaped _ ih => simpa [nestsWithin] using ih
  | plain hq hne _ ih => simpa [nestsWithin, hq, hne] using ih

theorem Weighs.quoted (h : Inner q w) (hq : q = '\x27' ∨ q = '\x22') (hts : depthOfAll ts = 0) :
    Weighs (q :: (w ++ [q])) ts := by
  intro limit d r hd
  have hb : q ≠ '\\' := by rintro rfl; simp at hq
  have hopen : nestsWithin limit d .outside (q :: (w ++ [q] ++ r)) =
      nestsWithin limit d (.inside q) (w ++ q :: r) := by
    simp [nestsWithin, hq]
  rw [List.cons_append, hopen, nestsWithin_inner h hb, hts]
  simp [hd]

/-! The rules, from the tokens up. -/

/-- Passes no quote and no parenthesis, and leaves no node. -/
def quiet : Grammar → Bool
  | .empty | .unless _ | .ended => true
  | .one accepts => ['(', ')', '\x27', '\x22'].all fun c => !accepts c
  | .word w => w.all fun c => !delimits c
  | .seq first second | .alt first second => quiet first && quiet second
  | .star body | .token _ body => quiet body
  | .node _ _ | .again => false

/-- What is quiet passes no character that opens or closes anything. -/
theorem reads_quiet (g : Grammar) (h : quiet g = true) :
    Reads (fun w ts => (∀ c ∈ w, delimits c = false) ∧ depthOfAll ts = 0) (Peg.read reference g) := by
  have happend : ∀ (w : Text) (ts : List Tree) (v : Text) (us : List Tree),
      ((∀ c ∈ w, delimits c = false) ∧ depthOfAll ts = 0) →
      ((∀ c ∈ v, delimits c = false) ∧ depthOfAll us = 0) →
      (∀ c ∈ w ++ v, delimits c = false) ∧ depthOfAll (ts ++ us) = 0 := by
    rintro w ts v us ⟨hw, hts⟩ ⟨hv, hus⟩
    exact ⟨List.forall_mem_append.mpr ⟨hw, hv⟩, by simp [hts, hus]⟩
  induction g with
  | empty => exact .empty ⟨by simp, rfl⟩
  | «unless» body => exact .unless ⟨by simp, rfl⟩
  | ended => exact .ended ⟨by simp, rfl⟩
  | one accepts =>
    refine .one fun c hc => ⟨List.forall_mem_singleton.mpr ?_, rfl⟩
    rw [Bool.eq_false_iff]
    intro hd
    have hnot := List.all_eq_true.mp h c (List.contains_iff_mem.mp hd)
    simp [hc] at hnot
  | word w => exact .word ⟨by simpa [quiet] using h, rfl⟩
  | seq first second ihf ihs =>
    simp only [quiet, Bool.and_eq_true] at h
    exact .seq (ihf h.1) (ihs h.2) happend
  | alt first second ihf ihs =>
    simp only [quiet, Bool.and_eq_true] at h
    exact .alt (ihf h.1) (ihs h.2)
  | star body ih => exact .star (ih h) ⟨by simp, rfl⟩ happend
  | token rule body ih => exact .token (ih h) fun w ts start hw => ⟨hw.1, rfl⟩
  | node rule body | again => simp [quiet] at h

theorem weighs_quiet {g : Grammar} (h : quiet g = true) : Reads Weighs (Peg.read reference g) :=
  (reads_quiet g h).imp fun _ _ hw => .of_plain hw.1 hw.2

theorem reads_inner : Reads (fun w ts => Inner q w ∧ ∃ start, ts = [.leaf .inner start w])
    (Peg.read reference (inner q)) := by
  have hbody : Reads (fun w ts => ts = [] ∧ ∀ v, Inner q v → Inner q (w ++ v))
      (Peg.read reference (innerBody q)) := by
    intro p next ts hp
    obtain ⟨passed, rest⟩ := p
    match rest with
    | [] => simp [read_innerBody_nil] at hp
    | '\\' :: c :: rest =>
      rw [read_innerBody_escape] at hp
      cases hp
      exact ⟨['\\', c], ⟨rfl, rfl⟩, rfl, fun v hv => .escaped hv⟩
    | ['\\'] => simp [read_innerBody_backslash] at hp
    | c :: rest =>
      by_cases hb : c = '\\'
      · subst hb
        cases rest with
        | nil => simp [read_innerBody_backslash] at hp
        | cons d rest =>
          rw [read_innerBody_escape] at hp
          cases hp
          exact ⟨['\\', d], ⟨rfl, rfl⟩, rfl, fun v hv => .escaped hv⟩
      by_cases hq : c = q
      · subst hq
        simp [read_innerBody_quote hb] at hp
      · rw [read_innerBody_plain hq hb] at hp
        cases hp
        exact ⟨[c], ⟨rfl, rfl⟩, rfl, fun v hv => .plain hq hb hv⟩
  have hstar : Reads (fun w ts => ts = [] ∧ Inner q w) (Peg.read reference (.star (innerBody q))) := by
    refine hbody.star ⟨rfl, .nil⟩ ?_
    rintro w _ v _ ⟨rfl, hw⟩ ⟨rfl, hv⟩
    exact ⟨rfl, hw v hv⟩
  exact .token hstar fun w ts start hw => ⟨hw.2, start, rfl⟩

theorem reads_spaces :
    Reads (fun w ts => (∀ c ∈ w, isSpace c = true) ∧ ts = []) (Peg.read reference spaces) := by
  have hone : Reads (fun w ts => (∀ c ∈ w, isSpace c = true) ∧ ts = []) (Peg.read reference (.one isSpace)) :=
    .one fun c hc => ⟨by simpa using hc, rfl⟩
  refine hone.star ⟨by simp, rfl⟩ ?_
  rintro w _ v _ ⟨hw, rfl⟩ ⟨hv, rfl⟩
  exact ⟨List.forall_mem_append.mpr ⟨hw, hv⟩, rfl⟩

theorem delimits_of_isSpace {c : Char} (h : isSpace c = true) : delimits c = false := by
  rcases isSpace_cases h with rfl | rfl | rfl | rfl <;> rfl

section

variable {first second body : Grammar}

theorem weighs_seq (h : Reads Weighs (Peg.read reference first))
    (h' : Reads Weighs (Peg.read reference second)) :
    Reads Weighs (Peg.read reference (.seq first second)) :=
  h.seq h' fun _ _ _ _ hw hv => hw.append hv

theorem weighs_next (h : Reads Weighs (Peg.read reference first))
    (h' : Reads Weighs (Peg.read reference second)) : Reads Weighs (Peg.read reference (next first second)) :=
  weighs_seq h (weighs_seq (weighs_quiet (by decide)) h')

theorem weighs_many (h : Reads Weighs (Peg.read reference body)) :
    Reads Weighs (Peg.read reference (many body)) := by
  have hagain : Reads Weighs (Peg.read reference (.seq spaces body)) := weighs_seq (weighs_quiet (by decide)) h
  exact (weighs_seq h (hagain.star .nil fun _ _ _ _ hw hv => hw.append hv)).alt (.empty .nil)

theorem weighs_node {rule : Rule} (hr : rule ≠ .orExpr) (h : Reads Weighs (Peg.read reference body)) :
    Reads Weighs (Peg.read reference (.node rule body)) :=
  h.node fun _ _ _ hw => hw.congr (by simp [depthOfAll, depth_node hr])

end

theorem weighs_quoted (hq : q = '\x27' ∨ q = '\x22') : Reads Weighs (Peg.read reference (quoted q)) := by
  have hquote : Reads (fun w ts => w = [q] ∧ ts = []) (Peg.read reference (char q)) :=
    .one fun c hc => by simpa using hc
  have hrest : Reads (fun w ts => ∃ v start, Inner q v ∧ w = v ++ [q] ∧ ts = [.leaf .inner start v])
      (Peg.read reference (.seq (inner q) (char q))) := by
    refine reads_inner.seq hquote ?_
    rintro w _ _ _ ⟨hw, start, rfl⟩ ⟨rfl, rfl⟩
    exact ⟨w, start, hw, rfl, rfl⟩
  refine hquote.seq hrest ?_
  rintro _ _ _ _ ⟨rfl, rfl⟩ ⟨v, start, hv, rfl, rfl⟩
  exact .quoted hv hq rfl

theorem weighs_string : Reads Weighs (Peg.read reference string) :=
  weighs_node (by decide) ((weighs_quoted (.inl rfl)).alt (weighs_quoted (.inr rfl)))

theorem weighs_pathSegment : Reads Weighs (Peg.read reference pathSegment) :=
  (weighs_quiet (by decide)).alt (weighs_next (weighs_quiet (by decide))
    (weighs_next ((weighs_quiet (by decide)).alt weighs_string) (weighs_quiet (by decide))))

def Enclosed (w : Text) (ts : List Tree) : Prop :=
  ∃ start parts, ts = [.node .orExpr start parts] ∧ Weighs w parts

/-- What is read in parentheses weighs a level more. -/
theorem weighs_parentheses (h : Reads Enclosed reference) :
    Reads Weighs (Peg.read reference (next (char '(') (next .again (char ')')))) := by
  have hopen : Reads (fun w ts => w = ['('] ∧ ts = []) (Peg.read reference (char '(')) :=
    .one fun c hc => by simpa using hc
  have hclose : Reads (fun w ts => ∃ s, (∀ c ∈ s, isSpace c = true) ∧ w = s ++ [')'] ∧ ts = [])
      (Peg.read reference (.seq spaces (char ')'))) := by
    refine reads_spaces.seq (S := _) (T := fun w ts => w = [')'] ∧ ts = [])
      (.one fun c hc => by simpa using hc) ?_
    rintro s _ _ _ ⟨hs, rfl⟩ ⟨rfl, rfl⟩
    exact ⟨s, hs, rfl, rfl⟩
  have hagain : Reads Enclosed (Peg.read reference .again) := h
  have hinside : Reads (fun w ts => ∃ v, w = v ++ [')'] ∧ Enclosed v ts)
      (Peg.read reference (next .again (char ')'))) := by
    refine hagain.seq hclose ?_
    rintro w _ _ _ ⟨start, parts, rfl, hw⟩ ⟨s, hs, rfl, rfl⟩
    have hplain : Weighs s [] := .of_plain (fun c hc => delimits_of_isSpace (hs c hc)) rfl
    exact ⟨w ++ s, by simp, start, parts, rfl, by simpa using hw.append hplain⟩
  have hrest : Reads (fun w ts => ∃ v, w = v ++ [')'] ∧ Enclosed v ts)
      (Peg.read reference (.seq spaces (next .again (char ')')))) := by
    refine reads_spaces.seq hinside ?_
    rintro s _ _ _ ⟨hs, rfl⟩ ⟨v, rfl, start, parts, rfl, hv⟩
    have hplain : Weighs s [] := .of_plain (fun c hc => delimits_of_isSpace (hs c hc)) rfl
    exact ⟨s ++ v, by simp, start, parts, rfl, by simpa using hplain.append hv⟩
  refine hopen.seq hrest ?_
  rintro _ _ _ _ ⟨rfl, rfl⟩ ⟨v, rfl, start, parts, rfl, hv⟩
  exact .parenthesized hv

section

variable (h : Reads Enclosed reference)
include h

theorem weighs_primary : Reads Weighs (Peg.read reference primary) := by
  have hpath : Reads Weighs (Peg.read reference Grammar.path) :=
    weighs_node (by decide) (weighs_next (weighs_quiet rfl)
      (weighs_next (weighs_quiet (by decide)) (weighs_many weighs_pathSegment)))
  exact (weighs_quiet (by decide)).alt ((weighs_quiet (by decide)).alt ((weighs_quiet (by decide)).alt
    ((weighs_quiet (by decide)).alt (weighs_string.alt ((weighs_parentheses h).alt hpath)))))

theorem weighs_unary : Reads Weighs (Peg.read reference unary) :=
  weighs_node (by decide) (weighs_next (weighs_quiet (by decide)) (weighs_primary h))

theorem weighs_additive : Reads Weighs (Peg.read reference additive) :=
  have hunary := weighs_unary h
  weighs_node (by decide) (weighs_next hunary (weighs_many (weighs_next (weighs_quiet (by decide)) hunary)))

theorem weighs_comparison : Reads Weighs (Peg.read reference comparison) :=
  have hadditive := weighs_additive h
  weighs_node (by decide)
    (weighs_next hadditive ((weighs_next (weighs_quiet (by decide)) hadditive).alt (.empty .nil)))

theorem weighs_notExpr : Reads Weighs (Peg.read reference notExpr) :=
  weighs_node (by decide) (weighs_next (weighs_quiet (by decide)) (weighs_comparison h))

theorem weighs_andExpr : Reads Weighs (Peg.read reference andExpr) :=
  have hnot := weighs_notExpr h
  weighs_node (by decide) (weighs_next hnot (weighs_many (weighs_next (weighs_quiet (by decide)) hnot)))

theorem enclosed_orExpr : Reads Enclosed (Peg.read reference orExpr) :=
  have hand := weighs_andExpr h
  (weighs_next hand (weighs_many (weighs_next (weighs_quiet (by decide)) hand))).node
    fun _ ts start hw => ⟨start, ts, rfl, hw⟩

end

/-- At every level the recursive rule reads one expression, and weighs what stands in it. -/
theorem enclosed_level (level : Nat) : Reads Enclosed (Peg.readLevel orExpr level) :=
  Peg.readLevel_reads (fun _ => enclosed_orExpr) level

/-- A text that is not longer than the limit cannot exceed it. -/
theorem nestsWithin_of_length (q : Quoting) (s : Text) (h : d + s.length ≤ limit) :
    nestsWithin limit d q s = true := by
  induction s generalizing d q with
  | nil => cases q <;> rfl
  | cons c s ih =>
    rw [List.length_cons] at h
    cases q with
    | escaped x => exact ih _ (by omega)
    | inside x => exact ih _ (by omega)
    | outside =>
      have hd : d < limit := by omega
      simp only [nestsWithin, hd, if_true]
      split
      · exact ih _ (by omega)
      split
      · exact ih _ (by omega)
      split
      · exact ih _ (by omega)
      · exact ih _ (by omega)

/-- What holds of a whole text holds of its beginning. -/
theorem nestsWithin_left {q : Quoting} {s r : Text} (h : nestsWithin limit d q (s ++ r) = true) :
    nestsWithin limit d q s = true := by
  induction s generalizing d q with
  | nil => cases q <;> rfl
  | cons c s ih =>
    cases q with
    | escaped x => exact ih h
    | inside x => exact ih h
    | outside =>
      simp only [List.cons_append, nestsWithin] at h ⊢
      grind

/-- Fewer parentheses around leave no less room inside. -/
theorem nestsWithin_mono {q : Quoting} {s : Text} {e : Nat} (hle : e ≤ d) (h : nestsWithin limit d q s = true) :
    nestsWithin limit e q s = true := by
  induction s generalizing d e q with
  | nil => cases q <;> rfl
  | cons c s ih =>
    cases q with
    | escaped x => exact ih hle h
    | inside x => exact ih hle h
    | outside =>
      simp only [nestsWithin] at h ⊢
      grind

end DynamicSql.Expr
