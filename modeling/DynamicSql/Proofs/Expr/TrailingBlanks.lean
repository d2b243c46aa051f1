import DynamicSql.Proofs.Expr.PathReadings

/-!
Blanks at the end of a text. Main statement: no rule tells one number of them from another; wherever it begins, it
fails with them as without them, or comes to the same tree but for the places at which its parts begin.
-/
namespace DynamicSql.Expr

open Peg (Place Reading Reads Stretch)
open Grammar

variable {reference : Reading Rule} {first second body : Grammar} {rule : Rule} {kept : Bool}
  {a b s w : Text} {t : Tree} {ts ts' us : List Tree} {p p' : Place}

/-! Trees, but for the places at which they begin. -/

mutual

def unplaced : Tree → Tree
  | .leaf rule _ text => .leaf rule 0 text
  | .node rule _ children => .node rule 0 (unplacedAll children)

def unplacedAll : List Tree → List Tree
  | [] => []
  | t :: rest => unplaced t :: unplacedAll rest

end

@[simp] theorem unplacedAll_append (ts us : List Tree) :
    unplacedAll (ts ++ us) = unplacedAll ts ++ unplacedAll us := by
  induction ts with
  | nil => rfl
  | cons t ts ih => simp [unplacedAll, ih]

theorem stringText_unplacedAll (ts : List Tree) : stringText (unplacedAll ts) = stringText ts := by
  match ts with
  | [] => rfl
  | .leaf _ _ _ :: _ => rfl
  | .node _ _ _ :: _ => rfl

theorem pathTail_unplacedAll (ts : List Tree) : pathTail (unplacedAll ts) = pathTail ts := by
  induction ts with
  | nil => rfl
  | cons t rest ih =>
    cases t with
    | leaf rule start text => cases rule <;> simp only [unplacedAll, unplaced, pathTail, ih]
    | node rule start children => simp only [unplacedAll, unplaced, pathTail, ih, stringText_unplacedAll]

theorem pathText_unplacedAll (ts : List Tree) : pathText (unplacedAll ts) = pathText ts := by
  match ts with
  | [] => rfl
  | .leaf _ _ _ :: rest => simp only [unplacedAll, unplaced, pathText, pathTail_unplacedAll]
  | .node rule start children :: rest => exact pathTail_unplacedAll (.node rule start children :: rest)

section

variable (h : ∀ t ∈ ts, ofTree (unplaced t) = ofTree t)
include h

/-- Where the operands begin has no part in what is built from them. -/
theorem ofOperands_unplacedAll : ofOperands (unplacedAll ts) = ofOperands ts := by
  induction ts with
  | nil => rfl
  | cons t rest ih =>
    obtain ⟨ht, hrest⟩ := List.forall_mem_cons.mp h
    cases t with
    | leaf rule start text => exact ih hrest
    | node rule start children =>
      rw [unplaced] at ht
      simp only [unplacedAll, unplaced, ofOperands, ht, ih hrest]

theorem ofPrefixed_unplacedAll (wrap : Nat → Expr → Expr) (count : Nat) :
    ofPrefixed wrap count (unplacedAll ts) = ofPrefixed wrap count ts := by
  induction ts generalizing count with
  | nil => rfl
  | cons t rest ih =>
    obtain ⟨ht, hrest⟩ := List.forall_mem_cons.mp h
    cases t with
    | leaf rule start text =>
      rw [unplaced] at ht
      cases rule
      case notOp => exact ih hrest (count + 1)
      case negOp => exact ih hrest (count + 1)
      all_goals simp only [unplacedAll, unplaced, ofPrefixed, ht]
    | node rule start children =>
      rw [unplaced] at ht
      simp only [unplacedAll, unplaced, ofPrefixed, ht]

theorem ofComparison_unplacedAll : ofComparison (unplacedAll ts) = ofComparison ts := by
  match ts with
  | [] => rfl
  | [left] => simp only [unplacedAll, ofComparison, h left (by simp)]
  | [left, .leaf rule start op, right] =>
    simp only [unplacedAll, unplaced, ofComparison, h left (by simp), h right (by simp)]
  | [_, .node _ _ _, _] => rfl
  | [_, .leaf _ _ _] => rfl
  | [_, .node _ _ _] => rfl
  | _ :: .leaf _ _ _ :: _ :: _ :: _ => rfl
  | _ :: .node _ _ _ :: _ :: _ :: _ => rfl

theorem ofAddends_unplacedAll : ofAddends (unplacedAll ts) = ofAddends ts := by
  induction hn : ts.length using Nat.strongRecOn generalizing ts with
  | _ n ih =>
    subst hn
    match ts with
    | [] => rfl
    | [.leaf _ _ _] => rfl
    | .node _ _ _ :: _ => rfl
    | .leaf rule start op :: t :: rest =>
      have hrest : ofAddends (unplacedAll rest) = ofAddends rest :=
        ih rest.length (by simp only [List.length_cons]; omega) (fun u hu => h u (by simp [hu])) rfl
      simp only [unplacedAll, unplaced, ofAddends, h t (by simp), hrest]

theorem ofSum_unplacedAll : ofSum (unplacedAll ts) = ofSum ts := by
  match ts with
  | [] => rfl
  | [first] => simp only [unplacedAll, ofSum, h first (by simp)]
  | first :: second :: rest =>
    have hrest := ofAddends_unplacedAll fun u hu => h u (List.mem_cons_of_mem _ hu)
    rw [unplacedAll] at hrest
    simp only [unplacedAll, ofSum, h first (by simp), hrest]

end

/-- What a tree stands for is told by its rules and texts alone. -/
theorem ofTree_unplaced (t : Tree) : ofTree (unplaced t) = ofTree t := by
  induction t using Peg.Tree.structural with
  | leaf rule start text => cases rule <;> simp only [unplaced, ofTree]
  | node rule start children ih =>
    cases rule <;> simp only [unplaced, ofTree, stringText_unplacedAll, pathText_unplacedAll,
      ofOperands_unplacedAll ih, ofPrefixed_unplacedAll ih, ofComparison_unplacedAll ih, ofSum_unplacedAll ih]

/-- Without places, a list that looks like one node is one. -/
theorem exists_of_unplacedAll {start : Nat} {more : List Tree}
    (h : unplacedAll [.node rule start (t :: more)] = unplacedAll us) :
    ∃ start' t' more', us = [.node rule start' (t' :: more')] ∧ unplaced t' = unplaced t := by
  match us with
  | [] => cases h
  | .leaf _ _ _ :: _ => simp [unplacedAll, unplaced] at h
  | .node _ _ [] :: _ => simp [unplacedAll, unplaced] at h
  | .node rule' start' (t' :: more') :: others =>
    cases others with
    | cons u others => simp [unplacedAll] at h
    | nil =>
      simp only [unplacedAll, unplaced, List.cons.injEq, Peg.Tree.node.injEq] at h
      obtain ⟨⟨rfl, -, ht, -⟩, -⟩ := h
      exact ⟨start', t', more', rfl, ht.symm⟩

/-! Blanks at the end. -/

/--
Both readings fail, or both come to the same trees. What they leave differs in blanks at the end, and in all of
those that were there where none may be passed.
-/
inductive Alike (kept : Bool) (a : Text) : Option (Place × List Tree) → Option (Place × List Tree) → Prop
  | failed : Alike kept a none none
  | reached {b : Text} {q q' : Place} {ts ts' : List Tree} (hb : Spacing b) (hq : q.rest = q'.rest ++ b)
      (hkept : kept = true → b = a) (hts : unplacedAll ts = unplacedAll ts') :
      Alike kept a (some (q, ts)) (some (q', ts'))

/-- Blanks at the end of the text make no difference, wherever the reading begins. -/
def Steady (kept : Bool) (reading : Reading Rule) : Prop :=
  ∀ a p p', Spacing a → p.rest = p'.rest ++ a → Alike kept a (reading p) (reading p')

/-- Blanks that both left behind make no difference. -/
theorem Alike.same (ha : Spacing a) (hp : p.rest = p'.rest ++ a) (hts : unplacedAll ts = unplacedAll ts') :
    Alike kept a (some (p, ts)) (some (p', ts')) :=
  .reached ha hp (fun _ => rfl) hts

/-- What is read next, put behind the trees so far. -/
theorem Alike.behind (hkept : kept = true → b = a) (hts : unplacedAll ts = unplacedAll ts')
    {x x' : Option (Place × List Tree)} (h : Alike kept b x x') :
    Alike kept a (x.map fun r => (r.1, ts ++ r.2)) (x'.map fun r => (r.1, ts' ++ r.2)) := by
  cases h with
  | failed => exact .failed
  | reached hc hr hkept' hus =>
    exact .reached hc hr (fun hk => (hkept' hk).trans (hkept hk)) (by simp [hts, hus])

theorem Alike.node {x x' : Option (Place × List Tree)} (h : Alike kept a x x') (start start' : Nat) :
    Alike kept a (x.map fun r => (r.1, [.node rule start r.2]))
      (x'.map fun r => (r.1, [.node rule start' r.2])) := by
  cases h with
  | failed => exact .failed
  | reached hb hq hkept hts => exact .reached hb hq hkept (by simp [unplacedAll, unplaced, hts])

namespace Steady

theorem weaken {reading : Reading Rule} (h : Steady true reading) : Steady kept reading := by
  intro a p p' ha hp
  have hread := h a p p' ha hp
  generalize reading p = x, reading p' = x' at hread
  cases hread with
  | failed => exact .failed
  | reached hb hq hkept hts => exact .reached hb hq (fun _ => hkept rfl) hts

theorem empty : Steady kept (Peg.read reference .empty) := fun _ _ _ ha hp => .same ha hp rfl

theorem one {accepts : Char → Bool} (h : ∀ c, isSpace c = true → accepts c = false) :
    Steady kept (Peg.read reference (.one accepts)) := by
  rintro a p ⟨k, rest⟩ ha hp
  rw [read_one, read_one, hp]
  cases rest with
  | nil =>
    cases a with
    | nil => exact .failed
    | cons c a =>
      simp only [List.nil_append, h c (ha c List.mem_cons_self)]
      exact .failed
  | cons c rest =>
    simp only [List.cons_append]
    split
    · exact .same ha rfl rfl
    · exact .failed

/-- The second part begins with the same blanks behind it as the first. -/
theorem seq (h : Steady kept (Peg.read reference first)) (h' : Steady kept (Peg.read reference second)) :
    Steady kept (Peg.read reference (.seq first second)) := by
  intro a p p' ha hp
  have hfirst := h a p p' ha hp
  rw [Peg.read_seq, Peg.read_seq]
  generalize Peg.read reference first p = x, Peg.read reference first p' = x' at hfirst
  cases hfirst with
  | failed => exact .failed
  | reached hb hq hkept hts => exact (h' _ _ _ hb hq).behind hkept hts

theorem alt (h : Steady kept (Peg.read reference first)) (h' : Steady kept (Peg.read reference second)) :
    Steady kept (Peg.read reference (.alt first second)) := by
  intro a p p' ha hp
  have hfirst := h a p p' ha hp
  rw [read_alt, read_alt]
  generalize Peg.read reference first p = x, Peg.read reference first p' = x' at hfirst
  cases hfirst with
  | failed => exact h' a p p' ha hp
  | reached hb hq hkept hts => exact .reached hb hq hkept hts

theorem «unless» (h : Steady kept (Peg.read reference body)) :
    Steady kept (Peg.read reference (.unless body)) := by
  intro a p p' ha hp
  have hbody := h a p p' ha hp
  rw [Peg.read_unless, Peg.read_unless]
  generalize Peg.read reference body p = x, Peg.read reference body p' = x' at hbody
  cases hbody with
  | failed => exact .same ha hp rfl
  | reached _ _ _ _ => exact .failed

/-- A turn of one reading is a turn of the other, so both come to an end after as many. -/
theorem star (hb : Peg.Passing (Peg.read reference body)) (h : Steady kept (Peg.read reference body)) :
    Steady kept (Peg.read reference (.star body)) := by
  intro a p
  induction hn : p.rest.length using Nat.strongRecOn generalizing a p with
  | _ n ih =>
    subst hn
    intro p' ha hp
    have hbody := h a p p' ha hp
    rw [Peg.read_star hb, Peg.read_star hb]
    generalize hx : Peg.read reference body p = x, Peg.read reference body p' = x' at hbody
    cases hbody with
    | failed => exact .same ha hp rfl
    | @reached b q q' ts ts' hb' hq hkept hts =>
      have hmore := ih q.rest.length (hb p q ts hx) b q rfl q' hb' hq
      exact hmore.behind hkept hts

theorem node (h : Steady kept (Peg.read reference body)) :
    Steady kept (Peg.read reference (.node rule body)) := by
  intro a p p' ha hp
  rw [Peg.read_node, Peg.read_node]
  exact (h a p p' ha hp).node p.passed p'.passed

/-- A token that passes none of the blanks has the same text. -/
theorem token (hw : ∃ S, Reads S (Peg.read reference body)) (h : Steady true (Peg.read reference body)) :
    Steady kept (Peg.read reference (.token rule body)) := by
  intro a p p' ha hp
  have hbody := h a p p' ha hp
  obtain ⟨S, hS⟩ := hw
  rw [Peg.read_token, Peg.read_token]
  generalize hx : Peg.read reference body p = x, hx' : Peg.read reference body p' = x' at hbody
  cases hbody with
  | failed => exact .failed
  | @reached b q q' ts ts' hb hq hkept hts =>
    obtain rfl := hkept rfl
    obtain ⟨w, hw, -⟩ := hS p q ts hx
    obtain ⟨v, hv, -⟩ := hS p' q' ts' hx'
    have hsame : w = v := by
      rw [hw.rest, hv.rest, hq, List.append_assoc] at hp
      exact List.append_cancel_right hp
    refine .same ha hq ?_
    simp only [hw.take, hv.take, hsame, unplacedAll, unplaced]

/-- A word is its characters, one after the other. -/
theorem word (h : ∀ c ∈ w, isSpace c = false) : Steady kept (Peg.read reference (.word w)) := by
  induction w with
  | nil =>
    intro a p p' ha hp
    simpa [Peg.read, Text.after?] using Alike.same ha hp rfl
  | cons c w ih =>
    have hc : Steady kept (Peg.read reference (char c)) := by
      refine one fun d hd => ?_
      simp only [decide_eq_false_iff_not]
      rintro rfl
      simp [h d List.mem_cons_self] at hd
    rw [read_word_cons]
    exact hc.seq (ih fun d hd => h d (List.mem_cons_of_mem _ hd))

end Steady

/-! Rules without blanks in them. -/

def blanks : List Char :=
  Text.blankRanges.flatMap fun (first, last) => (List.range' first (last + 1 - first)).map Char.ofNat

theorem mem_blanks {c : Char} (h : Text.isBlank c = true) : c ∈ blanks := by
  simp only [Text.isBlank, List.any_eq_true, Bool.and_eq_true, decide_eq_true_eq] at h
  obtain ⟨⟨first, last⟩, hr, hle, hge⟩ := h
  refine List.mem_flatMap.mpr ⟨(first, last), hr, List.mem_map.mpr ⟨c.toNat, ?_, Char.ofNat_toNat c⟩⟩
  exact List.mem_range'_1.mpr (by omega)

theorem isSpace_of_isBlank {c : Char} (h : Text.isBlank c = false) : isSpace c = false := by
  by_contra hs
  have hb := isBlank_of_isSpace (Bool.not_eq_false _ ▸ hs)
  simp [h] at hb

/-- Passes no blank, and asks for nothing that more blanks at the end would change. -/
def visible : Grammar → Bool
  | .empty => true
  | .one accepts => blanks.all fun c => !accepts c
  | .word w => w.all fun c => !Text.isBlank c
  | .seq first second | .alt first second => visible first && visible second
  | .star body => body.passes && visible body
  | .unless body | .token _ body => visible body
  | .ended | .node _ _ | .again => false

theorem refuses_blank {accepts : Char → Bool} (h : visible (.one accepts) = true) {c : Char}
    (hc : Text.isBlank c = true) : accepts c = false := by
  have hall : ∀ d ∈ blanks, accepts d = false := by simpa [visible] using h
  exact hall c (mem_blanks hc)

/-- A visible grammar passes no blank. -/
theorem reads_visible (g : Grammar) (h : visible g = true) :
    Reads (fun w _ => ∀ c ∈ w, Text.isBlank c = false) (Peg.read reference g) := by
  have happend : ∀ (w : Text) (_ : List Tree) (v : Text) (_ : List Tree), (∀ c ∈ w, Text.isBlank c = false) →
      (∀ c ∈ v, Text.isBlank c = false) → ∀ c ∈ w ++ v, Text.isBlank c = false :=
    fun _ _ _ _ hw hv => List.forall_mem_append.mpr ⟨hw, hv⟩
  induction g with
  | empty => exact .empty (by simp)
  | one accepts =>
    refine .one fun c hc => List.forall_mem_singleton.mpr ?_
    rw [Bool.eq_false_iff]
    intro hb
    simp [refuses_blank h hb] at hc
  | word w => exact .word (by simpa [visible] using h)
  | seq first second ihf ihs =>
    simp only [visible, Bool.and_eq_true] at h
    exact .seq (ihf h.1) (ihs h.2) happend
  | alt first second ihf ihs =>
    simp only [visible, Bool.and_eq_true] at h
    exact .alt (ihf h.1) (ihs h.2)
  | star body ih =>
    simp only [visible, Bool.and_eq_true] at h
    exact .star (ih h.2) (by simp) happend
  | «unless» body => exact .unless (by simp)
  | token rule body ih => exact .token (ih h) fun _ _ _ hw => hw
  | ended | node rule body | again => simp [visible] at h

/-- A visible grammar never comes to the blanks at the end. -/
theorem steady_visible (hpass : Peg.Passing reference) (g : Grammar) (h : visible g = true) :
    Steady true (Peg.read reference g) := by
  induction g with
  | empty => exact .empty
  | one accepts => exact .one fun c hc => refuses_blank h (isBlank_of_isSpace hc)
  | word w =>
    have hw : ∀ c ∈ w, Text.isBlank c = false := by simpa [visible] using h
    exact .word fun c hc => isSpace_of_isBlank (hw c hc)
  | seq first second ihf ihs =>
    simp only [visible, Bool.and_eq_true] at h
    exact (ihf h.1).seq (ihs h.2)
  | alt first second ihf ihs =>
    simp only [visible, Bool.and_eq_true] at h
    exact (ihf h.1).alt (ihs h.2)
  | star body ih =>
    simp only [visible, Bool.and_eq_true] at h
    exact .star (Peg.read_passing hpass body h.1) (ih h.2)
  | «unless» body ih => exact (ih h).unless
  | token rule body ih => exact .token ⟨_, reads_visible body h⟩ (ih h)
  | ended | node rule body | again => simp [visible] at h

/-! Rules with blanks in them. -/

/-- A stretch that ends with no blank is not longer than the text without the blanks. -/
theorem exists_rest {c : Char} {r : Text} (hc : isSpace c = false) (ha : Spacing a)
    (h : w ++ c :: r = s ++ a) : ∃ u, s = w ++ c :: u ∧ r = u ++ a := by
  rcases List.append_eq_append_iff.mp h with ⟨u, rfl, hu⟩ | ⟨v, rfl, hv⟩
  · cases u with
    | nil =>
      obtain rfl : c :: r = a := hu
      have hin := ha c List.mem_cons_self
      simp [hc] at hin
    | cons d u =>
      obtain ⟨rfl, rfl⟩ := List.cons.inj hu
      exact ⟨u, rfl, rfl⟩
  · have hin := ha c (by simp [hv])
    simp [hc] at hin

/-- Skipping blanks may reach those at the end, and only when nothing else is left. -/
theorem skip_rest_append (ha : Spacing a) (hp : p.rest = p'.rest ++ a) :
    ((skip true p).rest = [] ∧ (skip true p').rest = []) ∨
      ((skip true p').rest ≠ [] ∧ (skip true p).rest = (skip true p').rest ++ a) := by
  have hsame : isWhitespace = isSpace := funext isWhitespace_eq
  have hnone : a.dropWhile isSpace = [] := List.dropWhile_eq_nil_iff.mpr ha
  simp only [skip, if_true, hp, hsame, List.dropWhile_append, hnone, List.isEmpty_iff]
  by_cases hnil : p'.rest.dropWhile isSpace = [] <;> simp [hnil]

section

variable (hpass : Peg.Passing reference)
include hpass

theorem steady_spaces : Steady false (Peg.read reference spaces) := by
  intro a p p' ha hp
  rw [read_spaces hpass, read_spaces hpass]
  rcases skip_rest_append ha hp with ⟨hq, hq'⟩ | ⟨-, hq⟩
  · exact .reached .nil (by rw [hq, hq', List.append_nil]) (by simp) rfl
  · exact .same ha hq rfl

/-- The blanks that are left are passed before the end is asked for. -/
theorem steady_ending : Steady false (Peg.read reference (.seq spaces (.token rule .ended))) := by
  intro a p p' ha hp
  rw [read_behind_spaces hpass, read_behind_spaces hpass, Peg.read_token, Peg.read_token, Peg.read, Peg.read]
  rcases skip_rest_append ha hp with ⟨hq, hq'⟩ | ⟨hne, hq⟩
  · simp only [hq, hq', if_true, Option.map_some]
    exact .reached .nil (by rw [hq, hq', List.append_nil]) (by simp) (by simp [unplacedAll, unplaced])
  · have hne' : (skip true p).rest ≠ [] := by simp [hq, hne]
    simp only [hne, hne', if_false]
    exact .failed

/-- The quote that closes a text is no blank, so it stands before the blanks at the end. -/
theorem steady_string : Steady true (Peg.read reference string) := by
  rintro a ⟨k, s⟩ ⟨k', s'⟩ ha hp
  have hread : ∀ {x v r}, (x = '\x27' ∨ x = '\x22') → Inner x v → s' = x :: (v ++ x :: r) →
      Alike true a (Peg.read reference string ⟨k, s⟩) (Peg.read reference string ⟨k', s'⟩) := by
    rintro x v r hx hv rfl
    obtain rfl : s = x :: (v ++ x :: (r ++ a)) := by simpa using hp
    obtain ⟨l, _, hl, i, j, rfl⟩ := leaves_string hpass hx hv (r ++ a) k
    obtain ⟨l', _, hl', i', j', rfl⟩ := leaves_string hpass hx hv r k'
    rw [hl, hl']
    exact .same ha rfl (by simp [unplacedAll, unplaced])
  cases h' : Peg.read reference string ⟨k', s'⟩ with
  | some r' =>
    obtain ⟨w, hw, x, v, _, _, hx, hv, rfl, -⟩ := reads_quotedKey _ _ _ h'
    exact h' ▸ hread hx hv (by simpa using hw.rest)
  | none =>
    cases h : Peg.read reference string ⟨k, s⟩ with
    | none => exact .failed
    | some r =>
      obtain ⟨w, hw, x, v, _, _, hx, hv, rfl, -⟩ := reads_quotedKey _ _ _ h
      have hrest : (x :: v) ++ x :: r.1.rest = s' ++ a := by simpa using hw.rest.symm.trans hp
      have hspace : isSpace x = false := by rcases hx with rfl | rfl <;> rfl
      obtain ⟨u, hu, -⟩ := exists_rest hspace ha hrest
      exact h ▸ h' ▸ hread hx hv hu

end

end DynamicSql.Expr
