import DynamicSql.Proofs.Expr.TrailingBlanks

/-!
Blanks around an expression. Between its parts the grammar passes four characters; around a source all the
characters are taken away that Unicode counts as blanks. Main statement: what is left of a text that is read as
an expression is read as the same, because nothing that the grammar passes begins or ends with any other blank.
-/
namespace DynamicSql

namespace Expr

open Peg (Place Reading Reads Stretch)
open Grammar

variable {reference : Reading Rule} {first second body operand operator : Grammar} {rule : Rule}
  {S T U : Text → Prop} {s v w : Text}

/-- Something that neither begins nor ends with a blank, between blanks that the grammar passes. -/
def Framed (w : Text) : Prop :=
  ∃ before core after, w = before ++ (core ++ after) ∧ Spacing before ∧ Spacing after ∧ core ≠ [] ∧
    Text.Trimmed core

def Loose (w : Text) : Prop := Spacing w ∨ Framed w

/-- Trimming takes the blanks before and behind a framed text, and leaves something. -/
theorem Framed.trim (h : Framed w) : ∃ before after, w = before ++ (Text.trim w ++ after) ∧
    Spacing before ∧ Spacing after ∧ Text.trim w ≠ [] := by
  obtain ⟨before, core, after, rfl, hb, ha, hne, hcore⟩ := h
  rw [Text.trim_append hb.isBlank ha.isBlank hcore hne]
  exact ⟨before, after, rfl, hb, ha, hne⟩

theorem framed_of_ends {c d : Char} (hw : w.head? = some c) (hw' : w.getLast? = some d)
    (hc : Text.isBlank c = false) (hd : Text.isBlank d = false) : Framed w := by
  refine ⟨[], w, [], by simp, .nil, .nil, ?_, ?_, ?_⟩
  · rintro rfl
    cases hw
  · simpa [hw] using hc
  · simpa [hw'] using hd

theorem Framed.append (h : Framed w) (h' : Framed v) : Framed (w ++ v) := by
  obtain ⟨before, core, mid, rfl, hb, -, hne, hcore⟩ := h
  obtain ⟨mid', core', after, rfl, -, ha, hne', hcore'⟩ := h'
  refine ⟨before, core ++ (mid ++ (mid' ++ core')), after, by simp, hb, ha, by simp [hne], ?_, ?_⟩
  · rw [List.head?_append_of_ne_nil _ hne]
    exact hcore.head
  · rw [List.getLast?_append_of_ne_nil _ (by simp [hne']), List.getLast?_append_of_ne_nil _ (by simp [hne']),
      List.getLast?_append_of_ne_nil _ hne']
    exact hcore'.last

theorem Spacing.framed (ha : Spacing w) (h : Framed v) : Framed (w ++ v) := by
  obtain ⟨before, core, after, rfl, hb, hafter, hcore⟩ := h
  exact ⟨w ++ before, core, after, by simp, ha.append hb, hafter, hcore⟩

theorem Framed.spacing (h : Framed w) (ha : Spacing v) : Framed (w ++ v) := by
  obtain ⟨before, core, after, rfl, hb, hafter, hcore⟩ := h
  exact ⟨before, core, after ++ v, by simp, hb, hafter.append ha, hcore⟩

theorem Framed.loose (h : Framed w) (h' : Loose v) : Framed (w ++ v) := h'.elim h.spacing h.append

theorem Loose.framed (h : Loose w) (h' : Framed v) : Framed (w ++ v) := h.elim (·.framed h') (·.append h')

theorem Loose.append (h : Loose w) (h' : Loose v) : Loose (w ++ v) := by
  rcases h with h | h
  · exact h'.imp h.append h.framed
  · exact .inr (h.loose h')

/-- Reads as much with blanks at the end as without, and what it passes is as told. -/
structure Firm (S : Text → Prop) (reading : Reading Rule) : Prop where
  steady : Steady false reading
  reads : Reads (fun w _ => S w) reading

namespace Firm

theorem imp {reading : Reading Rule} (h : Firm S reading) (hst : ∀ w, S w → T w) : Firm T reading :=
  ⟨h.steady, h.reads.imp fun w _ => hst w⟩

theorem loose {reading : Reading Rule} (h : Firm Framed reading) : Firm Loose reading := h.imp fun _ => .inr

theorem seq (h : Firm S (Peg.read reference first)) (h' : Firm T (Peg.read reference second))
    (hu : ∀ w v, S w → T v → U (w ++ v)) : Firm U (Peg.read reference (.seq first second)) :=
  ⟨h.steady.seq h'.steady, h.reads.seq h'.reads fun w _ v _ => hu w v⟩

theorem alt (h : Firm S (Peg.read reference first)) (h' : Firm S (Peg.read reference second)) :
    Firm S (Peg.read reference (.alt first second)) :=
  ⟨h.steady.alt h'.steady, h.reads.alt h'.reads⟩

theorem node (h : Firm S (Peg.read reference body)) : Firm S (Peg.read reference (.node rule body)) :=
  ⟨h.steady.node, h.reads.node fun _ _ _ hw => hw⟩

/-- What may be missing is framed or empty. -/
theorem optional (h : Firm Framed (Peg.read reference body)) :
    Firm Loose (Peg.read reference (Peg.optional body)) :=
  h.loose.alt ⟨.empty, .empty (.inl .nil)⟩

section

variable (hpass : Peg.Passing reference)
include hpass

/-- Without blanks in what it reads, a grammar frames it. -/
theorem visible (hg : Expr.visible body = true) (hp : body.passes = true) :
    Firm Framed (Peg.read reference body) := by
  refine ⟨(steady_visible hpass body hg).weaken, fun p q ts hq => ?_⟩
  obtain ⟨w, hw, hblank⟩ := reads_visible body hg p q ts hq
  have hlt := Peg.read_passing hpass body hp p q ts hq
  have hne : w ≠ [] := by
    rintro rfl
    simp [hw.rest] at hlt
  exact ⟨w, hw, framed_of_ends (List.head?_eq_some_head hne) (List.getLast?_eq_some_getLast hne)
    (hblank _ (List.head_mem hne)) (hblank _ (List.getLast_mem hne))⟩

theorem spaces : Firm Spacing (Peg.read reference Grammar.spaces) :=
  ⟨steady_spaces hpass, reads_spaces.imp fun _ _ hw => hw.1⟩

theorem string : Firm Framed (Peg.read reference Grammar.string) := by
  refine ⟨(steady_string hpass).weaken, reads_quotedKey.imp ?_⟩
  rintro _ _ ⟨q, v, _, _, hq, -, rfl, -⟩
  have hblank : Text.isBlank q = false := by rcases hq with rfl | rfl <;> decide
  exact framed_of_ends (c := q) (d := q) rfl (by simp [List.getLast?_cons]) hblank hblank

/-- The second part may be left out. -/
theorem next (h : Firm Framed (Peg.read reference first)) (h' : Firm Loose (Peg.read reference second)) :
    Firm Framed (Peg.read reference (Grammar.next first second)) :=
  h.seq ((spaces hpass).seq h' fun _ _ ha hv => Loose.append (.inl ha) hv) fun _ _ => Framed.loose

/-- The first part may be left out. -/
theorem behind (h : Firm Loose (Peg.read reference first)) (h' : Firm Framed (Peg.read reference second)) :
    Firm Framed (Peg.read reference (Grammar.next first second)) :=
  h.seq ((spaces hpass).seq h' fun _ _ => Spacing.framed) fun _ _ => Loose.framed

/-- Turns begin behind the blanks between them, so the last one ends in none. -/
theorem many (hb : body.passes = true) (h : Firm Framed (Peg.read reference body)) :
    Firm Loose (Peg.read reference (Grammar.many body)) := by
  have hturn : Firm Framed (Peg.read reference (.seq Grammar.spaces body)) :=
    (spaces hpass).seq h fun _ _ => Spacing.framed
  have hturns : Firm Loose (Peg.read reference (.star (.seq Grammar.spaces body))) :=
    ⟨hturn.steady.star (Peg.read_passing hpass _ (by simp [Peg.passes, hb])),
      hturn.reads.star (.inl .nil) fun _ _ _ _ hw hv => Loose.append (.inr hw) hv⟩
  exact (h.seq hturns fun _ _ => Framed.loose).optional

/-- Operands with one kind of operator between them. -/
theorem chain (ho : Expr.visible operator = true) (hp : operator.passes = true)
    (h : Firm Framed (Peg.read reference operand)) :
    Firm Framed (Peg.read reference (Grammar.next operand (Grammar.many (Grammar.next operator operand)))) :=
  have hturn := (visible hpass ho hp).next hpass h.loose
  h.next hpass (many hpass (by simp [Grammar.next, Peg.passes, hp]) hturn)

/-- Operators of one kind before an operand. -/
theorem prefixed (ho : Expr.visible operator = true) (hp : operator.passes = true)
    (h : Firm Framed (Peg.read reference operand)) :
    Firm Framed (Peg.read reference (Grammar.next (Grammar.many operator) operand)) :=
  (many hpass hp (visible hpass ho hp)).behind hpass h

theorem pathSegment : Firm Framed (Peg.read reference Grammar.pathSegment) := by
  have hkey : Firm Framed (Peg.read reference (.alt index Grammar.string)) :=
    (visible hpass (by decide) rfl).alt (string hpass)
  have hdot : Firm Framed (Peg.read reference (Grammar.next (char '.') (.alt ident index))) :=
    (visible hpass (by decide) rfl).next hpass (visible hpass (by decide) rfl).loose
  have hclose : Firm Framed (Peg.read reference (char ']')) := visible hpass (by decide) rfl
  have hclosed := hkey.next hpass hclose.loose
  exact hdot.alt ((visible hpass (by decide) rfl).next hpass hclosed.loose)

theorem path : Firm Framed (Peg.read reference Grammar.path) := by
  have hkeyword : Firm Loose (Peg.read reference (.unless keyword)) :=
    ⟨(steady_visible hpass _ (by decide)).weaken, .unless (.inl .nil)⟩
  have hnames : Firm Framed (Peg.read reference (Grammar.next ident (Grammar.many Grammar.pathSegment))) :=
    (visible hpass (by decide) rfl).next hpass (many hpass rfl (pathSegment hpass))
  exact (hkeyword.behind hpass hnames).node

variable (h : Firm Framed reference)
include h

theorem primary : Firm Framed (Peg.read reference Grammar.primary) := by
  have hagain : Firm Framed (Peg.read reference .again) := h
  have hopen : Firm Framed (Peg.read reference (char '(')) := visible hpass (by decide) rfl
  have hclose : Firm Framed (Peg.read reference (char ')')) := visible hpass (by decide) rfl
  have hparentheses := hopen.next hpass (hagain.next hpass hclose.loose).loose
  exact (visible hpass (by decide) rfl).alt ((visible hpass (by decide) rfl).alt
    ((visible hpass (by decide) rfl).alt ((visible hpass (by decide) rfl).alt
      ((string hpass).alt (hparentheses.alt (path hpass))))))

/-- From the operands up to the rule that parentheses lead back to. -/
theorem orExpr : Firm Framed (Peg.read reference Grammar.orExpr) := by
  have hunary : Firm Framed (Peg.read reference unary) :=
    (prefixed hpass (by decide) rfl (primary hpass h)).node
  have hadditive : Firm Framed (Peg.read reference additive) := (chain hpass (by decide) rfl hunary).node
  have hcompare : Firm Framed (Peg.read reference Grammar.compareOp) := visible hpass (by decide) rfl
  have hright := hcompare.next hpass hadditive.loose
  have hcomparison : Firm Framed (Peg.read reference comparison) :=
    (hadditive.next hpass hright.optional).node
  have hnot : Firm Framed (Peg.read reference notExpr) := (prefixed hpass (by decide) rfl hcomparison).node
  have hand : Firm Framed (Peg.read reference andExpr) := (chain hpass (by decide) rfl hnot).node
  exact (chain hpass (by decide) rfl hand).node

/-- An expression and the blanks behind it, up to the end of the text. -/
theorem toEnd : Firm Framed (Peg.read reference (Grammar.next .again (.token .ending .ended))) := by
  have hagain : Firm Framed (Peg.read reference .again) := h
  have hended : Reads (fun w _ => Spacing w) (Peg.read reference (.token .ending .ended)) :=
    .token (.ended Spacing.nil) fun _ _ _ hw => hw
  have hblanks : Reads (fun w _ => Spacing w) (Peg.read reference Grammar.spaces) := (spaces hpass).reads
  exact hagain.seq ⟨steady_ending hpass, hblanks.seq hended fun _ _ _ _ hw hv => hw.append hv⟩
    fun _ _ => Framed.spacing

end

end Firm

/-- At every level blanks at the end change nothing, and what is read is framed. -/
theorem firm_level (level : Nat) : Firm Framed (Peg.readLevel orExpr level) := by
  induction level with
  | zero => exact ⟨fun _ _ _ _ _ => .failed, fun _ _ _ h => by cases h⟩
  | succ level ih => exact ih.orExpr (Peg.readLevel_passing rfl level)

/-! Whole texts. -/

/-- Without the blanks around it, a text is read as it is with them. -/
theorem alike_trim (hpass : Peg.Passing reference) (h : Firm Framed reference) (hs : Framed s) :
    ∃ a, Alike false a (Peg.read reference expression ⟨0, s⟩)
      (Peg.read reference expression ⟨0, Text.trim s⟩) := by
  obtain ⟨before, after, heq, hb, ha, hne⟩ := hs.trim
  have hhead : ∀ c ∈ (Text.trim s).head?, isSpace c = false :=
    fun c hc => isSpace_of_isBlank ((Text.trimmed_trim s).head c hc)
  have hhead' : ∀ c ∈ (Text.trim s ++ after).head?, isSpace c = false := by
    rwa [List.head?_append_of_ne_nil _ hne]
  obtain ⟨k, hk⟩ := read_behind hpass (next .again (.token .ending .ended)) 0 s
  obtain ⟨k', hk'⟩ := read_behind hpass (next .again (.token .ending .ended)) 0 (Text.trim s)
  rw [dropWhile_of_head hhead] at hk'
  conv at hk => rhs; rw [heq, hb.dropWhile hhead']
  rw [expression, Peg.read_node, Peg.read_node, hk, hk']
  exact ⟨after, ((h.toEnd hpass).steady after _ _ ha rfl).node 0 0⟩

theorem framed_of_parseTree {tree : Tree} (h : parseTree s = .ok tree) : Framed s := by
  obtain ⟨-, last, start, more, hread⟩ := parseTree_eq_ok_iff.mp h
  obtain ⟨_, hlast, -⟩ := read_expression (fun _ _ hw => hw.exists_eq) (enclosed_level _) hread
  have hpass : Peg.Passing (Peg.readLevel orExpr (maxNesting + 1)) := Peg.readLevel_passing rfl _
  have hparts : Reads (fun w _ => Framed w) (Peg.read (Peg.readLevel orExpr (maxNesting + 1)) expression) :=
    ((Firm.spaces hpass).seq ((firm_level _).toEnd hpass) fun _ _ => Spacing.framed).node.reads
  obtain ⟨w, hw, hs⟩ := hparts _ _ _ hread
  have hall : s = w := by simpa [hlast] using hw.rest
  exact hall ▸ hs

/-- The blanks around open nothing and close nothing. -/
theorem nestingOk_trim (hs : Framed s) (h : nestingOk s = true) : nestingOk (Text.trim s) = true := by
  obtain ⟨before, after, heq, hb, -, hne⟩ := hs.trim
  have hsame : isWhitespace = isSpace := funext isWhitespace_eq
  have hhead : ∀ c ∈ (Text.trim s ++ after).head?, isSpace c = false := by
    rw [List.head?_append_of_ne_nil _ hne]
    exact fun c hc => isSpace_of_isBlank ((Text.trimmed_trim s).head c hc)
  rw [nestingOk, heq, ← nestsWithin_dropWhile, hsame, hb.dropWhile hhead] at h
  exact nestsWithin_left h

theorem exists_parseTree_trim {tree : Tree} (h : parseTree s = .ok tree) :
    ∃ tree', parseTree (Text.trim s) = .ok tree' ∧ unplaced tree' = unplaced tree := by
  have hs := framed_of_parseTree h
  obtain ⟨hn, last, start, more, hread⟩ := parseTree_eq_ok_iff.mp h
  obtain ⟨a, halike⟩ := alike_trim (Peg.readLevel_passing rfl (maxNesting + 1)) (firm_level _) hs
  rw [hread] at halike
  generalize hread' : Peg.read _ expression ⟨0, Text.trim s⟩ = x at halike
  cases halike with
  | reached _ _ _ hts =>
    obtain ⟨start', tree', more', rfl, hsame⟩ := exists_of_unplacedAll hts
    exact ⟨tree', parseTree_eq_ok_iff.mpr ⟨nestingOk_trim hs hn, _, start', more', hread'⟩, hsame⟩

/-- The blanks around a text are no part of its expression. -/
theorem parse_trim {e : Expr} (h : parse s = .ok e) : parse (Text.trim s) = .ok e := by
  obtain ⟨tree, htree, he⟩ := parse_eq_ok_iff_tree.mp h
  obtain ⟨tree', htree', hsame⟩ := exists_parseTree_trim htree
  refine parse_eq_ok_iff_tree.mpr ⟨tree', htree', ?_⟩
  rw [← ofTree_unplaced, hsame, ofTree_unplaced, he]

end Expr

/-- The recorded source of an expression is the expression. -/
theorem Expression.parse_source {s : Text} {x : Expression} (h : Expression.parse s = .ok x) :
    Expression.parse x.source = .ok x := by
  obtain ⟨hexpr, hsource⟩ := Expression.parse_eq_ok_iff.mp h
  refine Expression.parse_eq_ok_iff.mpr ⟨hsource ▸ Expr.parse_trim hexpr, ?_⟩
  rw [hsource, (Text.trimmed_trim s).trim_eq]

end DynamicSql
