import DynamicSql.Proofs.Expr.Renaming
import DynamicSql.Proofs.Text
import DynamicSql.Value.Path

/-!
What a renaming of roots does to an expression: its paths begin with other names. Main statement:
every expression is one filling of a shape, and filled with other names it has the same value
wherever the new paths lead to what the old ones led to.
-/
namespace DynamicSql.Expr

open Shape (Fits slots)
open ShapeTree (Spans Cover Headed AllHeaded fill fillAll)

/-! Trees that differ in the first names of their paths. -/

variable {ρ : Text → Text} {roots : List Text} {σ τ : Nat → Text} {before stretch : Shape}

mutual

/-- The first names of paths are given anew; places do not count. -/
inductive Renamed (ρ : Text → Text) (roots : List Text) : Tree → Tree → Prop where
  | leaf {rule : Rule} {start start' : Nat} {w : Text} :
      Renamed ρ roots (.leaf rule start w) (.leaf rule start' w)
  | path {rule rule' : Rule} {start start' first first' : Nat} {x : Text} {rest rest' : List Tree} :
      x ∈ roots → pathTail rest = pathTail rest' →
      Renamed ρ roots (.node .path start (.leaf rule first x :: rest))
        (.node .path start' (.leaf rule' first' (ρ x) :: rest'))
  | node {rule : Rule} {start start' : Nat} {children children' : List Tree} : rule ≠ .path →
      AllRenamed ρ roots children children' →
      Renamed ρ roots (.node rule start children) (.node rule start' children')

inductive AllRenamed (ρ : Text → Text) (roots : List Text) : List Tree → List Tree → Prop where
  | nil : AllRenamed ρ roots [] []
  | cons {a b : Tree} {as bs : List Tree} : Renamed ρ roots a b → AllRenamed ρ roots as bs →
      AllRenamed ρ roots (a :: as) (b :: bs)

end

/-- Where no slot of the stretch is filled anew, the text between quotes stays. -/
theorem stringText_fill (hc : Cover before stretch ts) (h : ∀ i ∈ slots stretch, τ i = σ i) :
    stringText (fillAll σ ts) = stringText (fillAll τ ts) := by
  match ts with
  | [] => rfl
  | .leaf _ _ _ :: _ =>
    obtain ⟨gap, inner, after, rfl, ⟨rfl, rfl⟩, -⟩ := hc
    simp only [fillAll, fill, stringText]
    exact congrArg unescape (Shape.fill_congr fun i hi => (h i (by simp [hi])).symm)
  | .node _ _ _ :: _ => rfl

theorem pathTail_fill (hc : Cover before stretch ts) (h : ∀ i ∈ slots stretch, τ i = σ i) :
    pathTail (fillAll σ ts) = pathTail (fillAll τ ts) := by
  induction ts generalizing before stretch with
  | nil => rfl
  | cons t rest ih =>
    obtain ⟨gap, inner, after, rfl, ht, hr⟩ := hc
    have hrest := ih hr fun i hi => h i (by simp [hi])
    have hinner : ∀ i ∈ slots inner, τ i = σ i := fun i hi => h i (by simp [hi])
    cases t with
    | leaf rule start text =>
      obtain ⟨rfl, rfl⟩ := ht
      have htext : text.fill σ = text.fill τ := Shape.fill_congr fun i hi => (hinner i hi).symm
      simp only [fillAll, fill, htext]
      cases rule <;> simp only [pathTail, hrest]
    | node rule start children =>
      simp only [fillAll, fill, pathTail, hrest, stringText_fill ht.2 hinner]

mutual

/-- Filling the slots of first names anew gives first names anew. -/
theorem renamed_fill (t : ShapeTree) (before stretch : Shape) (hc : Spans before stretch t) (hh : Headed t)
    (hnodup : (slots stretch).Nodup) (hroots : ∀ i ∈ t.headSlots, σ i ∈ roots)
    (hτ : ∀ i ∈ slots stretch, τ i = if i ∈ t.headSlots then ρ (σ i) else σ i) :
    Renamed ρ roots (t.fill σ) (t.fill τ) := by
  match t with
  | .leaf rule start text =>
    obtain ⟨rfl, rfl⟩ := hc
    have htext : text.fill σ = text.fill τ :=
      Shape.fill_congr fun i hi =>
        ((hτ i hi).trans (if_neg (by simp [ShapeTree.headSlots, ShapeTree.heads]))).symm
    rw [fill, fill, htext]
    exact .leaf
  | .node rule start children =>
    obtain ⟨-, hc⟩ := hc
    by_cases hrule : rule = .path
    · subst hrule
      obtain ⟨rule, first, i, rest, rfl⟩ := hh
      obtain ⟨gap, inner, after, rfl, ⟨rfl, rfl⟩, hr⟩ := hc
      simp only [ShapeTree.headSlots, ShapeTree.heads, List.map_cons, List.map_nil,
        List.mem_singleton] at hroots hτ
      simp only [Shape.slots_append, Shape.slots_slot, List.nodup_append, List.nodup_cons,
        List.singleton_append] at hnodup
      have hi : τ i = ρ (σ i) := by simpa using hτ i (by simp)
      have hrest : ∀ j ∈ slots after, τ j = σ j := by
        intro j hj
        have hne : j ≠ i := fun he => hnodup.2.1.1 (he ▸ hj)
        simpa [hne] using hτ j (by simp [hj])
      simp only [fill, fillAll, Shape.fill_slot, Shape.fill_nil, List.append_nil, hi]
      exact .path (hroots i rfl) (pathTail_fill hr hrest)
    · rw [ShapeTree.headSlots, ShapeTree.heads_node hrule] at hroots hτ
      have hheaded := ShapeTree.allHeaded_of_node hrule hh
      exact .node hrule (allRenamed_fill children before stretch hc hheaded hnodup hroots hτ)

/-- Filled with renamed heads, the trees differ in the roots of their paths only. -/
theorem allRenamed_fill (ts : List ShapeTree) (before stretch : Shape) (hc : Cover before stretch ts)
    (hh : AllHeaded ts) (hnodup : (slots stretch).Nodup)
    (hroots : ∀ i ∈ (ShapeTree.headsOfAll ts).map Prod.snd, σ i ∈ roots)
    (hτ : ∀ i ∈ slots stretch, τ i = if i ∈ (ShapeTree.headsOfAll ts).map Prod.snd then ρ (σ i) else σ i) :
    AllRenamed ρ roots (fillAll σ ts) (fillAll τ ts) := by
  match ts with
  | [] => exact .nil
  | t :: rest =>
    obtain ⟨gap, inner, after, rfl, ht, hr⟩ := hc
    rw [AllHeaded] at hh
    have hfirst : ∀ i ∈ t.headSlots, i ∈ slots inner := by
      intro i hi
      obtain ⟨entry, he, rfl⟩ := List.mem_map.mp hi
      exact ShapeTree.mem_slots_of_placed (ShapeTree.placed_heads t _ inner ht hh.1) entry he
    have hlater : ∀ i ∈ (ShapeTree.headsOfAll rest).map Prod.snd, i ∈ slots after := by
      intro i hi
      obtain ⟨entry, he, rfl⟩ := List.mem_map.mp hi
      exact ShapeTree.mem_slots_of_placed (ShapeTree.placed_headsOfAll rest _ after hr hh.2) entry he
    have hmem : ∀ i, i ∈ (ShapeTree.headsOfAll (t :: rest)).map Prod.snd ↔
        i ∈ t.headSlots ∨ i ∈ (ShapeTree.headsOfAll rest).map Prod.snd := by
      intro i
      rw [ShapeTree.headsOfAll, List.map_append, List.mem_append]
      rfl
    simp only [Shape.slots_append, List.nodup_append] at hnodup
    obtain ⟨-, ⟨hinner, hafter, hdisjoint⟩, -⟩ := hnodup
    simp only [hmem] at hroots hτ
    refine .cons (renamed_fill t _ inner ht hh.1 hinner (fun i hi => hroots i (.inl hi)) fun i hi => ?_)
      (allRenamed_fill rest _ after hr hh.2 hafter (fun i hi => hroots i (.inr hi)) fun i hi => ?_)
    · have hnot : i ∉ (ShapeTree.headsOfAll rest).map Prod.snd := fun h => hdisjoint i hi i (hlater i h) rfl
      simpa [hnot] using hτ i (by simp [hi])
    · have hnot : i ∉ t.headSlots := fun h => hdisjoint i (hfirst i h) i hi rfl
      have hiff := or_iff_right (b := i ∈ (ShapeTree.headsOfAll rest).map Prod.snd) hnot
      rw [hτ i (by simp [hi])]
      simp only [hiff]

end

/-! Expressions that differ in their paths. -/

mutual

inductive Related (R : Text → Text → Prop) : Expr → Expr → Prop where
  | literal {v : Value} : Related R (.literal v) (.literal v)
  | path {p q : Text} : R p q → Related R (.path p) (.path q)
  | not {count : Nat} {e e' : Expr} : Related R e e' → Related R (.not count e) (.not count e')
  | neg {count : Nat} {e e' : Expr} : Related R e e' → Related R (.neg count e) (.neg count e')
  | and {es es' : List Expr} : AllRelated R es es' → Related R (.and es) (.and es')
  | or {es es' : List Expr} : AllRelated R es es' → Related R (.or es) (.or es')
  | compare {op : CompareOp} {l l' r r' : Expr} : Related R l l' → Related R r r' →
      Related R (.compare op l r) (.compare op l' r')
  | sum {e e' : Expr} {rest rest' : List (AddOp × Expr)} : Related R e e' → AddendsRelated R rest rest' →
      Related R (.sum e rest) (.sum e' rest')

inductive AllRelated (R : Text → Text → Prop) : List Expr → List Expr → Prop where
  | nil : AllRelated R [] []
  | cons {e e' : Expr} {es es' : List Expr} : Related R e e' → AllRelated R es es' →
      AllRelated R (e :: es) (e' :: es')

inductive AddendsRelated (R : Text → Text → Prop) : List (AddOp × Expr) → List (AddOp × Expr) → Prop where
  | nil : AddendsRelated R [] []
  | cons {op : AddOp} {e e' : Expr} {rest rest' : List (AddOp × Expr)} : Related R e e' →
      AddendsRelated R rest rest' → AddendsRelated R ((op, e) :: rest) ((op, e') :: rest')

end

variable {R : Text → Text → Prop} {scope scope' : Scope}

mutual

/-- Where related paths lead to the same, related expressions have the same value. -/
theorem eval_related (hscope : ∀ p q, R p q → scope' q = scope p) (e e' : Expr) (h : Related R e e') :
    eval scope' e' = eval scope e := by
  match e, e', h with
  | .literal _, _, .literal => rfl
  | .path p, _, .path hp => rw [eval, eval, hscope p _ hp]
  | .not _ e, _, .not he => rw [eval, eval, eval_related hscope e _ he]
  | .neg _ e, _, .neg he => rw [eval, eval, eval_related hscope e _ he]
  | .and es, _, .and hes => rw [eval, eval, evalAll_related hscope es _ hes]
  | .or es, _, .or hes => rw [eval, eval, evalAny_related hscope es _ hes]
  | .compare _ l r, _, .compare hl hr =>
    rw [eval, eval, eval_related hscope l _ hl, eval_related hscope r _ hr]
  | .sum e rest, _, .sum he hr =>
    rw [eval, eval, eval_related hscope e _ he]
    simp only [fun total => evalSum_related hscope total rest _ hr]

/-- A conjunction has the same value when its paths have. -/
theorem evalAll_related (hscope : ∀ p q, R p q → scope' q = scope p) (es es' : List Expr)
    (h : AllRelated R es es') : evalAll scope' es' = evalAll scope es := by
  match es, es', h with
  | [], _, .nil => rfl
  | e :: rest, _, .cons he hr =>
    rw [evalAll, evalAll, eval_related hscope e _ he, evalAll_related hscope rest _ hr]

theorem evalAny_related (hscope : ∀ p q, R p q → scope' q = scope p) (es es' : List Expr)
    (h : AllRelated R es es') : evalAny scope' es' = evalAny scope es := by
  match es, es', h with
  | [], _, .nil => rfl
  | e :: rest, _, .cons he hr =>
    rw [evalAny, evalAny, eval_related hscope e _ he, evalAny_related hscope rest _ hr]

/-- A sum has the same value when its paths have. -/
theorem evalSum_related (hscope : ∀ p q, R p q → scope' q = scope p) (total : Value)
    (es es' : List (AddOp × Expr)) (h : AddendsRelated R es es') :
    evalSum scope' total es' = evalSum scope total es := by
  match es, es', h with
  | [], _, .nil => rfl
  | (op, e) :: rest, _, .cons he hr =>
    rw [evalSum, evalSum, eval_related hscope e _ he]
    simp only [fun total => evalSum_related hscope total rest _ hr]

end

/-! From trees to expressions. -/

/-- Both fail alike, or both come to something, and that is related. -/
inductive Parallel {α β : Type} (r : α → β → Prop) : Except ParseError α → Except ParseError β → Prop where
  | error (e : ParseError) : Parallel r (.error e) (.error e)
  | ok {a : α} {b : β} : r a b → Parallel r (.ok a) (.ok b)

namespace Parallel

variable {α β γ δ : Type} {r : α → β → Prop} {q : γ → δ → Prop} {x : Except ParseError α}
  {y : Except ParseError β}

theorem bind (h : Parallel r x y) {f : α → Except ParseError γ} {g : β → Except ParseError δ}
    (hfg : ∀ a b, r a b → Parallel q (f a) (g b)) : Parallel q (x >>= f) (y >>= g) := by
  cases h with
  | error e => exact .error e
  | ok hr => exact hfg _ _ hr

theorem map (h : Parallel r x y) {f : α → γ} {g : β → δ} (hfg : ∀ a b, r a b → q (f a) (g b)) :
    Parallel q (x.map f) (y.map g) := by
  cases h with
  | error e => exact .error e
  | ok hr => exact .ok (hfg _ _ hr)

theorem exists_ok (h : Parallel r x y) {a : α} (hx : x = .ok a) : ∃ b, y = .ok b ∧ r a b := by
  subst hx
  cases h with
  | ok hr => exact ⟨_, rfl, hr⟩

end Parallel

def IsTail (tail : Text) : Prop := ∀ c ∈ tail.head?, c = '.' ∨ c = '['

def Rerooted (ρ : Text → Text) (roots : List Text) (p q : Text) : Prop :=
  ∃ x ∈ roots, ∃ tail, IsTail tail ∧ p = x ++ tail ∧ q = ρ x ++ tail

theorem isTail_pathTail (ts : List Tree) : IsTail (pathTail ts) := by
  match ts with
  | [] => simp [pathTail, IsTail]
  | .leaf rule _ _ :: _ => cases rule <;> simp [pathTail, IsTail]
  | .node _ _ _ :: _ => simp [pathTail, IsTail]

/-- One operand is no chain on either side. -/
theorem AllRelated.chain {es es' : List Expr} {join : List Expr → Expr} (h : AllRelated R es es')
    (hj : ∀ es es', AllRelated R es es' → Related R (join es) (join es')) :
    Related R (chain join es) (chain join es') := by
  cases h with
  | nil => exact hj _ _ .nil
  | cons he hr =>
    cases hr with
    | nil => exact he
    | cons he' hr => exact hj _ _ (.cons he (.cons he' hr))

theorem Related.counted {e e' : Expr} {wrap : Nat → Expr → Expr} (h : Related R e e')
    (hw : ∀ n e e', Related R e e' → Related R (wrap n e) (wrap n e')) (count : Nat) :
    Related R (counted wrap count e) (counted wrap count e') := by
  unfold Expr.counted
  split
  · exact h
  · exact hw _ _ _ h

/-- Quoted texts are the same on both sides. -/
theorem stringText_renamed {ts ts' : List Tree} (h : AllRenamed ρ roots ts ts') :
    stringText ts = stringText ts' := by
  cases h with
  | nil => rfl
  | cons h _ => cases h <;> rfl

/-- Where a leaf begins is no part of its expression. -/
theorem parallel_leaf (rule : Rule) (start start' : Nat) (w : Text) :
    Parallel (Related R) (ofTree (.leaf rule start w)) (ofTree (.leaf rule start' w)) := by
  cases rule
  case null => exact .ok .literal
  case bool => exact .ok .literal
  case int =>
    simp only [ofTree]
    split
    · exact .ok .literal
    · exact .error _
  case float =>
    simp only [ofTree]
    split
    · exact .ok .literal
    · exact .error _
  all_goals exact .error _

/-- What the tree stands for is related to what any tree with other first names stands for. -/
def Carries (ρ : Text → Text) (roots : List Text) (t : Tree) : Prop :=
  ∀ t', Renamed ρ roots t t' → Parallel (Related (Rerooted ρ roots)) (ofTree t) (ofTree t')

section

variable {t t' : Tree} {ts ts' : List Tree} (h : AllRenamed ρ roots ts ts')
  (hts : ∀ t ∈ ts, Carries ρ roots t)

include h hts

theorem parallel_ofOperands : Parallel (AllRelated (Rerooted ρ roots)) (ofOperands ts) (ofOperands ts') := by
  induction ts generalizing ts' with
  | nil =>
    cases h
    exact .ok .nil
  | cons t rest ih =>
    obtain ⟨ht, hrest⟩ := List.forall_mem_cons.mp hts
    cases h with
    | cons hn hr =>
      have hfirst := ht _ hn
      have hlater := ih hr hrest
      have hcons := hfirst.bind fun e e' he => hlater.bind fun es es' hes =>
        (Parallel.ok (.cons he hes) :
          Parallel (AllRelated (Rerooted ρ roots)) (.ok (e :: es)) (.ok (e' :: es')))
      cases hn with
      | leaf => exact hlater
      | path => exact hcons
      | node => exact hcons

theorem parallel_ofPrefixed (wrap : Nat → Expr → Expr)
    (hw : ∀ n e e', Related (Rerooted ρ roots) e e' → Related (Rerooted ρ roots) (wrap n e) (wrap n e'))
    (count : Nat) :
    Parallel (Related (Rerooted ρ roots)) (ofPrefixed wrap count ts) (ofPrefixed wrap count ts') := by
  induction ts generalizing ts' count with
  | nil =>
    cases h
    exact .error _
  | cons t rest ih =>
    obtain ⟨ht, hrest⟩ := List.forall_mem_cons.mp hts
    cases h with
    | cons hn hr =>
      have hone := (ht _ hn).map fun _ _ he => he.counted hw count
      cases hn with
      | @leaf rule start start' w =>
        cases rule
        case notOp => exact ih hr hrest (count + 1)
        case negOp => exact ih hr hrest (count + 1)
        all_goals exact hone
      | path => exact hone
      | node => exact hone

theorem parallel_ofComparison :
    Parallel (Related (Rerooted ρ roots)) (ofComparison ts) (ofComparison ts') := by
  cases h with
  | nil => exact .error _
  | cons ht hr =>
    have hleft := hts _ List.mem_cons_self _ ht
    cases hr with
    | nil => exact hleft
    | cons hop hr =>
      cases hr with
      | nil => cases hop <;> exact .error _
      | cons ht' hr =>
        have hright := hts _ (by simp) _ ht'
        cases hr with
        | cons _ _ => cases hop <;> exact .error _
        | nil =>
          cases hop with
          | leaf => exact hleft.bind fun _ _ he => hright.bind fun _ _ hf => .ok (.compare he hf)
          | path => exact .error _
          | node => exact .error _

theorem parallel_ofAddends : Parallel (AddendsRelated (Rerooted ρ roots)) (ofAddends ts) (ofAddends ts') := by
  induction hn : ts.length using Nat.strongRecOn generalizing ts ts' with
  | _ n ih =>
    subst hn
    cases h with
    | nil => exact .ok .nil
    | cons hop hr =>
      cases hr with
      | nil => cases hop <;> exact .error _
      | cons ht hr =>
        have hfirst := hts _ (by simp) _ ht
        have hlater := ih _ (by simp only [List.length_cons]; omega) hr (fun t hm => hts t (by simp [hm])) rfl
        cases hop with
        | leaf => exact hfirst.bind fun _ _ he => hlater.bind fun _ _ hes => .ok (.cons he hes)
        | path => exact .error _
        | node => exact .error _

/-- Sums of renamed operands are built alike. -/
theorem parallel_ofSum : Parallel (Related (Rerooted ρ roots)) (ofSum ts) (ofSum ts') := by
  cases h with
  | nil => exact .error _
  | cons ht hr =>
    have hfirst := hts _ List.mem_cons_self _ ht
    have hlater := parallel_ofAddends hr fun t hm => hts t (List.mem_cons_of_mem _ hm)
    cases hr with
    | nil => exact hfirst
    | cons _ _ => exact hfirst.bind fun _ _ he => hlater.bind fun _ _ hes => .ok (.sum he hes)

end

/-- Trees that differ in first names stand for expressions whose paths differ in them. -/
theorem carries (t : Tree) : Carries ρ roots t := by
  induction t using Peg.Tree.structural with
  | leaf rule start w =>
    intro t' h
    cases h
    exact parallel_leaf _ _ _ _
  | node rule start children ih =>
    intro t' h
    cases h with
    | path hx htail =>
      simp only [ofTree, pathText, htail]
      exact .ok (.path ⟨_, hx, _, isTail_pathTail _, rfl, rfl⟩)
    | node hrule hc =>
      cases rule
      case path => exact absurd rfl hrule
      case string =>
        simp only [ofTree, stringText_renamed hc]
        exact .ok .literal
      case orExpr => exact (parallel_ofOperands hc ih).map fun _ _ h => h.chain fun _ _ => .or
      case andExpr => exact (parallel_ofOperands hc ih).map fun _ _ h => h.chain fun _ _ => .and
      case notExpr => exact parallel_ofPrefixed hc ih .not (fun _ _ _ => .not) 0
      case unary => exact parallel_ofPrefixed hc ih .neg (fun _ _ _ => .neg) 0
      case comparison => exact parallel_ofComparison hc ih
      case additive => exact parallel_ofSum hc ih
      all_goals exact .error _

/--
The value stays the same where the new names, with what follows them, lead to what the old ones led
to.
-/
theorem Related.eval_rerooted {e e' : Expr} (h : Related (Rerooted ρ roots) e e') {scope scope' : Scope}
    (hscope : ∀ x ∈ roots, ∀ tail, IsTail tail → scope' (ρ x ++ tail) = scope (x ++ tail)) :
    eval scope' e' = eval scope e := by
  refine eval_related ?_ e e' h
  rintro p q ⟨x, hx, tail, htail, rfl, rfl⟩
  exact hscope x hx tail htail

def rootsOf (tree : Tree) : List Text := (heads tree).map Prod.snd

/-- Every root stays as it is, or gives way to a name. -/
def Sound (roots : List Text) (ρ : Text → Text) : Prop := ∀ x ∈ roots, ρ x = x ∨ IsName (ρ x)

/--
An expression is one filling of a shape in which every choice of roots is an expression as well, with paths
that begin with them.
-/
theorem exists_refill_related {s : Text} {tree : Tree} {e : Expr} (h : parseTree s = .ok tree)
    (he : ofTree tree = .ok e) :
    ∃ (shape : Shape) (refill : (Text → Text) → Nat → Text), shape.fill (refill id) = s ∧
      (∀ x ∈ rootsOf tree, IsName x) ∧ ∀ ρ, Sound (rootsOf tree) ρ → Fits (refill ρ) shape ∧
        (∀ renames, ∃ r, renameRoots (shape.fill (refill ρ)) renames = .ok r ∧
          r.getD (shape.fill (refill ρ)) = shape.fill (refill fun x => Renames.apply renames (ρ x))) ∧
        ∃ e', parse (shape.fill (refill ρ)) = .ok e' ∧ Related (Rerooted ρ (rootsOf tree)) e e' := by
  obtain ⟨shape, σ, t, rfl, hσ, hnodup, rfl, hc, hh, hparse⟩ := parseTree_fill h
  have hroots : rootsOf (t.fill σ) = t.headSlots.map σ := by
    rw [rootsOf, ShapeTree.heads_fill t hh, ShapeTree.headSlots, List.map_map, List.map_map]
    rfl
  obtain ⟨gap, inner, after, rfl, hspan, -⟩ := hc
  refine ⟨gap ++ (inner ++ after), fun ρ => renameAt t.headSlots ρ σ, ?_, fun x hx => ?_, fun ρ hρ => ?_⟩
  · exact Shape.fill_congr fun i _ => by simp [renameAt]
  · rw [hroots] at hx
    obtain ⟨i, hi, rfl⟩ := List.mem_map.mp hx
    obtain ⟨entry, hentry, rfl⟩ := List.mem_map.mp hi
    have hmem := ShapeTree.mem_slots_of_placed (ShapeTree.placed_heads t _ inner hspan hh) entry hentry
    exact hσ entry.2 (by simp [hmem])
  · rw [hroots] at hρ ⊢
    have hfits : Fits (renameAt t.headSlots ρ σ) (gap ++ (inner ++ after)) := by
      intro i hi
      unfold renameAt
      split
      · next hm =>
        rcases hρ (σ i) (List.mem_map_of_mem hm) with hstays | hname
        · exact hstays.symm ▸ hσ i hi
        · exact hname
      · exact hσ i hi
    refine ⟨hfits, fun renames => ?_, ?_⟩
    · have hc : ShapeTree.Cover [] (gap ++ (inner ++ after)) [t] := ⟨gap, inner, after, rfl, hspan, trivial⟩
      obtain ⟨r, hr, hrd⟩ := renameRoots_fill (hparse _ hfits) hc hh hnodup renames
      refine ⟨r, hr, hrd.trans (Shape.fill_congr fun i _ => ?_)⟩
      by_cases hm : i ∈ t.headSlots <;> simp [renameAt, hm]
    · have hinner : ∀ i ∈ slots inner,
          renameAt t.headSlots ρ σ i = if i ∈ t.headSlots then ρ (σ i) else σ i :=
        fun _ _ => rfl
      simp only [Shape.slots_append, List.nodup_append] at hnodup
      have hrenamed : Renamed ρ (t.headSlots.map σ) (t.fill σ) (t.fill (renameAt t.headSlots ρ σ)) :=
        renamed_fill t _ inner hspan hh hnodup.2.1.1 (fun i hi => List.mem_map_of_mem hi) hinner
      obtain ⟨e', he', hrelated⟩ := (carries _ _ hrenamed).exists_ok he
      refine ⟨e', ?_, hrelated⟩
      rw [parse, hparse _ hfits]
      exact he'

/-- Every choice of roots has the same value, where the new roots lead to what the old ones led to. -/
theorem exists_refill {s : Text} {tree : Tree} {e : Expr} (h : parseTree s = .ok tree)
    (he : ofTree tree = .ok e) :
    ∃ (shape : Shape) (refill : (Text → Text) → Nat → Text), shape.fill (refill id) = s ∧
      (∀ x ∈ rootsOf tree, IsName x) ∧ ∀ ρ, Sound (rootsOf tree) ρ → Fits (refill ρ) shape ∧
        (∀ renames, ∃ r, renameRoots (shape.fill (refill ρ)) renames = .ok r ∧
          r.getD (shape.fill (refill ρ)) = shape.fill (refill fun x => Renames.apply renames (ρ x))) ∧
        ∃ e', parse (shape.fill (refill ρ)) = .ok e' ∧ ∀ scope scope' : Scope,
          (∀ x ∈ rootsOf tree, ∀ tail, IsTail tail → scope' (ρ x ++ tail) = scope (x ++ tail)) →
          eval scope' e' = eval scope e := by
  obtain ⟨shape, refill, hs, hname, hrefill⟩ := exists_refill_related h he
  refine ⟨shape, refill, hs, hname, fun ρ hρ => ?_⟩
  obtain ⟨hfits, hrenames, e', he', hrelated⟩ := hrefill ρ hρ
  exact ⟨hfits, hrenames, e', he', fun _ _ => hrelated.eval_rerooted⟩

end DynamicSql.Expr

namespace DynamicSql

open DynamicSql.Expr (IsIdentifier IsTail)
open DynamicSql.Expr.Grammar (isNameChar isLetter)

/-! Letters, digits and blanks. -/

theorem toNat_of_isNameChar {c : Char} (h : isNameChar c = true) : 33 ≤ c.toNat ∧ c.toNat ≤ 122 := by
  delta isNameChar isLetter Char.isAlpha Char.isUpper Char.isLower at h
  simp only [Char.isDigit, Bool.or_eq_true, Bool.and_eq_true, decide_eq_true_eq, UInt32.le_iff_toNat_le,
    ge_iff_le] at h
  rcases h with (((h | h) | rfl) | rfl) | h
  · have : 65 ≤ c.toNat ∧ c.toNat ≤ 90 := by simpa using h
    omega
  · have : 97 ≤ c.toNat ∧ c.toNat ≤ 122 := by simpa using h
    omega
  · decide
  · decide
  · have : 48 ≤ c.toNat ∧ c.toNat ≤ 57 := by simpa using h
    omega

theorem isBlank_of_isNameChar {c : Char} (h : isNameChar c = true) : Text.isBlank c = false := by
  obtain ⟨hlow, hhigh⟩ := toNat_of_isNameChar h
  simp [Text.isBlank, Text.blankRanges]
  omega

theorem trimmed_of_isNameChar {w : Text} (h : ∀ c ∈ w, isNameChar c = true) : Text.Trimmed w where
  head c hc := isBlank_of_isNameChar (h c (List.mem_of_mem_head? hc))
  last c hc := isBlank_of_isNameChar (h c (List.mem_of_mem_getLast? hc))

/-! The segments of a path that begins with a name. -/

theorem isMark_of_isNameChar {c : Char} (h : isNameChar c = true) : Path.isMark c = false := by
  by_contra hm
  simp only [Path.isMark, Bool.or_eq_true, decide_eq_true_eq, Bool.not_eq_false] at hm
  rcases hm with (rfl | rfl) | rfl <;> exact absurd h (by decide)

/-- A name has no marks, so it is one segment. -/
theorem segments_identifier {x : Text} (hx : IsIdentifier x) : Path.segments x = [x] := by
  have hmark : ∀ c ∈ x, Path.isMark c = false := fun c hc => isMark_of_isNameChar (hx.isNameChar c hc)
  have htrim : Text.trim x = x := (trimmed_of_isNameChar hx.isNameChar).trim_eq
  simp [Path.segments, Text.pieces_of_not_mark hmark, htrim, hx.ne_nil]

/-- Before a tail the name is a segment of its own. -/
theorem segments_tail {x tail : Text} (hx : IsIdentifier x) (ht : IsTail tail) :
    Path.segments (x ++ tail) = x :: Path.segments (tail.drop 1) := by
  cases tail with
  | nil =>
    rw [List.append_nil, segments_identifier hx]
    rfl
  | cons c r =>
    have hc : Path.isMark c = true := by
      rcases ht c rfl with rfl | rfl <;> decide
    rw [Path.segments_append_mark hc, segments_identifier hx]
    rfl

end DynamicSql
