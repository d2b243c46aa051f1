import DynamicSql.Proofs.Expr.Acceptance
import DynamicSql.Proofs.Expr.Roots

/-!
Renaming in the source is substitution in the expression. Main statement: the renamed source is read as the
expression with the first names of its paths replaced, all at once, and nothing else changed; there is no
renamed source exactly where no path begins with one of the names.
-/
namespace DynamicSql

def Path.root (p : Text) : Text := (segments p).headD []

namespace Expr

mutual

def paths : Expr → List Text
  | literal _ => []
  | path p => [p]
  | not _ e | neg _ e => paths e
  | and es | or es => pathsOfAll es
  | compare _ left right => paths left ++ paths right
  | sum first rest => paths first ++ pathsOfAddends rest

def pathsOfAll : List Expr → List Text
  | [] => []
  | e :: rest => paths e ++ pathsOfAll rest

def pathsOfAddends : List (AddOp × Expr) → List Text
  | [] => []
  | (_, e) :: rest => paths e ++ pathsOfAddends rest

end

mutual

def mapPaths (f : Text → Text) : Expr → Expr
  | literal v => literal v
  | path p => path (f p)
  | not count e => not count (mapPaths f e)
  | neg count e => neg count (mapPaths f e)
  | and es => and (mapAll f es)
  | or es => or (mapAll f es)
  | compare op left right => compare op (mapPaths f left) (mapPaths f right)
  | sum first rest => sum (mapPaths f first) (mapAddends f rest)

def mapAll (f : Text → Text) : List Expr → List Expr
  | [] => []
  | e :: rest => mapPaths f e :: mapAll f rest

def mapAddends (f : Text → Text) : List (AddOp × Expr) → List (AddOp × Expr)
  | [] => []
  | (op, e) :: rest => (op, mapPaths f e) :: mapAddends f rest

end

/-- The path with the alias of its first segment in its place. -/
def reroot (renames : Renames) (p : Text) : Text :=
  Renames.apply renames (Path.root p) ++ p.drop (Path.root p).length

variable {R : Text → Text → Prop} {f : Text → Text} {scope scope' : Scope} {renames : Renames}
  {p x tail : Text}

mutual

/-- An expression is related to itself with its paths mapped. -/
theorem related_mapPaths (e : Expr) (h : ∀ p ∈ e.paths, R p (f p)) : Related R e (e.mapPaths f) := by
  match e with
  | literal v => exact .literal
  | path p => exact .path (h p List.mem_cons_self)
  | not count e => exact .not (related_mapPaths e h)
  | neg count e => exact .neg (related_mapPaths e h)
  | and es => exact .and (related_mapAll es h)
  | or es => exact .or (related_mapAll es h)
  | compare op left right =>
    rw [paths, List.forall_mem_append] at h
    exact .compare (related_mapPaths left h.1) (related_mapPaths right h.2)
  | sum first rest =>
    rw [paths, List.forall_mem_append] at h
    exact .sum (related_mapPaths first h.1) (related_mapAddends rest h.2)

theorem related_mapAll (es : List Expr) (h : ∀ p ∈ pathsOfAll es, R p (f p)) :
    AllRelated R es (mapAll f es) := by
  match es with
  | [] => exact .nil
  | e :: rest =>
    rw [pathsOfAll, List.forall_mem_append] at h
    exact .cons (related_mapPaths e h.1) (related_mapAll rest h.2)

theorem related_mapAddends (es : List (AddOp × Expr)) (h : ∀ p ∈ pathsOfAddends es, R p (f p)) :
    AddendsRelated R es (mapAddends f es) := by
  match es with
  | [] => exact .nil
  | (op, e) :: rest =>
    rw [pathsOfAddends, List.forall_mem_append] at h
    exact .cons (related_mapPaths e h.1) (related_mapAddends rest h.2)

end

/-- The value is that of the new paths. -/
theorem eval_mapPaths {e : Expr} (h : ∀ p ∈ e.paths, scope' (f p) = scope p) :
    (e.mapPaths f).eval scope' = e.eval scope :=
  eval_related (fun _ _ hp => hp) e _ (related_mapPaths (R := fun p q => scope' q = scope p) e h)

mutual

@[simp] theorem mapPaths_id (e : Expr) : e.mapPaths id = e := by
  match e with
  | literal _ | path _ => rfl
  | not _ e => rw [mapPaths, mapPaths_id e]
  | neg _ e => rw [mapPaths, mapPaths_id e]
  | and es => rw [mapPaths, mapAll_id es]
  | or es => rw [mapPaths, mapAll_id es]
  | compare _ left right => rw [mapPaths, mapPaths_id left, mapPaths_id right]
  | sum first rest => rw [mapPaths, mapPaths_id first, mapAddends_id rest]

theorem mapAll_id (es : List Expr) : mapAll id es = es := by
  match es with
  | [] => rfl
  | e :: rest => rw [mapAll, mapPaths_id e, mapAll_id rest]

theorem mapAddends_id (es : List (AddOp × Expr)) : mapAddends id es = es := by
  match es with
  | [] => rfl
  | (op, e) :: rest => rw [mapAddends, mapPaths_id e, mapAddends_id rest]

end

/-- The value depends on what the paths lead to and on nothing else. -/
theorem eval_congr {e : Expr} (h : ∀ p ∈ e.paths, scope p = scope' p) : e.eval scope = e.eval scope' := by
  have heval : (e.mapPaths id).eval scope = e.eval scope' := eval_mapPaths h
  rwa [mapPaths_id] at heval

mutual

/-- Expressions whose paths are related by a function differ by it. -/
theorem Related.eq_mapPaths (hf : ∀ p q, R p q → q = f p) (e e' : Expr) (h : Related R e e') :
    e' = e.mapPaths f := by
  match e, e', h with
  | .literal _, _, .literal => rfl
  | .path p, _, .path hp => rw [mapPaths, hf p _ hp]
  | .not _ e, _, .not he => rw [mapPaths, Related.eq_mapPaths hf e _ he]
  | .neg _ e, _, .neg he => rw [mapPaths, Related.eq_mapPaths hf e _ he]
  | .and es, _, .and hes => rw [mapPaths, AllRelated.eq_mapAll hf es _ hes]
  | .or es, _, .or hes => rw [mapPaths, AllRelated.eq_mapAll hf es _ hes]
  | .compare _ l r, _, .compare hl hr =>
    rw [mapPaths, Related.eq_mapPaths hf l _ hl, Related.eq_mapPaths hf r _ hr]
  | .sum e rest, _, .sum he hr =>
    rw [mapPaths, Related.eq_mapPaths hf e _ he, AddendsRelated.eq_mapAddends hf rest _ hr]

/-- Operands related by a function are the operands mapped by it. -/
theorem AllRelated.eq_mapAll (hf : ∀ p q, R p q → q = f p) (es es' : List Expr) (h : AllRelated R es es') :
    es' = mapAll f es := by
  match es, es', h with
  | [], _, .nil => rfl
  | e :: rest, _, .cons he hr =>
    rw [mapAll, Related.eq_mapPaths hf e _ he, AllRelated.eq_mapAll hf rest _ hr]

theorem AddendsRelated.eq_mapAddends (hf : ∀ p q, R p q → q = f p) (es es' : List (AddOp × Expr))
    (h : AddendsRelated R es es') : es' = mapAddends f es := by
  match es, es', h with
  | [], _, .nil => rfl
  | (_, e) :: rest, _, .cons he hr =>
    rw [mapAddends, Related.eq_mapPaths hf e _ he, AddendsRelated.eq_mapAddends hf rest _ hr]

end

/-! The first names in a tree are the roots of what it denotes. -/

theorem root_append (hx : IsIdentifier x) (ht : IsTail tail) : Path.root (x ++ tail) = x := by
  rw [Path.root, segments_tail hx ht, List.headD_cons]

/-- Only the root of a path is replaced; its tail stays. -/
theorem reroot_append (hx : IsIdentifier x) (ht : IsTail tail) :
    reroot renames (x ++ tail) = Renames.apply renames x ++ tail := by
  rw [reroot, root_append hx ht, List.drop_left]

theorem Segments.isTail {ts : List Tree} (h : Segments ts tail) : IsTail tail :=
  h.eq_pathTail ▸ isTail_pathTail ts

theorem heads_node {rule : Rule} (hr : rule ≠ .path) (start : Nat) (children : List Tree) :
    heads (.node rule start children) = headsOfAll children := by
  cases rule <;> first | exact absurd rfl hr | simp [heads]

theorem headsOfAll_append (ts us : List Tree) : headsOfAll (ts ++ us) = headsOfAll ts ++ headsOfAll us := by
  induction ts with
  | nil => rfl
  | cons t ts ih => simp [headsOfAll, ih]

theorem Operators.headsOfAll_eq {rule : Rule} {ops : List Tree} (h : Operators rule ops) :
    headsOfAll ops = [] := by
  induction ops with
  | nil => rfl
  | cons o ops ih =>
    obtain ⟨start, w, rfl⟩ := h o List.mem_cons_self
    rw [headsOfAll, ih fun t ht => h t (List.mem_cons_of_mem _ ht)]
    rfl

/-- Each path begins with the first name in its place. -/
def Begin : List (Nat × Text) → List Text → Prop :=
  List.Forall₂ fun entry p => ∃ tail, IsTail tail ∧ p = entry.2 ++ tail

theorem Begin.append {hs hs' : List (Nat × Text)} {ps ps' : List Text} (h : Begin hs ps) (h' : Begin hs' ps') :
    Begin (hs ++ hs') (ps ++ ps') := List.rel_append h h'

mutual

/-- The heads of a tree and the paths of what it denotes come in the same order. -/
theorem Denotes.begin {t : Tree} {e : Expr} (h : Denotes t e) : Begin (heads t) e.paths := by
  cases h with
  | null | true | false | int _ _ | float _ _ => exact .nil
  | string hs =>
    rw [heads_node (by decide), headsOfAll, headsOfAll]
    exact .nil
  | path h => exact .cons ⟨_, h.isTail, rfl⟩ .nil
  | @layer outer part start start' ts e hl h =>
    have hr : outer ≠ .path := by
      rintro rfl
      simp [layers] at hl
    rw [heads_node hr, headsOfAll, headsOfAll, List.append_nil]
    exact h.begin
  | primary h =>
    rw [heads_node (by decide), headsOfAll, headsOfAll, List.append_nil]
    exact h.begin
  | or h hl =>
    rw [heads_node (by decide)]
    exact h.begin
  | and h hl =>
    rw [heads_node (by decide)]
    exact h.begin
  | @not _ ops operand _ ho hne h | @neg _ ops operand _ ho hne h =>
    have hlt := List.sizeOf_lt_of_mem (List.mem_append_right ops (List.mem_singleton_self operand))
    rw [heads_node (by decide), headsOfAll_append, ho.headsOfAll_eq, headsOfAll, headsOfAll, List.append_nil]
    exact h.begin
  | compare hc hl hr =>
    rw [heads_node (by decide), headsOfAll, headsOfAll, headsOfAll, headsOfAll, List.append_nil]
    exact hl.begin.append hr.begin
  | sum h hs hne =>
    rw [heads_node (by decide), headsOfAll]
    exact h.begin.append hs.begin
termination_by sizeOf t

theorem Operands.begin {op part : Rule} {ts : List Tree} {es : List Expr} (h : Operands op part ts es) :
    Begin (headsOfAll ts) (pathsOfAll es) := by
  cases h with
  | last h =>
    rw [headsOfAll, headsOfAll, pathsOfAll, pathsOfAll, List.append_nil, List.append_nil]
    exact h.begin
  | cons h hs =>
    rw [headsOfAll, headsOfAll, pathsOfAll]
    exact h.begin.append hs.begin
termination_by sizeOf ts

theorem Addends.begin {ts : List Tree} {es : List (AddOp × Expr)} (h : Addends ts es) :
    Begin (headsOfAll ts) (pathsOfAddends es) := by
  cases h with
  | nil => exact .nil
  | cons ho h hs =>
    rw [headsOfAll, headsOfAll, pathsOfAddends]
    exact h.begin.append hs.begin
termination_by sizeOf ts

end

/-- The roots of paths that begin with names are these names. -/
theorem Begin.roots {hs : List (Nat × Text)} {ps : List Text} (h : Begin hs ps)
    (hnames : ∀ y ∈ hs.map Prod.snd, IsIdentifier y) : ps.map Path.root = hs.map Prod.snd := by
  induction h with
  | nil => rfl
  | cons hp _ ih =>
    obtain ⟨tail, ht, rfl⟩ := hp
    rw [List.map_cons, List.forall_mem_cons] at hnames
    rw [List.map_cons, List.map_cons, root_append hnames.1 ht, ih hnames.2]

/-- Every path is a head with a tail. -/
theorem Begin.exists_tail {hs : List (Nat × Text)} {ps : List Text} (h : Begin hs ps) :
    ∀ p ∈ ps, ∃ y ∈ hs.map Prod.snd, ∃ tail, IsTail tail ∧ p = y ++ tail := by
  induction h with
  | nil => simp
  | cons hp _ ih =>
    obtain ⟨tail, ht, rfl⟩ := hp
    refine List.forall_mem_cons.mpr ⟨⟨_, List.mem_cons_self, tail, ht, rfl⟩, fun p hm => ?_⟩
    obtain ⟨y, hy, hrest⟩ := ih p hm
    exact ⟨y, List.mem_cons_of_mem _ hy, hrest⟩

/-! Names that are renamed, and others. -/

theorem lookup_eq_none_iff : renames.lookup x = none ↔ x ∉ renames.map Prod.fst := by
  rw [List.lookup_eq_none_iff, List.mem_map]
  constructor
  · rintro h ⟨rename, hr, rfl⟩
    simpa using h rename hr
  · intro h rename hr
    rw [bne_iff_ne]
    exact fun heq => h ⟨rename, hr, heq.symm⟩

/-- Other names stay as they are. -/
theorem Renames.apply_of_not_mem (h : x ∉ renames.map Prod.fst) : Renames.apply renames x = x := by
  rw [apply, lookup_eq_none_iff.mpr h, Option.getD_none]

theorem Renames.mem_apply (h : x ∈ renames.map Prod.fst) : (x, Renames.apply renames x) ∈ renames := by
  obtain ⟨replacement, hl⟩ : ∃ replacement, renames.lookup x = some replacement := by
    rw [← Option.ne_none_iff_exists', ne_eq, lookup_eq_none_iff, not_not]
    exact h
  obtain ⟨before, after, heq, -⟩ := List.lookup_eq_some_iff.mp hl
  rw [apply, hl, Option.getD_some, heq]
  exact List.mem_append_right before List.mem_cons_self

/-- There is no edit exactly where no first name is renamed. -/
theorem edits_eq_nil_iff {heads : List (Nat × Text)} :
    edits renames heads = [] ↔ ∀ x ∈ heads.map Prod.snd, x ∉ renames.map Prod.fst := by
  rw [edits, List.filterMap_eq_nil_iff, List.forall_mem_map]
  simp only [Option.map_eq_none_iff, lookup_eq_none_iff]

/-- Nothing is renamed exactly when no path begins with a name of the list. -/
theorem renameRoots_eq_none_iff {s : Text} {tree : Tree} (h : parseTree s = .ok tree) :
    renameRoots s renames = .ok none ↔ ∀ x ∈ rootsOf tree, x ∉ renames.map Prod.fst := by
  rw [rootsOf, ← edits_eq_nil_iff]
  simp only [renameRoots, h]
  cases edits renames (heads tree) <;> simp

end Expr

namespace Expression

open DynamicSql.Expr

variable {s : Text} {x : Expression} {renames : Renames}

/--
Renaming roots in the source is substitution in the expression. It leaves the source exactly where no path, at
any depth, begins with one of the names. The renamed source is read as the expression in which those first
segments, and nothing else, have given way to their aliases, all at once; it has the same value wherever an
alias leads to what its name led to and the other paths lead where they led.
-/
theorem renameRoots_substitutes (h : parse s = .ok x) (ha : ∀ rename ∈ renames, IsName rename.2) :
    ∃ r, renameRoots s renames = .ok r ∧
      (r = none ↔ ∀ p ∈ x.expr.paths, Path.root p ∉ renames.map Prod.fst) ∧
      ∃ x', parse (r.getD s) = .ok x' ∧ x'.expr = x.expr.mapPaths (reroot renames) ∧
        ∀ scope scope' : Scope,
          (∀ rename ∈ renames, ∀ rest, IsTail rest →
            scope' (rename.2 ++ rest) = scope (rename.1 ++ rest)) →
          (∀ p ∈ x.expr.paths, Path.root p ∉ renames.map Prod.fst → scope' p = scope p) →
          x'.expr.eval scope' = x.expr.eval scope ∧
            ∀ v, x'.evaluate scope' = .ok v ↔ x.evaluate scope = .ok v := by
  obtain ⟨hexpr, -⟩ := parse_eq_ok_iff.mp h
  obtain ⟨tree, hderived, hdepth, hdenotes⟩ := parse_eq_ok_iff_denotes.mp hexpr
  have htree := parseTree_eq_ok_iff_derived.mpr ⟨hderived, hdepth⟩
  obtain ⟨shape, refill, rfl, hnames, hrefill⟩ := exists_refill_related htree hdenotes.ofTree_eq
  have hbegin : Begin (heads tree) x.expr.paths := hdenotes.begin
  have hroots : x.expr.paths.map Path.root = rootsOf tree := hbegin.roots fun y hy => (hnames y hy).identifier
  have hid : Sound (rootsOf tree) id := fun _ _ => .inl rfl
  have hsound : Sound (rootsOf tree) (Renames.apply renames) := by
    intro y _
    by_cases hm : y ∈ renames.map Prod.fst
    · exact .inr (ha _ (Renames.mem_apply hm))
    · exact .inl (Renames.apply_of_not_mem hm)
  obtain ⟨r, hr, htext⟩ := (hrefill id hid).2.1 renames
  obtain ⟨-, -, e', he', hrelated⟩ := hrefill _ hsound
  have hexpr' : e' = x.expr.mapPaths (reroot renames) := by
    refine hrelated.eq_mapPaths ?_
    rintro p q ⟨y, hy, tail, ht, rfl, rfl⟩
    rw [reroot_append (hnames y hy).identifier ht]
  refine ⟨r, hr, ?_, ⟨_, e'⟩, parse_eq_ok_iff.mpr ⟨htext ▸ he', rfl⟩, hexpr',
    fun scope scope' halias hother => ?_⟩
  · rw [← List.forall_mem_map (P := fun y => y ∉ renames.map Prod.fst), hroots,
      ← renameRoots_eq_none_iff htree, hr]
    simp
  · have heval : Expr.eval scope' e' = x.expr.eval scope := by
      rw [hexpr']
      refine eval_mapPaths fun p hp => ?_
      obtain ⟨y, hy, tail, ht, rfl⟩ := hbegin.exists_tail p hp
      have hid := (hnames y hy).identifier
      rw [reroot_append hid ht]
      by_cases hm : y ∈ renames.map Prod.fst
      · exact halias _ (Renames.mem_apply hm) tail ht
      · rw [Renames.apply_of_not_mem hm]
        exact hother _ hp (by rwa [root_append hid ht])
    refine ⟨heval, fun v => ?_⟩
    rw [evaluate, evaluate, heval]
    cases x.expr.eval scope <;> simp

/-! Two names that change places, and one that gives way to a shorter one. -/

/-- A renamed name is also a later segment, a quoted key and part of a text; another name begins with it. -/
def shares : Text := "a . b['a'] + 'né a' != item_10 and -aa[0] < bb.a".toList

def sharesRenamed : Text := "item_10 . b['a'] + 'né a' != a and -aa[0] < b.a".toList

def shareNames : Renames :=
  [("a".toList, "item_10".toList), ("item_10".toList, "a".toList), ("bb".toList, "b".toList)]

def shareScope (a item bb : String) : Scope :=
  (Value.map [(a.toList, .map [("b".toList, .map [("a".toList, .int 7)])]), (item.toList, .text "7né a".toList),
    ("aa".toList, .list [.int 1]), (bb.toList, .map [("a".toList, .int 2)])]).scope

theorem shares_substituted : ∃ x x', parse shares = .ok x ∧
    renameRoots shares shareNames = .ok (some sharesRenamed) ∧ parse sharesRenamed = .ok x' ∧
    x'.expr = x.expr.mapPaths (reroot shareNames) ∧
    x'.expr.eval (shareScope "item_10" "a" "b") = x.expr.eval (shareScope "a" "item_10" "bb") := by
  have hpaths : (parse shares).map (fun x => x.expr.paths) =
      .ok ["a.b.a".toList, "item_10".toList, "aa[0]".toList, "bb.a".toList] := by decide +kernel
  have hrenamed : renameRoots shares shareNames = .ok (some sharesRenamed) := by decide +kernel
  obtain ⟨x, hx⟩ : ∃ x, parse shares = .ok x := by
    cases hx : parse shares with
    | error f => simp [hx, Except.map] at hpaths
    | ok x => exact ⟨x, rfl⟩
  rw [hx, Except.map, Except.ok.injEq] at hpaths
  have hnames : ∀ rename ∈ shareNames, IsName rename.2 := fun rename hr => by
    exact ⟨(show ∀ rename ∈ shareNames, IsIdentifier rename.2 by decide) rename hr,
      (show ∀ rename ∈ shareNames, rename.2 ∉ reserved by decide) rename hr⟩
  obtain ⟨r, hr, -, x', hx', hexpr, heval⟩ := renameRoots_substitutes hx hnames
  obtain rfl := Except.ok.inj (hrenamed.symm.trans hr)
  refine ⟨x, x', hx, hrenamed, hx', hexpr, (heval _ _ ?_ ?_).1⟩
  · intro rename hr rest ht
    simp only [shareNames, List.mem_cons, List.not_mem_nil, or_false] at hr
    rcases hr with rfl | rfl | rfl
    all_goals
      simp only [shareScope, Value.scope, Value.path?]
      rw [segments_tail (by decide) ht, segments_tail (by decide) ht]
      rfl
  · intro p hp hother
    rw [hpaths] at hp
    simp only [List.mem_cons, List.not_mem_nil, or_false] at hp
    rcases hp with rfl | rfl | rfl | rfl
    · exact absurd hother (by decide)
    · exact absurd hother (by decide)
    · rfl
    · exact absurd hother (by decide)

end Expression

end DynamicSql
