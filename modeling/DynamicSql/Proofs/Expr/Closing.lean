import DynamicSql.Proofs.Expr.Recognition

/-!
What is open behind a text. The pass that measures how deep a text nests tells what is open from how many
parentheses may still follow. Main statement: behind an expression nothing is open, and no parenthesis in it closes
one that is not in it.
-/
namespace DynamicSql.Expr

structure Opened where
  depth : Nat
  quoting : Quoting

namespace Opened

variable {o o' : Opened} {c : Char} {s : Text} {limit n : Nat}

def nothing : Opened := ⟨0, .outside⟩

def deeper (o : Opened) : Opened := { o with depth := o.depth + 1 }

/-- What is open behind a character; nothing to tell where a parenthesis closes none. -/
def next? (o : Opened) (c : Char) : Option Opened :=
  match o.quoting with
  | .escaped q => some { o with quoting := .inside q }
  | .inside q => some { o with quoting := if c = '\\' then .escaped q else if c = q then .outside else .inside q }
  | .outside =>
    if c = '\x27' ∨ c = '\x22' then some { o with quoting := .inside c }
    else if c = '(' then some o.deeper
    else if c = ')' then if o.depth = 0 then none else some { o with depth := o.depth - 1 }
    else some o

def pass? (o : Opened) : Text → Option Opened
  | [] => some o
  | c :: r => (o.next? c).bind fun o => o.pass? r

def Plain (o : Opened) : Prop := ∀ q, o.quoting = .inside q ∨ o.quoting = .escaped q → q = '\x27' ∨ q = '\x22'

/-- What is open, and a text that follows, nest within the limit. -/
def Fits (limit : Nat) (o : Opened) (r : Text) : Prop := nestsWithin limit o.depth o.quoting r = true

theorem plain_nothing : nothing.Plain := by simp [Plain, nothing]

/-- Only a quote opens quotes. -/
theorem Plain.next (h : o.Plain) (hc : o.next? c = some o') : o'.Plain := by
  obtain ⟨d, m⟩ := o
  intro q hq
  cases m with
  | escaped p =>
    cases hc
    exact h q (.inr (by simpa using hq))
  | inside p =>
    cases hc
    refine h q (.inl ?_)
    by_cases hb : c = '\\'
    · simpa [hb] using hq
    by_cases hp : c = p <;> simp_all
  | outside =>
    simp only [next?, deeper] at hc
    grind

theorem Plain.pass (h : o.Plain) (hs : o.pass? s = some o') : o'.Plain := by
  induction s generalizing o with
  | nil =>
    cases hs
    exact h
  | cons c s ih =>
    obtain ⟨mid, hc, hs⟩ := Option.bind_eq_some_iff.mp hs
    exact ih (h.next hc) hs

/-- A character opens one parenthesis at most. -/
theorem depth_next_le (hc : o.next? c = some o') : o'.depth ≤ o.depth + 1 := by
  obtain ⟨d, m⟩ := o
  cases m with
  | escaped q | inside q =>
    cases hc
    exact Nat.le_succ d
  | outside =>
    simp only [next?, deeper] at hc
    grind

/-- Only a closing parenthesis that closes none has nothing to tell. -/
theorem next?_eq_none (hc : o.next? c = none) : o = nothing ∧ c = ')' := by
  obtain ⟨d, m⟩ := o
  cases m with
  | escaped q | inside q => cases hc
  | outside =>
    simp only [next?] at hc
    grind [nothing]

/-- With one more parenthesis around it, a character does the same. -/
theorem next?_deeper (hc : o.next? c = some o') : o.deeper.next? c = some o'.deeper := by
  obtain ⟨d, m⟩ := o
  cases m with
  | escaped q | inside q =>
    cases hc
    rfl
  | outside =>
    simp only [next?, deeper] at hc ⊢
    grind

/-- One parenthesis more is all that a character can need room for. -/
theorem fits_cons (hc : o.next? c = some o') (hd : o.depth < limit) (r : Text) :
    o.Fits limit (c :: r) ↔ o'.Fits limit r := by
  obtain ⟨d, m⟩ := o
  cases m with
  | escaped q | inside q =>
    cases hc
    rfl
  | outside =>
    simp only [next?, deeper] at hc
    simp only at hd
    simp only [Fits, nestsWithin, hd, if_true]
    grind

/-- Behind a text that is short enough, only what is open then counts. -/
theorem fits_append (hs : o.pass? s = some o') (hd : o.depth + s.length ≤ limit) (r : Text) :
    o.Fits limit (s ++ r) ↔ o'.Fits limit r := by
  induction s generalizing o with
  | nil =>
    cases hs
    rfl
  | cons c s ih =>
    rw [List.length_cons] at hd
    obtain ⟨mid, hc, hs⟩ := Option.bind_eq_some_iff.mp hs
    have hmid := depth_next_le hc
    rw [List.cons_append, fits_cons hc (by omega), ih hs (by omega)]

/-- Where a parenthesis closes none, the pass forgets whether there was one more to close. -/
theorem fits_append_deeper (hs : o.pass? s = none) (hd : o.depth + s.length < limit) (r : Text) :
    o.Fits limit (s ++ r) ↔ o.deeper.Fits limit (s ++ r) := by
  induction s generalizing o with
  | nil => cases hs
  | cons c s ih =>
    rw [List.length_cons] at hd
    rw [List.cons_append]
    cases hc : o.next? c with
    | none =>
      obtain ⟨rfl, rfl⟩ := next?_eq_none hc
      rfl
    | some mid =>
      have hmid := depth_next_le hc
      have hdeeper : o.deeper.depth = o.depth + 1 := rfl
      rw [fits_cons hc (by omega), fits_cons (next?_deeper hc) (by omega)]
      exact ih (by simpa [pass?, hc] using hs) (by omega)

/-! What tells one state from another. -/

theorem fits_replicate_outside (d : Nat) :
    Fits limit ⟨d, .outside⟩ (List.replicate (n + 1) '(') ↔ d + n < limit := by
  induction n generalizing d with
  | zero => simp [Fits, nestsWithin]
  | succ n ih =>
    have hopen : Fits limit ⟨d, .outside⟩ ('(' :: List.replicate (n + 1) '(') ↔
        d < limit ∧ Fits limit ⟨d + 1, .outside⟩ (List.replicate (n + 1) '(') := by simp [Fits, nestsWithin]
    rw [List.replicate_succ, hopen, ih]
    omega

theorem fits_replicate_inside {q : Char} (d : Nat) (hq : q ≠ '(') :
    Fits limit ⟨d, .inside q⟩ (List.replicate n '(') := by
  induction n with
  | zero => rfl
  | succ n ih => simpa [List.replicate_succ, Fits, nestsWithin, Ne.symm hq] using ih

/-- Nothing is open where exactly as many parentheses may follow as the limit allows. -/
theorem eq_nothing (h : o.Plain) (hlimit : 0 < limit) (hsame : ∀ r, o.Fits limit r ↔ nothing.Fits limit r) :
    o = nothing := by
  obtain ⟨n, rfl⟩ : ∃ n, limit = n + 1 := ⟨limit - 1, by omega⟩
  have hmost : nothing.Fits (n + 1) (List.replicate (n + 1) '(') := (fits_replicate_outside 0).mpr (by omega)
  have hmore : ¬ nothing.Fits (n + 1) (List.replicate (n + 2) '(') := by
    rw [nothing, fits_replicate_outside]
    omega
  obtain ⟨d, m⟩ := o
  have hne : ∀ q, m = .inside q ∨ m = .escaped q → q ≠ '(' := by
    rintro q hq rfl
    exact absurd (h '(' hq) (by decide)
  cases m with
  | outside =>
    have := (fits_replicate_outside d).mp ((hsame _).mpr hmost)
    obtain rfl : d = 0 := by omega
    rfl
  | inside q => exact absurd ((hsame _).mp (fits_replicate_inside d (hne q (.inl rfl)))) hmore
  | escaped q =>
    have hskip : Fits (n + 1) ⟨d, .escaped q⟩ (List.replicate (n + 2) '(') :=
      fits_replicate_inside (n := n + 1) d (hne q (.inr rfl))
    exact absurd ((hsame _).mp hskip) hmore

end Opened

open Opened

variable {s : Text} {ts : List Tree} {tree : Tree}

/-- What closes all that it opens, as the pass with a limit sees it, leaves nothing open. -/
theorem Weighs.pass?_eq (h : Weighs s ts) : nothing.pass? s = some nothing := by
  obtain ⟨limit, hlimit⟩ : ∃ limit, limit = depthOfAll ts + s.length + 2 := ⟨_, rfl⟩
  have hsame : ∀ r, nothing.Fits limit (s ++ r) ↔ nothing.Fits limit r := fun r =>
    (h limit 0 r (by omega)).trans (and_iff_right (by omega))
  have hdeeper : ∀ r, nothing.deeper.Fits limit (s ++ r) ↔ nothing.deeper.Fits limit r := fun r =>
    (h limit 1 r (by omega)).trans (and_iff_right (by omega))
  cases hs : nothing.pass? s with
  | some o =>
    have hfits : ∀ r, nothing.Fits limit (s ++ r) ↔ o.Fits limit r :=
      fits_append hs (show 0 + s.length ≤ limit by omega)
    rw [eq_nothing (plain_nothing.pass hs) (by omega) fun r => (hfits r).symm.trans (hsame r)]
  | none =>
    -- With one parenthesis open before, the text would close it and not leave it open.
    have hforget : ∀ r, nothing.Fits limit (s ++ r) ↔ nothing.deeper.Fits limit (s ++ r) :=
      fits_append_deeper hs (show 0 + s.length < limit by omega)
    have hplain : nothing.deeper.Plain := by simp [Plain, nothing, deeper]
    have habsurd := eq_nothing hplain (by omega) fun r =>
      (hdeeper r).symm.trans ((hforget r).symm.trans (hsame r))
    cases habsurd

/-- An expression closes every quote and every parenthesis that it opens, and no others. -/
theorem Derived.pass?_eq (h : Derived s tree) : nothing.pass? s = some nothing := by
  obtain ⟨start, parts, -, hw⟩ := h.weighs
  exact hw.pass?_eq

end DynamicSql.Expr
