import DynamicSql.Json.Reading
import DynamicSql.Proofs.Value.Binary64

/-!
Numbers of documents that are read. Powers of ten within the range are proper numbers, so scaling never makes
a not-a-number. Main statement: no number in a document that is read is one.
-/
namespace DynamicSql.Json

/-! Numbers. -/

namespace Number

def Ordinary : Number → Prop
  | integer _ => True
  | float x => x.isNaN = false

end Number

namespace Numeral

open Binary64 (isProper isNaN_scaled)

variable {x y : Float} {exponent : Int} {fuel k : Nat}

/-- The powers of ten that are multiplied by are finite and not zero. -/
theorem isProper_powerOfTen (h : k ≤ greatestPower) : isProper (powerOfTen k) = true := by
  have hall : (List.range (greatestPower + 1)).all (fun k => isProper (powerOfTen k)) = true := by decide +kernel
  exact List.all_eq_true.mp hall k (List.mem_range.mpr (Nat.lt_succ_of_le h))

/-- Scaling by powers of ten makes no NaN of a number. -/
theorem isNaN_scale (hx : x.isNaN = false) (h : scale fuel x exponent = some y) : y.isNaN = false := by
  induction fuel generalizing x exponent with
  | zero =>
    rw [scale, Option.some.injEq] at h
    exact h ▸ hx
  | succ fuel ih =>
    rw [scale] at h
    split at h
    · next hsmall =>
      have hpower := isProper_powerOfTen hsmall
      split at h
      · next hpos =>
        have hnat : exponent.toNat = exponent.natAbs := by omega
        rw [hnat] at h
        dsimp only at h
        split at h
        · cases h
        · rw [← Option.some.inj h]
          exact (isNaN_scaled hx hpower).1
      · rw [← Option.some.inj h]
        exact (isNaN_scaled hx hpower).2
    · split at h
      · rw [← Option.some.inj h]
        exact hx
      · split at h
        · cases h
        · exact ih (isNaN_scaled hx (isProper_powerOfTen (Nat.le_refl _))).2 h

theorem isNaN_signed (negative : Bool) (hx : x.isNaN = false) : (signed negative x).isNaN = false := by
  cases negative with
  | false => exact hx
  | true => exact Binary64.isNaN_unpack_pack (Binary64.isNaN_neg hx)

/-- A numeral has a number for its value. -/
theorem ordinary_value? {n : Numeral} {v : Number} (h : n.value? = some v) : v.Ordinary := by
  have hnat : ∀ k : Nat, (Float.ofNat k).isNaN = false := Binary64.isNaN_ofNat
  have hscaled : ∀ {k : Nat} {i : Int},
      (scale scaleFuel (Float.ofNat k) i).map (fun x => Number.float (signed n.negative x)) = some v → v.Ordinary := by
    intro k i hmap
    obtain ⟨x, hx, rfl⟩ := Option.map_eq_some_iff.mp hmap
    exact isNaN_signed n.negative (isNaN_scale (hnat k) hx)
  unfold value? at h
  dsimp only at h
  split at h
  · generalize (if n.negative = true then -((gather 0 0 n.whole).1 : Int) else (gather 0 0 n.whole).1) = i at h
    split at h
    · rw [← Option.some.inj h]
      exact isNaN_signed true (hnat _)
    · rw [← Option.some.inj h]
      trivial
  · split at h
    · exact hscaled h
    · split at h
      · split at h
        · cases h
        · rw [← Option.some.inj h]
          exact isNaN_signed n.negative rfl
      · exact hscaled h

end Numeral

/-! Documents. -/

mutual

def Numeric : Json → Prop
  | number n => n.Ordinary
  | list items => NumericItems items
  | object members => NumericMembers members
  | null | bool _ | text _ | unrepresentable => True

def NumericItems : List Json → Prop
  | [] => True
  | j :: rest => Numeric j ∧ NumericItems rest

def NumericMembers : List (Text × Json) → Prop
  | [] => True
  | (_, j) :: rest => Numeric j ∧ NumericMembers rest

end

theorem numeric_ofPieces (ps : List Piece) : (ofPieces ps).Numeric := by
  unfold ofPieces
  split <;> trivial

theorem numericMembers_member {ps : List Piece} {j : Json} {rest : Option (List (Text × Json))}
    {members : List (Text × Json)} (hj : j.Numeric) (hrest : ∀ others, rest = some others → NumericMembers others)
    (h : member ps j rest = some members) : NumericMembers members := by
  unfold member at h
  split at h
  · rw [← Option.some.inj h]
    exact ⟨hj, hrest _ rfl⟩
  · cases h

/-- What a reader with that fuel reads is numeric: values, members of lists and members of objects. -/
structure ReadsNumeric (fuel : Nat) : Prop where
  value : ∀ {s j rest}, readValue fuel s = some (j, rest) → j.Numeric
  items : ∀ {s items rest}, readItems fuel s = some (items, rest) → NumericItems items
  members : ∀ {s members rest}, readMembers fuel s = some (some members, rest) → NumericMembers members

variable {fuel : Nat} {s rest : Text}

/-! A reader with more fuel reads the parts with less. -/

theorem ReadsNumeric.value_succ (ih : ReadsNumeric fuel) {j : Json} (h : readValue (fuel + 1) s = some (j, rest)) :
    j.Numeric := by
  rw [readValue] at h
  split at h
  case h_4 =>
    obtain ⟨⟨ps, r⟩, -, heq⟩ := Option.map_eq_some_iff.mp h
    exact (Prod.mk.inj heq).1 ▸ numeric_ofPieces ps
  case h_5 =>
    split at h
    · exact (Prod.mk.inj (Option.some.inj h)).1 ▸ trivial
    · obtain ⟨⟨items, r⟩, hitems, heq⟩ := Option.map_eq_some_iff.mp h
      exact (Prod.mk.inj heq).1 ▸ ih.items hitems
  case h_6 =>
    split at h
    · exact (Prod.mk.inj (Option.some.inj h)).1 ▸ trivial
    · obtain ⟨⟨members, r⟩, hmembers, heq⟩ := Option.map_eq_some_iff.mp h
      cases members with
      | none => exact (Prod.mk.inj heq).1 ▸ trivial
      | some members => exact (Prod.mk.inj heq).1 ▸ ih.members hmembers
  case h_7 =>
    obtain ⟨⟨n, r⟩, -, heq⟩ := Option.map_eq_some_iff.mp h
    rw [← (Prod.mk.inj heq).1]
    split
    · next hv => exact Numeral.ordinary_value? hv
    · trivial
  all_goals exact (Prod.mk.inj (Option.some.inj h)).1 ▸ trivial

theorem ReadsNumeric.items_succ (ih : ReadsNumeric fuel) {items : List Json}
    (h : readItems (fuel + 1) s = some (items, rest)) : NumericItems items := by
  rw [readItems] at h
  split at h
  · cases h
  · next j r hj =>
    split at h
    · obtain ⟨⟨others, r'⟩, hothers, heq⟩ := Option.map_eq_some_iff.mp h
      exact (Prod.mk.inj heq).1 ▸ ⟨ih.value hj, ih.items hothers⟩
    · exact (Prod.mk.inj (Option.some.inj h)).1 ▸ ⟨ih.value hj, trivial⟩
    · cases h

theorem ReadsNumeric.members_succ (ih : ReadsNumeric fuel) {members : List (Text × Json)}
    (h : readMembers (fuel + 1) s = some (some members, rest)) : NumericMembers members := by
  rw [readMembers] at h
  split at h
  · split at h
    · cases h
    · split at h
      · split at h
        · cases h
        · next j r hj =>
          split at h
          · obtain ⟨⟨others, r'⟩, hothers, heq⟩ := Option.map_eq_some_iff.mp h
            refine numericMembers_member (ih.value hj) (fun members hm => ?_) (Prod.mk.inj heq).1
            exact ih.members (hm ▸ hothers)
          · have heq := (Prod.mk.inj (Option.some.inj h)).1
            refine numericMembers_member (ih.value hj) (fun members hm => ?_) heq
            exact Option.some.inj hm ▸ trivial
          · cases h
      · cases h
  · cases h

/-- However much fuel there is, what is read has no NaN in it. -/
theorem readsNumeric (fuel : Nat) : ReadsNumeric fuel := by
  induction fuel with
  | zero =>
    exact ⟨fun h => by simp [readValue] at h, fun h => by simp [readItems] at h, fun h => by simp [readMembers] at h⟩
  | succ fuel ih => exact ⟨ih.value_succ, ih.items_succ, ih.members_succ⟩

/-- A text that is read has no NaN in its value. -/
theorem numeric_of_parse? {s : Text} {j : Json} (h : parse? s = some j) : j.Numeric := by
  unfold parse? at h
  split at h
  · next hread =>
    split at h
    · exact Option.some.inj h ▸ (readsNumeric _).value hread
    · cases h
  · cases h

end DynamicSql.Json
