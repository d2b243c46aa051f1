import DynamicSql.Proofs.Entries
import DynamicSql.Proofs.Template.Markers
import DynamicSql.Template.Template

/-!
Parameters that are maps without an order of their own. Such a map answers by its names, and as a whole it is
seen in the order of its names. Main statement: the order in which its entries came shows nowhere in a
resolution, and the map resolves as the ordered map of the same entries in the order of their names.
-/
namespace DynamicSql

/-! The order of texts is a linear order. -/

namespace Text

variable {s t u : Text}

theorem le_iff : le s t = true ↔ ¬ t < s := by simp [le]

theorem le_trans (h : le s t = true) (h' : le t u = true) : le s u = true := by
  rw [le_iff] at h h' ⊢
  exact List.not_lt.mpr (List.le_trans (List.not_lt.mp h) (List.not_lt.mp h'))

theorem le_total (s t : Text) : (le s t || le t s) = true := by
  rw [Bool.or_eq_true, le_iff, le_iff, List.not_lt, List.not_lt]
  exact List.le_total s t

/-- Two keys with neither before the other are the same. -/
theorem le_antisymm (h : le s t = true) (h' : le t s = true) : s = t := by
  rw [le_iff, List.not_lt] at h h'
  exact List.le_antisymm h h'

end Text

/-! Maps with the same entries. -/

namespace Entries

variable {α : Type} {entries others ordered : Entries α}

def Ordered (entries : Entries α) : Prop := entries.Pairwise fun a b => Text.le a.1 b.1 = true

theorem keys_perm (hp : entries.Perm others) : entries.keys.Perm others.keys := hp.map Prod.fst

/-- What a name stands for does not depend on where its entry is. -/
theorem get?_perm (hp : entries.Perm others) (hd : entries.keys.Nodup) : entries.get? = others.get? := by
  have hd' : others.keys.Nodup := (keys_perm hp).nodup_iff.mp hd
  funext name
  refine Option.ext fun value => ?_
  rw [← mem_iff_get? hd, ← mem_iff_get? hd', hp.mem_iff]

theorem ordered_sorted (entries : Entries α) : Ordered entries.sorted := by
  have htrans : ∀ a b c : Text × α, Text.le a.1 b.1 = true → Text.le b.1 c.1 = true → Text.le a.1 c.1 = true :=
    fun _ _ _ => Text.le_trans
  have htotal : ∀ a b : Text × α, (Text.le a.1 b.1 || Text.le b.1 a.1) = true := fun a b => Text.le_total a.1 b.1
  exact List.pairwise_mergeSort htrans htotal entries

/-- Different names leave one order for the entries. -/
theorem eq_of_ordered (hp : entries.Perm others) (hd : entries.keys.Nodup) (ho : Ordered entries)
    (ho' : Ordered others) : entries = others := by
  refine hp.eq_of_pairwise ?_ ho ho'
  rintro ⟨name, value⟩ ⟨other, value'⟩ hm hm' hle hge
  obtain rfl : name = other := Text.le_antisymm hle hge
  have hvalue := (mem_iff_get? hd).mp hm
  rw [(mem_iff_get? hd).mp (hp.mem_iff.mpr hm')] at hvalue
  cases hvalue
  rfl

theorem sorted_perm (entries : Entries α) : entries.sorted.Perm entries := List.mergeSort_perm entries _

/-- The entries in the order of their names, whatever order they came in. -/
theorem sorted_eq_of_ordered (hp : ordered.Perm entries) (hd : entries.keys.Nodup) (ho : Ordered ordered) :
    entries.sorted = ordered :=
  eq_of_ordered ((sorted_perm entries).trans hp.symm) (nodup_sorted hd) (ordered_sorted entries) ho

end Entries

namespace Parameter

open Entries (Ordered)

variable {entries others ordered : Entries Value}

theorem ofUnordered_eq_ofMap (hp : ordered.Perm entries) (hd : entries.keys.Nodup) (ho : Ordered ordered) :
    ofUnordered entries = ofMap ordered := by
  rw [ofUnordered, ofMap, Entries.get?_perm hp.symm hd, Entries.sorted_eq_of_ordered hp hd ho]

/-- In whatever order the entries come, the parameter is the same. -/
theorem ofUnordered_perm (hp : entries.Perm others) (hd : entries.keys.Nodup) :
    ofUnordered entries = ofUnordered others := by
  have hd' : others.keys.Nodup := (Entries.keys_perm hp).nodup_iff.mp hd
  rw [ofUnordered_eq_ofMap ((Entries.sorted_perm others).trans hp.symm) hd (Entries.ordered_sorted others),
    ofUnordered_eq_ofMap (Entries.sorted_perm others) hd' (Entries.ordered_sorted others)]

end Parameter

open Parameter (ofUnordered ofMap)
open Entries (Ordered ofPairs)

/--
A map without an order, filled in any order with the same entries under different names, resolves every template
to the same query or the same fault. So does the ordered map in which they come in the order of their names, of
which there is one.
-/
theorem Template.resolve_ofUnordered {pairs others : Entries Value} (hd : pairs.keys.Nodup)
    (hp : pairs.Perm others) (t : Template) :
    t.resolve (ofUnordered (ofPairs pairs)) = t.resolve (ofUnordered (ofPairs others)) ∧
    (∃ ordered, ordered.Perm pairs ∧ Ordered ordered) ∧
    ∀ ordered, ordered.Perm pairs → Ordered ordered →
      t.resolve (ofUnordered (ofPairs pairs)) = t.resolve (ofMap (ofPairs ordered)) := by
  have hd' : others.keys.Nodup := (Entries.keys_perm hp).nodup_iff.mp hd
  rw [Entries.ofPairs_eq hd, Entries.ofPairs_eq hd']
  refine ⟨by rw [Parameter.ofUnordered_perm hp hd],
    ⟨pairs.sorted, Entries.sorted_perm pairs, Entries.ordered_sorted pairs⟩, fun ordered hperm hordered => ?_⟩
  have hdo : ordered.keys.Nodup := (Entries.keys_perm hperm).nodup_iff.mpr hd
  rw [Entries.ofPairs_eq hdo, Parameter.ofUnordered_eq_ofMap hperm hd hordered]

def assignments : Template where
  root := .mixed
    [.forEach { collection := ⟨"_parameter".toList, .path "_parameter".toList⟩, item := some "v".toList,
                index := some "k".toList, opening := "SET ".toList, separator := ", ".toList }
        (.inlined { source := "$\x7bk\x7d = \x7b\x7bv\x7d\x7d".toList,
                    parts := [.splice ⟨"k".toList, .path "k".toList⟩, .literal " = \x7b\x7bv\x7d\x7d".toList] }),
      .inlined { source := "-- $\x7b_parameter\x7d".toList,
                 parts := [.literal "-- ".toList, .splice ⟨"_parameter".toList, .path "_parameter".toList⟩] }]

def adaPairs : Entries Value := [("name".toList, .text "ada".toList), ("age".toList, .int 36)]

/-- Both fillings give the names in their order, which in an ordered map they have only if they came so. -/
theorem assignments_unordered :
    (∃ q, assignments.resolve (ofUnordered (ofPairs adaPairs)) = .ok q ∧
      assignments.resolve (ofUnordered (ofPairs adaPairs.reverse)) = .ok q ∧
      assignments.resolve (ofMap (ofPairs adaPairs.reverse)) = .ok q ∧
      q.text = "SET age = ?, name = ? -- \x7bage: 36, name: ada\x7d".toList ∧
      q.values.map Value.display = ["36".toList, "ada".toList]) ∧
    (assignments.resolve (ofMap (ofPairs adaPairs))).map Query.text =
      .ok "SET name = ?, age = ? -- \x7bname: ada, age: 36\x7d".toList := by
  have hd : adaPairs.keys.Nodup := by decide
  have hperm : adaPairs.Perm adaPairs.reverse := (List.reverse_perm adaPairs).symm
  obtain ⟨hsame, -, hordered⟩ := Template.resolve_ofUnordered hd hperm assignments
  have hmap := hordered adaPairs.reverse hperm.symm (List.pairwise_pair.mpr (by decide))
  have hresolved : (assignments.resolve (ofMap (ofPairs adaPairs.reverse))).map
      (fun q => (q.text, q.values.map Value.display)) =
      .ok ("SET age = ?, name = ? -- \x7bage: 36, name: ada\x7d".toList, ["36".toList, "ada".toList]) := by
    decide +kernel
  obtain ⟨q, hq, hparts⟩ := Except.map_eq_ok_iff.mp hresolved
  rw [Prod.mk.injEq] at hparts
  exact ⟨⟨q, hmap.trans hq, hsame.symm.trans (hmap.trans hq), hq, hparts⟩, by decide +kernel⟩

end DynamicSql
