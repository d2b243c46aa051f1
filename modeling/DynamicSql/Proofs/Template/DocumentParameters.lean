import DynamicSql.Proofs.Template.Lookups
import DynamicSql.Proofs.Value.Documents

/-!
A document as the parameter, and its value as the parameter. Both answer every lookup alike but one: the
length of the parameter itself, which only the value tells. Main statement: a resolution that does not ask for
that length comes out the same, with the same query or the same fault.
-/
namespace DynamicSql

open Value (sizeSegment)

namespace Json

def DistinctNames : Json → Prop
  | object members => (Entries.keys members).Nodup
  | _ => True

/-- A canonical document has every name once. -/
theorem distinctNames_canonical (j : Json) : j.canonical.DistinctNames := by
  cases j with
  | object members =>
    rw [canonical]
    exact Entries.nodup_sorted (Entries.nodup_ofPairs _)
  | _ => trivial

/-- The length that the value of the document has and the document does not tell. -/
def hiddenSize? (d : Json) : Option Nat :=
  match Parameter.documentField? d sizeSegment with
  | some _ => none
  | none => (Value.ofJson d).size?

end Json

open Json (hiddenSize?)

variable {d : Json} {name : Text}

namespace Parameter

/-- A document is a scalar when its value is. -/
theorem scalarOf?_ofJson (d : Json) : scalarOf? (Value.ofJson d) = documentScalar? d := by
  cases d with
  | number n =>
    cases n with
    | integer i =>
      simp only [Value.ofJson, documentScalar?, Json.Number.toValue]
      cases Integer.ofInt? i <;> rfl
    | float x => rfl
  | _ => rfl

theorem hiddenSize?_eq_none {v : Value} (h : documentField? d sizeSegment = some v) : hiddenSize? d = none := by
  rw [hiddenSize?, h]

/-- The value has the fields of the document. -/
theorem get?_ofJson_of_some (hd : d.DistinctNames) {v : Value} (h : documentField? d name = some v) :
    (Value.ofJson d).get? name = some v := by
  cases d with
  | object members =>
    rw [documentField?, ← Entries.get?_mapValues] at h
    rw [Value.ofJson_object hd, Value.get?, h]
  | list items =>
    rw [documentField?] at h
    rw [Value.ofJson, Value.ofJsonItems_eq, Value.get?]
    cases hi : Text.readNat? Integer.bound64 name with
    | none => simp [hi] at h
    | some i =>
      rw [hi] at h
      exact List.getElem?_map.trans h
  | _ => simp [documentField?] at h

/-- And no other, but for its length. -/
theorem get?_ofJson_of_none (hd : d.DistinctNames) (h : documentField? d name = none) :
    (Value.ofJson d).get? name = if name = sizeSegment then (Value.ofJson d).size?.map .ofNat else none := by
  cases d with
  | object members =>
    rw [documentField?, ← Entries.get?_mapValues] at h
    rw [Value.ofJson_object hd, Value.get?, h]
    rfl
  | list items =>
    rw [documentField?] at h
    rw [Value.ofJson, Value.ofJsonItems_eq, Value.get?]
    cases hi : Text.readNat? Integer.bound64 name with
    | none => rfl
    | some i =>
      have hword : Text.readNat? Integer.bound64 sizeSegment = none := by decide
      have hname : name ≠ sizeSegment := by
        rintro rfl
        rw [hword] at hi
        cases hi
      rw [hi] at h
      exact (List.getElem?_map.trans h).trans (if_neg hname).symm
  | text s => rfl
  | null | bool _ | unrepresentable => simp [Value.ofJson, Value.get?, Value.size?]
  | number n =>
    cases n with
    | integer i =>
      rw [Value.ofJson, Json.Number.toValue]
      cases Integer.ofInt? i <;> simp [Value.get?, Value.size?]
    | float x => simp [Value.ofJson, Json.Number.toValue, Value.get?, Value.size?]

/-- The value has the fields of the document, and its length besides. -/
theorem get?_ofJson (hd : d.DistinctNames) (name : Text) : (Value.ofJson d).get? name =
    (documentField? d name).or (if name = sizeSegment then (hiddenSize? d).map .ofNat else none) := by
  cases h : documentField? d name with
  | some v => rw [get?_ofJson_of_some hd h, Option.some_or]
  | none =>
    rw [get?_ofJson_of_none hd h, Option.none_or]
    by_cases hname : name = sizeSegment
    · subst hname
      rw [hiddenSize?, h]
    · rw [if_neg hname, if_neg hname]

end Parameter

/-- The lookup asks for the length of the parameter itself: no binding has that name. -/
def Lookup.AsksSize (l : Lookup) : Prop :=
  Path.segments l.path = [sizeSegment] ∧ sizeSegment ∉ Entries.keys l.bindings

instance : DecidablePred Lookup.AsksSize := fun _ => inferInstanceAs (Decidable (_ ∧ _))

open Parameter

theorem Bindings.root?_ofValue (hd : d.DistinctNames) (bindings : Bindings) (head : Text) :
    bindings.root? (ofValue (Value.ofJson d)) head = (bindings.root? (ofDocument d) head).or
      (if head = sizeSegment ∧ sizeSegment ∉ Entries.keys bindings then (hiddenSize? d).map .ofNat else none) := by
  have hword : sizeSegment ≠ parameterName := by decide
  simp only [root?]
  cases hb : Entries.get? bindings head with
  | some v => rfl
  | none =>
    by_cases hp : head = parameterName
    · subst hp
      simp [Ne.symm hword, ofValue, ofDocument]
    · have hfree : head ∉ Entries.keys bindings := Entries.get?_eq_none_iff.mp hb
      have hasks : (head = sizeSegment ∧ sizeSegment ∉ Entries.keys bindings) ↔ head = sizeSegment :=
        and_iff_left_of_imp fun h => h ▸ hfree
      simp only [hp, hasks, if_false]
      exact get?_ofJson hd head

/-- Only the value answers where its length is asked for; elsewhere both answer alike. -/
theorem Lookup.answer?_ofValue (hd : d.DistinctNames) (l : Lookup) :
    l.answer? (ofValue (Value.ofJson d)) =
      (l.answer? (ofDocument d)).or (if l.AsksSize then (hiddenSize? d).map .ofNat else none) := by
  rcases hs : Path.segments l.path with _ | ⟨head, _ | ⟨segment, rest⟩⟩
  · simp [Lookup.answer?, Bindings.resolve?, Lookup.AsksSize, hs]
  · simp only [Lookup.answer?, Bindings.resolve?, Lookup.AsksSize, hs, Bindings.root?_ofValue hd,
      Value.follow_nil, Option.bind_fun_some, List.cons.injEq, and_true]
  · simp only [Lookup.answer?, Bindings.resolve?, Lookup.AsksSize, hs, Bindings.root?_ofValue hd,
      List.cons.injEq, reduceCtorEq, and_false, false_and, if_false, Option.or_none]
    cases Bindings.root? l.bindings (ofDocument d) head with
    | some v => rfl
    | none =>
      -- the length is an integer, and no step leads into one
      split
      · cases hiddenSize? d <;> rfl
      · rfl

/-- The size of a collection is no field of the document. -/
theorem Lookup.answer?_ofDocument {l : Lookup} {n : Nat} (h : l.AsksSize) (hn : hiddenSize? d = some n) :
    l.answer? (ofDocument d) = none := by
  obtain ⟨hs, hfree⟩ := h
  have hword : sizeSegment ≠ Bindings.parameterName := by decide
  have hfield : documentField? d sizeSegment = none := by
    by_contra hf
    obtain ⟨v, hv⟩ := Option.ne_none_iff_exists'.mp hf
    rw [hiddenSize?_eq_none hv] at hn
    cases hn
  simp only [Lookup.answer?, Bindings.resolve?, Bindings.root?, hs, Entries.get?_eq_none_iff.mpr hfree, hword,
    if_false]
  exact congrArg (Option.bind · _) hfield

/-- Of a lookup that does not ask for a length that the document does not tell. -/
theorem Lookup.answersLike (hd : d.DistinctNames) {l : Lookup} (h : l.AsksSize → hiddenSize? d = none) :
    (ofDocument d).AnswersLike (ofValue (Value.ofJson d)) l := by
  rw [Parameter.AnswersLike, Lookup.answer?_ofValue hd]
  by_cases ha : l.AsksSize
  · rw [if_pos ha, h ha, Option.map_none, Option.or_none]
  · rw [if_neg ha, Option.or_none]

/--
A document answers as its value does, unless it is asked, under no other binding, for a length of its own that
it has no member for: there the value tells the length and the document nothing. A template that makes no such
lookup in either stage resolves the document as it resolves the value, to the same query or the same failure.
-/
theorem Template.resolve_ofDocument (j : Json) :
    (∀ (bindings : Bindings) (path : Text),
      (bindings.resolve? (ofDocument j.canonical) path =
          bindings.resolve? (ofValue (Value.ofJson j.canonical)) path ↔
        (Lookup.AsksSize ⟨bindings, path⟩ → hiddenSize? j.canonical = none)) ∧
      ∀ n, Lookup.AsksSize ⟨bindings, path⟩ → hiddenSize? j.canonical = some n →
        bindings.resolve? (ofDocument j.canonical) path = none ∧
          bindings.resolve? (ofValue (Value.ofJson j.canonical)) path = some (.ofNat n)) ∧
    ∀ t : Template,
      (∀ l ∈ t.lookups (ofDocument j.canonical), l.AsksSize → hiddenSize? j.canonical = none) →
        t.resolve (ofDocument j.canonical) = t.resolve (ofValue (Value.ofJson j.canonical)) := by
  have hd := j.distinctNames_canonical
  have hdiffer : ∀ (l : Lookup) (n : Nat), l.AsksSize → hiddenSize? j.canonical = some n →
      l.answer? (ofDocument j.canonical) = none ∧
        l.answer? (ofValue (Value.ofJson j.canonical)) = some (.ofNat n) := by
    intro l n ha hn
    have hnone := Lookup.answer?_ofDocument ha hn
    refine ⟨hnone, ?_⟩
    rw [Lookup.answer?_ofValue hd, hnone, if_pos ha, hn]
    rfl
  refine ⟨fun bindings path => ⟨⟨fun heq ha => ?_, fun h => Lookup.answersLike hd h⟩,
    fun n => hdiffer ⟨bindings, path⟩ n⟩, fun t h => ?_⟩
  · by_contra hhidden
    obtain ⟨n, hn⟩ := Option.ne_none_iff_exists'.mp hhidden
    obtain ⟨hnone, hsome⟩ := hdiffer ⟨bindings, path⟩ n ha hn
    have hcontra : none = some (Value.ofNat n) := hnone.symm.trans (heq.trans hsome)
    cases hcontra
  · exact Template.resolve_eq_of_lookups (scalarOf?_ofJson _).symm fun l hl => Lookup.answersLike hd (h l hl)

/-! A list, whose length is under the name of the whole, and a round's own name in its place. -/

def idList : Json := .list [.number (.integer 10), .number (.integer 20)]

def idListQuery : Template where
  root := .mixed
    [.text "SELECT * FROM t WHERE id <> \x7b\x7b[1]\x7d\x7d AND id IN".toList,
      .forEach { collection := ⟨"_parameter".toList, .path "_parameter".toList⟩, item := some "size".toList,
                 opening := "(".toList, closing := ")".toList, separator := ",".toList }
        (.text "\x7b\x7bsize\x7d\x7d".toList),
      .when ⟨"_parameter.size > 1".toList, .compare .gt (.path "_parameter.size".toList) (.literal (.int 1))⟩
        (.text "LIMIT \x7b\x7b_parameter.size\x7d\x7d".toList)]

theorem idListQuery_resolved : ∃ q,
    idListQuery.resolve (ofDocument idList.canonical) = .ok q ∧
    idListQuery.resolve (ofValue (Value.ofJson idList.canonical)) = .ok q ∧
    q.text = "SELECT * FROM t WHERE id <> ? AND id IN (?,?) LIMIT ?".toList ∧
    q.values.map Value.asInt? = [some 20, some 10, some 20, some 2] := by
  have hresolved : (idListQuery.resolve (ofDocument idList.canonical)).map
      (fun q => (q.text, q.values.map Value.asInt?)) =
      .ok ("SELECT * FROM t WHERE id <> ? AND id IN (?,?) LIMIT ?".toList,
        [some 20, some 10, some 20, some 2]) := by decide +kernel
  obtain ⟨q, hq, hparts⟩ := Except.map_eq_ok_iff.mp hresolved
  rw [Prod.mk.injEq] at hparts
  have hsame := (Template.resolve_ofDocument idList).2 idListQuery (by decide +kernel)
  exact ⟨q, hq, hsame ▸ hq, hparts⟩

def sizeQuery : Template where
  root := .text "\x7b\x7bsize\x7d\x7d".toList

/-- Of a list the document tells no length; in place of the length of a text it tells the text. -/
theorem sizeQuery_differs :
    sizeQuery.resolve (ofDocument idList.canonical) = .error (.fault (Fault.bindingResolution "size")) ∧
    (∃ q, sizeQuery.resolve (ofValue (Value.ofJson idList.canonical)) = .ok q ∧
      q.text = "?".toList ∧ q.values.map Value.asInt? = [some 2]) ∧
    (∃ q, sizeQuery.resolve (ofDocument (Json.canonical (.text "abc".toList))) = .ok q ∧
      q.values.map Value.asText? = [some "abc".toList]) ∧
    ∃ q, sizeQuery.resolve (ofValue (Value.ofJson (Json.canonical (.text "abc".toList)))) = .ok q ∧
      q.values.map Value.asInt? = [some 3] := by
  have hlist : (sizeQuery.resolve (ofDocument idList.canonical)).map Query.text =
      .error (.fault (Fault.bindingResolution "size")) := by decide +kernel
  have hlistValue : (sizeQuery.resolve (ofValue (Value.ofJson idList.canonical))).map
      (fun q => (q.text, q.values.map Value.asInt?)) = .ok ("?".toList, [some 2]) := by decide +kernel
  have htext : (sizeQuery.resolve (ofDocument (Json.canonical (.text "abc".toList)))).map
      (fun q => q.values.map Value.asText?) = .ok [some "abc".toList] := by decide +kernel
  have htextValue : (sizeQuery.resolve (ofValue (Value.ofJson (Json.canonical (.text "abc".toList))))).map
      (fun q => q.values.map Value.asInt?) = .ok [some 3] := by decide +kernel
  obtain ⟨q, hq, hparts⟩ := Except.map_eq_ok_iff.mp hlistValue
  rw [Prod.mk.injEq] at hparts
  exact ⟨Except.map_eq_error_iff.mp hlist, ⟨q, hq, hparts⟩, Except.map_eq_ok_iff.mp htext,
    Except.map_eq_ok_iff.mp htextValue⟩

end DynamicSql
