import DynamicSql.Template.Context

/-!
Paths that go on from other paths. A mark between two texts puts the segments of the second behind those of the
first, whatever else the texts hold, so that a joint path leads where the second leads from where the first does.
Main statement: this is so from a value and from a name of a resolution, and the parameter answers to its fields
as it does to its own name.
-/
namespace DynamicSql

variable {v w : Value} {p q whole head : Text} {rest : List Text} {bindings : Bindings} {parameter : Parameter}

namespace Path

theorem segments_dotted (p q : Text) : segments (p ++ '.' :: q) = segments p ++ segments q :=
  segments_append_mark (by decide) p q

/-- Behind the bracket that closes there is nothing, which has no segments. -/
theorem segments_bracketed (p q : Text) : segments (p ++ '[' :: (q ++ [']'])) = segments p ++ segments q := by
  have hclose : segments (q ++ [']']) = segments q ++ segments [] := segments_append_mark (by decide) q []
  have hnothing : segments [] = [] := by decide
  rw [segments_append_mark (by decide), hclose, hnothing, List.append_nil]

end Path

/-- A path may be followed in two parts. -/
theorem Value.path?_of_segments (h : Path.segments whole = Path.segments p ++ Path.segments q) (v : Value) :
    v.path? whole = (v.path? p).bind fun w => w.path? q := by
  rw [Value.path?, h, Value.follow_append]
  rfl

theorem Value.follow_cons (v : Value) (segment : Text) (rest : List Text) :
    v.follow (segment :: rest) = (v.get? segment).bind fun w => w.follow rest := by
  rw [Value.follow]
  cases v.get? segment <;> rfl

namespace Bindings

/-- The first segment finds the root; the others lead on from it. -/
theorem resolve?_cons (h : Path.segments p = head :: rest) (bindings : Bindings) (parameter : Parameter) :
    bindings.resolve? parameter p = (root? bindings parameter head).bind fun v => v.follow rest := by
  rw [resolve?, h]

/-- Without a segment in front the second path would name the root. -/
theorem resolve?_of_segments (h : Path.segments whole = Path.segments p ++ Path.segments q)
    (hp : Path.segments p ≠ []) (bindings : Bindings) (parameter : Parameter) :
    bindings.resolve? parameter whole = (bindings.resolve? parameter p).bind fun w => w.path? q := by
  obtain ⟨head, rest, hs⟩ := List.exists_cons_of_ne_nil hp
  rw [hs, List.cons_append] at h
  rw [resolve?_cons h, resolve?_cons hs, Option.bind_assoc]
  refine Option.bind_congr fun v _ => ?_
  exact v.follow_append rest (Path.segments q)

/-- A name that is not bound is a field of the parameter. -/
theorem root?_field (hfree : Entries.get? bindings head = none) (hname : head ≠ parameterName)
    (parameter : Parameter) : root? bindings parameter head = parameter.field? head := by
  simp only [root?, hfree, hname, if_false]

/-- The parameter's own name stands for all of it, unless it is bound. -/
theorem root?_whole (hfree : Entries.get? bindings parameterName = none) (parameter : Parameter) :
    root? bindings parameter parameterName = parameter.whole? := by
  simp only [root?, hfree, if_true]

/-- A value that is the parameter is led into by its fields. -/
theorem resolve?_ofValue (hs : Path.segments p = head :: rest) (hfree : Entries.get? bindings head = none)
    (hname : head ≠ parameterName) (v : Value) : bindings.resolve? (.ofValue v) p = v.path? p := by
  rw [resolve?_cons hs, root?_field hfree hname, Value.path?, hs, Value.follow_cons]
  rfl

/-- Behind the name of the parameter any path leads into it, also one without segments. -/
theorem resolve?_parameter (hfree : Entries.get? bindings parameterName = none) (v : Value) (p : Text) :
    bindings.resolve? (.ofValue v) (parameterName ++ '.' :: p) = v.path? p := by
  have hname : Path.segments parameterName = [parameterName] := by decide
  have hs : Path.segments (parameterName ++ '.' :: p) = parameterName :: Path.segments p := by
    rw [Path.segments_dotted, hname]
    rfl
  rw [resolve?_cons hs, root?_whole hfree]
  rfl

end Bindings

/--
A path behind a dot, or in brackets, leads from a value where it leads from the value of the path before it; so it
does from the name that a path with a segment begins with. A value that is the parameter gives to a path what the
value itself gives, unless the path begins with a name that is bound or with the name of the parameter; and the name
of the parameter may stand before it, unless that is bound.
-/
theorem Path.leads_on :
    (∀ (v : Value) (p q : Text),
      v.path? (p ++ '.' :: q) = (v.path? p).bind (fun w => w.path? q) ∧
      v.path? (p ++ '[' :: (q ++ [']'])) = (v.path? p).bind fun w => w.path? q) ∧
    (∀ (bindings : Bindings) (parameter : Parameter) (p q : Text), segments p ≠ [] →
      bindings.resolve? parameter (p ++ '.' :: q) = (bindings.resolve? parameter p).bind (fun w => w.path? q) ∧
      bindings.resolve? parameter (p ++ '[' :: (q ++ [']'])) =
        (bindings.resolve? parameter p).bind fun w => w.path? q) ∧
    ∀ (bindings : Bindings) (v : Value) (p head : Text) (rest : List Text), segments p = head :: rest →
      Entries.get? bindings head = none → head ≠ Bindings.parameterName →
      bindings.resolve? (.ofValue v) p = v.path? p ∧
      (Entries.get? bindings Bindings.parameterName = none →
        bindings.resolve? (.ofValue v) (Bindings.parameterName ++ '.' :: p) = v.path? p) := by
  refine ⟨fun v p q => ⟨?_, ?_⟩, fun bindings parameter p q hp => ⟨?_, ?_⟩,
    fun bindings v p head rest hs hfree hname => ⟨?_, fun hparameter => ?_⟩⟩
  · exact Value.path?_of_segments (segments_dotted p q) v
  · exact Value.path?_of_segments (segments_bracketed p q) v
  · exact Bindings.resolve?_of_segments (segments_dotted p q) hp bindings parameter
  · exact Bindings.resolve?_of_segments (segments_bracketed p q) hp bindings parameter
  · exact Bindings.resolve?_ofValue hs hfree hname v
  · exact Bindings.resolve?_parameter hparameter v p

namespace Path

def order : Value := .map [("lines".toList, .list [.map [("sku".toList, .text "a.b".toList)]])]

/-- Stray marks and blanks lead nowhere else. -/
theorem order_leads_on :
    segments " .lines[ 0 ]".toList ≠ [] ∧
    Bindings.resolve? [] (.ofValue order) " .lines[ 0 ].[sku".toList =
      (Bindings.resolve? [] (.ofValue order) " .lines[ 0 ]".toList).bind (fun w => w.path? "[sku".toList) ∧
    segments "lines..0".toList = ["lines".toList, "0".toList] ∧
    Entries.get? ([] : Bindings) "lines".toList = none ∧ "lines".toList ≠ Bindings.parameterName ∧
    Entries.get? ([] : Bindings) Bindings.parameterName = none ∧
    Bindings.resolve? [] (.ofValue order) "lines..0".toList = order.path? "lines..0".toList ∧
    Bindings.resolve? [] (.ofValue order) "_parameter.lines..0".toList = order.path? "lines..0".toList := by
  have hp : segments " .lines[ 0 ]".toList ≠ [] := by decide
  have hs : segments "lines..0".toList = ["lines".toList, "0".toList] := by decide
  have hname : "lines".toList ≠ Bindings.parameterName := by decide
  obtain ⟨-, hresolve, hvalue⟩ := leads_on
  obtain ⟨hfield, hwhole⟩ := hvalue [] order _ _ _ hs rfl hname
  exact ⟨hp, (hresolve [] (.ofValue order) _ "[sku".toList hp).1, hs, rfl, hname, rfl, hfield, hwhole rfl⟩

end Path

end DynamicSql
