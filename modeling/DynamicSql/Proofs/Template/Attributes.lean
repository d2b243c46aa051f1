import DynamicSql.Proofs.Template.Splitting

/-!
Attributes of placeholders as they are written. Main statement: parts that declare attributes, one after the other
behind commas, are cut at those commas and read as the attributes that they declare.
-/
namespace DynamicSql

open DynamicSql.Expr.Grammar (isNameChar)

variable {part name value : Text}

/-- A type is read from any of its names, in capitals or not. -/
theorem ValueType.read_eq {t : ValueType} {n : String} (hn : n ∈ t.names)
    (hv : Text.toLower (Text.trim value) = n.toList) : ValueType.read value = .ok t := by
  have hall : ∀ t ∈ ValueType.all, ∀ n ∈ t.names,
      (ValueType.all.find? fun u => u.names.any fun m => m.toList == n.toList) = some t := by decide
  have hmem : t ∈ ValueType.all := by cases t <;> decide
  simp only [ValueType.read, hv, hall t hmem n hn]

theorem ParameterMode.read_eq {m : ParameterMode} {n : String} (hn : n ∈ m.names)
    (hv : Text.toUpper (Text.trim value) = n.toList) : ParameterMode.read value = .ok m := by
  have hall : ∀ m ∈ ParameterMode.all, ∀ n ∈ m.names,
      (ParameterMode.all.find? fun u => u.names.any fun k => k.toList == n.toList) = some m := by decide
  have hmem : m ∈ ParameterMode.all := by cases m <;> decide
  simp only [ParameterMode.read, hv, hall m hmem n hn]

/-- A text is cut at the first sign that there is. -/
theorem Text.cutAt?_append {stop : Char → Bool} {c : Char} (hs : ∀ c ∈ name, stop c = false) (hc : stop c = true) :
    Text.cutAt? stop (name ++ c :: value) = some (name, value) := by
  induction name with
  | nil => simp [Text.cutAt?, hc]
  | cons b name ih =>
    obtain ⟨hb, hname⟩ := List.forall_mem_cons.mp hs
    simp [Text.cutAt?, hb, ih hname]

namespace Placeholder

inductive Attribute where
  | type (t : ValueType)
  | sqlType (name : Text)
  | numericScale (n : Nat)
  | mode (m : ParameterMode)
  | default (v : Value)

namespace Attribute

def names : Attribute → List String
  | type _ => ["type", "javaType"]
  | sqlType _ => ["sqlType", "jdbcType"]
  | numericScale _ => ["numericScale"]
  | mode _ => ["mode"]
  | default _ => ["default"]

/-- The value declares the attribute. Names of types and modes are taken in any case. -/
def ValuedBy (value : Text) : Attribute → Prop
  | type t => ∃ n ∈ t.names, Text.toLower value = n.toList
  | sqlType name => value = name
  | numericScale n => Text.readNat? Integer.bound32 value = some n
  | mode m => ∃ n ∈ m.names, Text.toUpper value = n.toList
  | default v => literal value = v

def set (a : Attributes) : Attribute → Attributes
  | type t => { a with type := some t }
  | sqlType name => { a with sqlType := some name }
  | numericScale n => { a with numericScale := some n }
  | mode m => { a with mode := m }
  | default v => { a with default := some v }

end Attribute

/-- A known name and a valid value, with blanks around them or without; the value has no quote, comma or
parenthesis. -/
inductive Declares : Text → Attribute → Prop
  | mk {name value : Text} {a : Attribute} (hname : Text.trim name ∈ a.names.map String.toList)
      (hvalue : a.ValuedBy (Text.trim value)) (hplain : ∀ c ∈ value, c ∉ ['\x27', '\x22', '(', ')', ',']) :
      Declares (name ++ '=' :: value) a

variable {parts : List Text} {a : Attributes} {d : Attribute} {ds : List Attribute}

/-- An attribute of that name takes its value, and the others stay. -/
theorem setAttribute_eq (hname : name ∈ d.names.map String.toList) (hvalue : d.ValuedBy (Text.trim value)) :
    setAttribute a name (Text.trim value) = .ok (d.set a) := by
  have htrim : Text.trim (Text.trim value) = Text.trim value := (Text.trimmed_trim value).trim_eq
  obtain ⟨n, hn, rfl⟩ := List.mem_map.mp hname
  cases d with
  | type t =>
    obtain ⟨m, hm, hv⟩ := hvalue
    have hread : ValueType.read (Text.trim value) = .ok t := ValueType.read_eq hm (htrim.symm ▸ hv)
    have hn : n = "type" ∨ n = "javaType" := by simpa [Attribute.names] using hn
    rcases hn with rfl | rfl <;> simp [setAttribute, named, hread, Attribute.set]
  | sqlType s =>
    cases hvalue
    have hn : n = "sqlType" ∨ n = "jdbcType" := by simpa [Attribute.names] using hn
    rcases hn with rfl | rfl <;> simp [setAttribute, named, Attribute.set]
  | numericScale k =>
    have hread : Text.readNat? Integer.bound32 (Text.trim value) = some k := hvalue
    obtain rfl : n = "numericScale" := by simpa [Attribute.names] using hn
    simp [setAttribute, named, hread, Attribute.set]
  | mode m =>
    obtain ⟨k, hk, hv⟩ := hvalue
    have hread : ParameterMode.read (Text.trim value) = .ok m := ParameterMode.read_eq hk (htrim.symm ▸ hv)
    obtain rfl : n = "mode" := by simpa [Attribute.names] using hn
    simp [setAttribute, named, hread, Attribute.set]
  | default v =>
    cases hvalue
    obtain rfl : n = "default" := by simpa [Attribute.names] using hn
    simp [setAttribute, named, Attribute.set]

/-- A name that is known is a word, with blanks around it. -/
theorem isNameChar_of_mem_names (h : Text.trim name ∈ d.names.map String.toList) :
    ∀ c ∈ name, isNameChar c = true ∨ Text.isBlank c = true := by
  obtain ⟨before, after, hname, hb, ha⟩ := Text.exists_trim name
  have hword : (d.names.map String.toList).all (fun w => w.all isNameChar) = true := by cases d <;> rfl
  rw [hname]
  simp only [List.forall_mem_append]
  exact ⟨fun c hc => .inr (hb c hc),
    fun c hc => .inl (List.all_eq_true.mp (List.all_eq_true.mp hword _ h) c hc), fun c hc => .inr (ha c hc)⟩

/-- The name of an attribute has no character that splits. -/
theorem not_mem_names (h : Text.trim name ∈ d.names.map String.toList) :
    ∀ c ∈ name, c ∉ ['\x27', '\x22', '(', ')', ',', '='] := by
  have hmarks : (['\x27', '\x22', '(', ')', ',', '='].any fun c => isNameChar c || Text.isBlank c) = false := by decide
  intro c hc hm
  have hnone := List.any_eq_false.mp hmarks c hm
  simp [isNameChar_of_mem_names h c hc] at hnone

namespace Declares

theorem blank (h : Declares part d) : Declares (' ' :: part) d := by
  obtain @⟨name, value, _, hname, hvalue, hplain⟩ := h
  exact @mk (' ' :: name) value d hname hvalue hplain

theorem plain (h : Declares part d) : ∀ c ∈ part, c ∉ ['\x27', '\x22', '(', ')', ','] := by
  obtain ⟨hname, hvalue, hplain⟩ := h
  rw [List.forall_mem_append, List.forall_mem_cons]
  exact ⟨fun c hc hm => not_mem_names hname c hc (List.mem_append_left ['='] hm), by decide, hplain⟩

/-- The part is cut at the sign, and the blanks around name and value count for nothing. -/
theorem setAttribute_eq (h : Declares part d) (a : Attributes) : ∃ name value,
    Text.cutAt? (· == '=') (Text.trim part) = some (name, value) ∧
      setAttribute a (Text.trim name) (Text.trim value) = .ok (d.set a) := by
  obtain @⟨name, value, _, hname, hvalue, -⟩ := h
  refine ⟨Text.trimStart name, Text.trimEnd value, ?_, ?_⟩
  · rw [Text.trim_append_cons (by decide)]
    refine Text.cutAt?_append (fun c hc => ?_) rfl
    have hmem : c ∈ name := (List.dropWhile_sublist Text.isBlank).mem hc
    have hne : c ≠ '=' := by
      rintro rfl
      exact not_mem_names hname '=' hmem (by decide)
    simpa using hne
  · rw [Text.trim_trimStart, Text.trim_trimEnd]
    exact Placeholder.setAttribute_eq hname hvalue

end Declares

/-- Parts that declare attributes set them in order. -/
theorem readAttributes_eq (h : List.Forall₂ Declares parts ds) (a : Attributes) :
    readAttributes a parts = .ok (ds.foldl Attribute.set a) := by
  induction h generalizing a with
  | nil => rfl
  | cons hpart _ ih =>
    obtain ⟨name, value, hcut, hset⟩ := hpart.setAttribute_eq a
    simp only [readAttributes, hcut, hset]
    exact ih _

/-! Parts behind commas. -/

/-- Parts without commas are what the text is split into. -/
theorem splitFrom_parts (h : List.Forall₂ Declares parts ds) :
    splitFrom .top (parts.flatMap fun part => ',' :: ' ' :: part) = ([], parts.map (' ' :: ·)) := by
  induction h with
  | nil => rfl
  | @cons part d parts ds hpart _ ih =>
    have hpass : Level.pass .top (' ' :: part) = some .top :=
      Level.pass_plain (by simp [Level.Plain, Level.top]) hpart.blank.plain
    have hsep : Level.top.separates ',' = true := rfl
    rw [List.flatMap_cons, List.cons_append, splitFrom, if_pos hsep, splitFrom_append hpass, ih, List.append_nil,
      List.map_cons]

theorem parts_plain (h : List.Forall₂ Declares parts ds) :
    ∀ c ∈ parts.flatMap fun part => ',' :: ' ' :: part, c ∉ ['\x27', '\x22', '(', ')'] := by
  induction h with
  | nil => simp
  | cons hpart _ ih =>
    rw [List.flatMap_cons, List.forall_mem_append, List.forall_mem_cons, List.forall_mem_cons]
    exact ⟨⟨by decide, by decide, fun c hc hm => hpart.plain c hc (List.mem_append_left [','] hm)⟩, ih⟩

end Placeholder

end DynamicSql
