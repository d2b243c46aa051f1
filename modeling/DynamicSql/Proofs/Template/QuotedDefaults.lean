import DynamicSql.Proofs.Template.Attributes
import DynamicSql.Proofs.Template.PathPlaceholders

/-!
Defaults between single quotes. Four readers go over such a text: the scanner, which ends a placeholder at a closer
without a backslash, the cutting at commas, the cutting at the sign of equality, and the reader of literals. Main
statement: a text without single quotes passes all of them, and a name that leads to nothing has that text.
-/
namespace DynamicSql

open DynamicSql.Expr (IsIdentifier)

variable {p s t w : Text}

namespace Placeholder

def quoted (t : Text) : Text := '\x27' :: (t ++ ['\x27'])

theorem trimmed_quoted (w t : Text) (hw : ∀ c ∈ w.head?, Text.isBlank c = false) :
    Text.Trimmed (w ++ quoted t) where
  head c hc := by
    cases w with
    | nil =>
      cases hc
      decide
    | cons d w => exact hw c hc
  last c hc := by
    rw [quoted, ← List.cons_append, ← List.append_assoc, List.getLast?_concat] at hc
    cases hc
    decide

/-- Whatever stands between the quotes is the text. -/
theorem literal_quoted (t : Text) : literal (quoted t) = .text t := by
  have hunquoted : unquoted? '\x27' (quoted t) = some t := by simp [quoted, unquoted?]
  rw [literal, hunquoted]
  rfl

def quotedDefault (p t : Text) : Text := p ++ ',' :: (" default=".toList ++ quoted t)

theorem write_quotedDefault (hp : IsIdentifier p) (t : Text) :
    write Config.default.placeholder (quotedDefault p t) =
      "\x7b\x7b".toList ++ (p ++ (", default='".toList ++
        (Token.escapeDelimiter Config.default.placeholder.closing t ++ "'\x7d\x7d".toList))) := by
  have hclosing : Config.default.placeholder.closing ≠ [] := by decide
  have hbrace : ∀ c ∈ Config.default.placeholder.closing, c = '\x7d' := by simp [Config.default]
  have hname : ∀ c ∈ p ++ ", default='".toList, c ∉ Config.default.placeholder.closing := by
    intro c hc hm
    obtain rfl := hbrace c hm
    rcases List.mem_append.mp hc with hc | hc
    · exact absurd (hp.isNameChar _ hc) (by decide)
    · exact absurd hc (by decide)
  have hquote : ∀ c ∈ ['\x27'].head?, c ∉ Config.default.placeholder.closing := by simp [Config.default]
  have hcontent : quotedDefault p t = (p ++ ", default='".toList) ++ (t ++ ['\x27']) := by
    simp [quotedDefault, quoted]
  have hescaped : Token.escapeDelimiter Config.default.placeholder.closing (quotedDefault p t) =
      (p ++ ", default='".toList) ++
        (Token.escapeDelimiter Config.default.placeholder.closing t ++ ['\x27']) := by
    rw [hcontent, Token.escapeDelimiter_append_left hclosing hname,
      Token.escapeDelimiter_append_right hclosing hquote]
    rfl
  rw [← List.append_nil (write _ _), Token.write_append, hescaped]
  simp [Config.default]

/-- The quotes keep the default in one part. -/
theorem split_quotedDefault (hp : IsIdentifier p) (ht : '\x27' ∉ t) :
    split (quotedDefault p t) = (p, [" default=".toList ++ quoted t]) := by
  have hname : Level.pass .top p = some .top := pass_word hp.isNameChar
  have hpart : Level.pass .top (" default=".toList ++ quoted t) = some .top := by
    have hplain : Level.pass .top " default=".toList = some .top := rfl
    have hquote : Level.pass .top (quoted t) = some .top := pass_quoted (.inl rfl) ht []
    rw [Level.pass_append, hplain, Option.bind_some, hquote]
  have hsep : Level.top.separates ',' = true := rfl
  rw [split, quotedDefault, splitFrom_append hname, splitFrom, if_pos hsep, ← split, split_of_pass hpart,
    List.append_nil]

theorem readAttributes_quotedDefault (t : Text) :
    readAttributes {} [" default=".toList ++ quoted t] = .ok { default := some (.text t) } := by
  have htrim : Text.trim (" default=".toList ++ quoted t) = "default".toList ++ '=' :: quoted t := by
    have hcore := trimmed_quoted "default=".toList t (by simp; decide)
    have h : Text.trim ([' '] ++ ("default=".toList ++ quoted t ++ [])) = "default=".toList ++ quoted t :=
      Text.trim_append (by simp; decide) (List.forall_mem_nil _) hcore (by simp)
    rwa [List.append_nil] at h
  have hcut : Text.cutAt? (· == '=') ("default".toList ++ '=' :: quoted t) = some ("default".toList, quoted t) :=
    Text.cutAt?_append (by simp) rfl
  have hvalue : Text.trim (quoted t) = quoted t := (trimmed_quoted [] t (by simp)).trim_eq
  have hset : setAttribute {} "default".toList (Text.trim (quoted t)) = .ok { default := some (.text t) } :=
    setAttribute_eq (d := .default (.text t)) (by simp [Attribute.names]) (by rw [hvalue]; exact literal_quoted t)
  have hname : Text.trim "default".toList = "default".toList := by decide
  simp only [readAttributes, htrim, hcut, hname, hset]

end Placeholder

namespace Query

open Placeholder

variable {s : Setting} {bindings : Bindings}

/-- A path that finds nothing has the default for its value. -/
theorem describe_quotedDefault (hp : IsIdentifier p) (ht : '\x27' ∉ t) (hscalar : s.parameter.scalar? = none)
    (hp' : bindings.resolve? s.parameter p = none ∨ bindings.resolve? s.parameter p = some .null) :
    describe s bindings (quotedDefault p t) 0 = .ok { expression := p, type := .text, value := .text t } := by
  have htrim : Text.trim p = p := (trimmed_of_isNameChar hp.isNameChar).trim_eq
  have htarget : readTarget p = .ok (.path p) := by
    have hnone : enclosed? (p ++ []) = none := enclosed?_identifier hp []
    rw [List.append_nil] at hnone
    rw [readTarget, hnone]
  refine (describe_eq_ok_iff_of_split (split_quotedDefault hp ht) htrim hp.ne_nil).mpr
    ⟨_, _, htarget, readAttributes_quotedDefault t, ?_⟩
  rcases hp' with hnone | hnull
  · simp [Placeholder.describe, Target.find, lookup?, hnone, hscalar, Attributes.settle, inferredType, Value.isNull,
      Value.type]
  · simp [Placeholder.describe, Target.find, lookup?, hnull, Attributes.settle, inferredType, Value.isNull,
      Value.type]

/--
A name that leads to nothing or to null has the text of its default, every character of it, and the type of texts.
Of what may stand in the text only the closers are written otherwise, with a backslash before each.
-/
theorem ofText_quotedDefault (bindings : Bindings) (hd : s.config.placeholder = Config.default.placeholder)
    (hp : IsIdentifier p) (ht : '\x27' ∉ t) (hscalar : s.parameter.scalar? = none)
    (hp' : bindings.resolve? s.parameter p = none ∨ bindings.resolve? s.parameter p = some .null) :
    ofText s bindings
        ("\x7b\x7b".toList ++ (p ++ (", default='".toList ++
          (Token.escapeDelimiter Config.default.placeholder.closing t ++ "'\x7d\x7d".toList)))) =
      .ok
        { text := s.config.marker.marker 1
          parameters := [{ expression := p, type := .text, value := .text t }]
          bindings } := by
  have hwhole : Token.Whole (quotedDefault p t) := by
    have hlast : quotedDefault p t = (p ++ ',' :: (" default=".toList ++ '\x27' :: t)) ++ ['\x27'] := by
      simp [quotedDefault, quoted]
    rw [Token.Whole, hlast, List.getLast?_concat]
    simp [Token.escape]
  rw [← write_quotedDefault hp, ← hd]
  exact ofText_write_of_describe hd hwhole (describe_quotedDefault hp ht hscalar hp')

/-- Everything that one of the readers takes notice of, in one text. -/
theorem ofText_quotedDefault_marks :
    ofText ⟨.ofMap [("status".toList, .null)], {}⟩ []
        "\x7b\x7bstatus, default=' a=(b,\x22\x7b\x7bc\\\\\x7d\x7d\\\x7d\x7d\x7d)\\'\x7d\x7d".toList =
      .ok
        { text := ['?']
          parameters :=
            [{ expression := "status".toList
               type := .text
               value := .text " a=(b,\x22\x7b\x7bc\\\x7d\x7d\x7d\x7d\x7d)\\".toList }]
          bindings := [] } :=
  ofText_quotedDefault (s := ⟨.ofMap [("status".toList, .null)], {}⟩) [] rfl
    (p := "status".toList) (t := " a=(b,\x22\x7b\x7bc\\\x7d\x7d\x7d\x7d\x7d)\\".toList) (by decide) (by decide) rfl
    (.inr rfl)

end Query

end DynamicSql
