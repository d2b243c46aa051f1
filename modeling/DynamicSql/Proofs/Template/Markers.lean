import DynamicSql.Proofs.Results
import DynamicSql.Template.Template
import Mathlib.Data.List.Nodup

/-!
Markers and descriptors. The query text is made token by token: text stands as it is, an escaped
opener becomes the opener, and the expression that is the k-th from the left becomes the k-th
marker. Main statement: the second stage succeeds exactly when the text can be scanned and every
placeholder can be described, the k-th descriptor belongs to the k-th expression, and a failure is
the leftmost one.
-/
namespace DynamicSql

namespace Token

def expr? : Token → Option (Text × Nat)
  | .expr content offset => some (content, offset)
  | _ => none

def exprs (tokens : List Token) : List (Text × Nat) := tokens.filterMap expr?

@[simp] theorem exprs_nil : exprs [] = [] := rfl
@[simp] theorem exprs_text (s : Text) (rest : List Token) : exprs (.text s :: rest) = exprs rest := rfl
@[simp] theorem exprs_escaped (rest : List Token) : exprs (.escaped :: rest) = exprs rest := rfl
@[simp] theorem exprs_expr (content : Text) (offset : Nat) (rest : List Token) :
    exprs (.expr content offset :: rest) = (content, offset) :: exprs rest := rfl

/-- The tokens of a text are those of its scan. -/
theorem ofText_eq_ok_iff {d : Delimiters} {s : Text} {tokens : List Token} :
    ofText d s = .ok tokens ↔ scan d s = .ok tokens := by
  rw [ofText, Except.mapError_eq_ok_iff]

theorem exprs_append (before after : List Token) : exprs (before ++ after) = exprs before ++ exprs after :=
  List.filterMap_append

end Token

namespace Query

open Token (exprs)

/-- What stands for a token in the query text when so many expressions come before it. -/
def piece (config : Config) (before : Nat) : Token → Text
  | .text t => t
  | .escaped => config.placeholder.opening
  | .expr _ _ => config.marker.marker (before + 1)

/-- What stands for each token, each with the number of the expressions to its left. -/
def pieces (config : Config) (tokens : List Token) : List Text :=
  tokens.mapIdx fun i t => piece config (exprs (tokens.take i)).length t

def markers (config : Config) (tokens : List Token) : List Text :=
  ((pieces config tokens).zip tokens).filterMap fun (p, t) => t.expr?.map fun _ => p

/-- The pieces of tokens before which so many expressions came already. -/
def piecesFrom (config : Config) : Nat → List Token → List Text
  | _, [] => []
  | count, t :: rest => piece config count t :: piecesFrom config (count + (exprs [t]).length) rest

/-- Each placeholder is numbered by those before it. -/
theorem mapIdx_piece (config : Config) (count : Nat) (tokens : List Token) :
    (tokens.mapIdx fun i t => piece config (count + (exprs (tokens.take i)).length) t) =
      piecesFrom config count tokens := by
  induction tokens generalizing count with
  | nil => rfl
  | cons t rest ih =>
    simp only [List.mapIdx_cons, List.take_zero, Token.exprs_nil, List.length_nil, Nat.add_zero,
      piecesFrom, List.take_succ_cons, List.cons.injEq, true_and]
    rw [← ih]
    congr 1
    funext i u
    have hl : (exprs (t :: rest.take i)).length = (exprs [t]).length + (exprs (rest.take i)).length := by
      rw [← List.singleton_append, Token.exprs_append, List.length_append]
    rw [hl, Nat.add_assoc]

theorem pieces_eq (config : Config) (tokens : List Token) :
    pieces config tokens = piecesFrom config 0 tokens := by
  rw [← mapIdx_piece]
  simp [pieces]

/-- The expressions take the numbers after `count` in their order. -/
theorem filterMap_piecesFrom (config : Config) (count : Nat) (tokens : List Token) :
    (((piecesFrom config count tokens).zip tokens).filterMap fun (p, t) => t.expr?.map fun _ => p) =
      (List.range' (count + 1) (exprs tokens).length).map config.marker.marker := by
  induction tokens generalizing count with
  | nil => rfl
  | cons t rest ih =>
    cases t with
    | text s => simpa [piecesFrom, Token.expr?] using ih count
    | escaped => simpa [piecesFrom, Token.expr?] using ih count
    | expr content offset =>
      simpa [piecesFrom, Token.expr?, piece, List.range'_succ] using ih (count + 1)

theorem markers_eq (config : Config) (tokens : List Token) :
    markers config tokens = (List.range' 1 (exprs tokens).length).map config.marker.marker := by
  rw [markers, pieces_eq]
  exact filterMap_piecesFrom config 0 tokens

/-- Two numbers have two markers. -/
theorem marker_dollar_injective : Function.Injective MarkerStyle.dollar.marker := by
  intro m n h
  have hd : Text.ofNat m = Text.ofNat n := by simpa [MarkerStyle.marker] using h
  have hv := congrArg (fun s => Nat.ofDigitChars 10 s 0) hd
  simpa [Text.ofNat, Nat.ofDigitChars_toDigits] using hv

variable {s : Setting} {bindings : Bindings}

def Describes (s : Setting) (bindings : Bindings) (e : Text × Nat) (d : Descriptor) : Prop :=
  ∃ p, Placeholder.parse e.1 e.2 (span s.config.placeholder e.1) = .ok p ∧
    p.describe bindings s.parameter = .ok d

/-- A descriptor is made of what the content says and what it finds. -/
theorem describe_eq_ok_iff {content : Text} {offset : Nat} {d : Descriptor} :
    describe s bindings content offset = .ok d ↔ Describes s bindings (content, offset) d := by
  simp only [describe, Describes]
  cases Placeholder.parse content offset (span s.config.placeholder content) with
  | ok p => simp
  | error f => simp

/-- A token without an expression puts its piece before what follows. -/
theorem assemble_quiet {t : Token} (ht : exprs [t] = []) (count : Nat) (rest : List Token) :
    assemble s bindings count (t :: rest) =
      (assemble s bindings count rest).map fun q => (piece s.config count t ++ q.1, q.2) := by
  cases t with
  | text t =>
    rw [assemble]
    cases assemble s bindings count rest <;> rfl
  | escaped =>
    rw [assemble]
    cases assemble s bindings count rest <;> rfl
  | expr content offset => simp at ht

/-- An expression is described before what follows it is looked at. -/
theorem assemble_expr (content : Text) (offset count : Nat) (rest : List Token) :
    assemble s bindings count (.expr content offset :: rest) =
      match describe s bindings content offset with
      | .error f => .error f
      | .ok d => (assemble s bindings (count + 1) rest).map fun q =>
          (s.config.marker.marker (count + 1) ++ q.1, d :: q.2) := by
  rw [assemble]
  cases describe s bindings content offset with
  | error f => rfl
  | ok d => cases assemble s bindings (count + 1) rest <;> rfl

/-- Tokens are assembled exactly when each of their expressions has its descriptor. -/
theorem assemble_eq_ok_iff {count : Nat} {tokens : List Token} {text : Text} {ds : List Descriptor} :
    assemble s bindings count tokens = .ok (text, ds) ↔
      List.Forall₂ (Describes s bindings) (exprs tokens) ds ∧
        text = (piecesFrom s.config count tokens).flatten := by
  induction tokens generalizing count text ds with
  | nil =>
    simp only [assemble, piecesFrom, Token.exprs_nil, List.forall₂_nil_left_iff, List.flatten_nil]
    constructor
    · intro h
      cases h
      exact ⟨rfl, rfl⟩
    · rintro ⟨rfl, rfl⟩
      rfl
  | cons t rest ih =>
    cases ht : t.expr? with
    | none =>
      have hq : exprs [t] = [] := by simp [exprs, ht]
      have he : exprs (t :: rest) = exprs rest := by simp [exprs, ht]
      rw [assemble_quiet hq, Except.map_eq_ok_iff, he, piecesFrom, hq]
      simp only [Prod.exists, Prod.mk.injEq, List.flatten_cons, List.length_nil, Nat.add_zero, ih]
      constructor
      · rintro ⟨out, ds', ⟨hd, rfl⟩, rfl, rfl⟩
        exact ⟨hd, rfl⟩
      · rintro ⟨hd, rfl⟩
        exact ⟨_, _, ⟨hd, rfl⟩, rfl, rfl⟩
    | some e =>
      obtain ⟨content, offset, rfl⟩ : ∃ content offset, t = .expr content offset := by
        cases t <;> simp_all [Token.expr?]
      rw [assemble_expr, Token.exprs_expr, List.forall₂_cons_left_iff]
      cases hd : describe s bindings content offset with
      | error f =>
        simp only [reduceCtorEq, false_iff, not_and, forall_exists_index, and_imp]
        intro d ds' h
        rw [describe_eq_ok_iff.mpr h] at hd
        cases hd
      | ok d =>
        simp only [Except.map_eq_ok_iff, Prod.exists, Prod.mk.injEq, piecesFrom, List.flatten_cons,
          Token.exprs_expr, Token.exprs_nil, List.length_singleton, ih]
        constructor
        · rintro ⟨out, ds', ⟨hds, rfl⟩, rfl, rfl⟩
          exact ⟨⟨d, ds', describe_eq_ok_iff.mp hd, hds, rfl⟩, rfl⟩
        · rintro ⟨⟨d', ds', hd', hds, rfl⟩, rfl⟩
          rw [describe_eq_ok_iff.mpr hd'] at hd
          cases hd
          exact ⟨_, ds', ⟨hds, rfl⟩, rfl, rfl⟩

/-- The leftmost expression that has no descriptor fails so. -/
def Fails (s : Setting) (bindings : Bindings) (tokens : List Token) (f : Fault) : Prop :=
  ∃ before content offset after, tokens = before ++ .expr content offset :: after ∧
    (∀ e ∈ exprs before, ∃ d, Describes s bindings e d) ∧ describe s bindings content offset = .error f

theorem not_fails_nil {f : Fault} : ¬ Fails s bindings [] f := by
  rintro ⟨before, content, offset, after, he, -⟩
  simp at he

theorem fails_quiet {t : Token} {rest : List Token} {f : Fault} (ht : exprs [t] = []) :
    Fails s bindings (t :: rest) f ↔ Fails s bindings rest f := by
  have hexprs : ∀ tokens, exprs (t :: tokens) = exprs tokens := fun tokens => by
    rw [← List.singleton_append, Token.exprs_append, ht, List.nil_append]
  constructor
  · rintro ⟨before, content, offset, after, he, hb, hf⟩
    cases before with
    | nil =>
      cases he
      simp at ht
    | cons u before =>
      cases he
      exact ⟨before, content, offset, after, rfl, hexprs before ▸ hb, hf⟩
  · rintro ⟨before, content, offset, after, rfl, hb, hf⟩
    exact ⟨t :: before, content, offset, after, rfl, (hexprs before).symm ▸ hb, hf⟩

/-- A placeholder fails by itself, or leaves it to those behind. -/
theorem fails_expr {content : Text} {offset : Nat} {rest : List Token} {f : Fault} :
    Fails s bindings (.expr content offset :: rest) f ↔ describe s bindings content offset = .error f ∨
      (∃ d, describe s bindings content offset = .ok d) ∧ Fails s bindings rest f := by
  constructor
  · rintro ⟨before, content', offset', after, he, hb, hf⟩
    cases before with
    | nil =>
      cases he
      exact .inl hf
    | cons u before =>
      cases he
      rw [Token.exprs_expr, List.forall_mem_cons] at hb
      exact .inr ⟨hb.1.imp fun _ => describe_eq_ok_iff.mpr, before, content', offset', after, rfl, hb.2, hf⟩
  · rintro (hf | ⟨⟨d, hd⟩, before, content', offset', after, rfl, hb, hf⟩)
    · exact ⟨[], content, offset, rest, rfl, by simp, hf⟩
    · refine ⟨.expr content offset :: before, content', offset', after, rfl, ?_, hf⟩
      rw [Token.exprs_expr, List.forall_mem_cons]
      exact ⟨⟨d, describe_eq_ok_iff.mp hd⟩, hb⟩

/-- The failure is that of the leftmost expression that has no descriptor. -/
theorem assemble_eq_error_iff {count : Nat} {tokens : List Token} {f : Fault} :
    assemble s bindings count tokens = .error f ↔ Fails s bindings tokens f := by
  induction tokens generalizing count with
  | nil => simp [assemble, not_fails_nil]
  | cons t rest ih =>
    cases ht : t.expr? with
    | none =>
      have hq : exprs [t] = [] := by simp [exprs, ht]
      rw [assemble_quiet hq, Except.map_eq_error_iff, ih, fails_quiet hq]
    | some e =>
      obtain ⟨content, offset, rfl⟩ : ∃ content offset, t = .expr content offset := by
        cases t <;> simp_all [Token.expr?]
      rw [assemble_expr, fails_expr]
      cases describe s bindings content offset with
      | error g => simp
      | ok d => simp [Except.map_eq_error_iff, ih]

/-- A text is scanned first; the tokens are then described from left to right. -/
theorem ofText_eq (s : Setting) (bindings : Bindings) (text : Text) :
    ofText s bindings text =
      match Token.ofText s.config.placeholder text with
      | .error h => .error h
      | .ok tokens => (Halt.raise (assemble s bindings 0 tokens)).map fun q => ⟨q.1, q.2, bindings⟩ := by
  rw [ofText]
  cases Token.ofText s.config.placeholder text with
  | error h => rfl
  | ok tokens => cases assemble s bindings 0 tokens <;> rfl

theorem ofText_eq_ok_iff {text : Text} {q : Query} :
    ofText s bindings text = .ok q ↔
      ∃ tokens, Token.scan s.config.placeholder text = .ok tokens ∧
        List.Forall₂ (Describes s bindings) (exprs tokens) q.parameters ∧
        q.text = (pieces s.config tokens).flatten ∧ q.bindings = bindings := by
  rw [ofText_eq]
  simp only [← Token.ofText_eq_ok_iff]
  cases Token.ofText s.config.placeholder text with
  | error h => simp
  | ok tokens =>
    simp only [Except.map_eq_ok_iff, Halt.raise_eq_ok_iff, Prod.exists, assemble_eq_ok_iff, Except.ok.injEq,
      exists_eq_left', pieces_eq]
    constructor
    · rintro ⟨text, ds, ⟨hd, ht⟩, rfl⟩
      exact ⟨hd, ht, rfl⟩
    · rintro ⟨hd, ht, rfl⟩
      exact ⟨q.text, q.parameters, ⟨hd, ht⟩, rfl⟩

/-- A fault is that of the scan, or of the leftmost expression that cannot be described. -/
theorem ofText_eq_fault_iff {text : Text} {f : Fault} :
    ofText s bindings text = .error (.fault f) ↔
      Token.ofText s.config.placeholder text = .error (.fault f) ∨
      ∃ before content offset after,
        Token.scan s.config.placeholder text = .ok (before ++ .expr content offset :: after) ∧
        (∀ e ∈ exprs before, ∃ d, Describes s bindings e d) ∧
        describe s bindings content offset = .error f := by
  rw [ofText_eq]
  simp only [← Token.ofText_eq_ok_iff]
  cases Token.ofText s.config.placeholder text with
  | error h => simp
  | ok tokens =>
    simp [Except.map_eq_error_iff, Halt.raise_eq_error_iff, assemble_eq_error_iff, Fails]

/-- Behind a scan that has tokens nothing panics. -/
theorem ofText_eq_panic_iff {text : Text} :
    ofText s bindings text = .error .panic ↔ Token.ofText s.config.placeholder text = .error .panic := by
  rw [ofText_eq]
  cases Token.ofText s.config.placeholder text with
  | error h => simp
  | ok tokens => simp [Except.map_eq_error_iff, Halt.raise_eq_error_iff]

/--
Markers and descriptors stay aligned: one descriptor for each expression, in the order of the
expressions, and the k-th expression is written as the k-th marker. A fault is that of the scan, or of the
leftmost placeholder that cannot be described. A text panics where its scan does.
-/
theorem ofText_aligned (s : Setting) (bindings : Bindings) (text : Text) :
    ((∃ q, ofText s bindings text = .ok q) ↔
      ∃ tokens, Token.scan s.config.placeholder text = .ok tokens ∧
        ∀ e ∈ exprs tokens, ∃ d, Describes s bindings e d) ∧
    (∀ q, ofText s bindings text = .ok q →
      ∃ tokens, Token.scan s.config.placeholder text = .ok tokens ∧
        List.Forall₂ (Describes s bindings) (exprs tokens) q.parameters ∧
        q.text = (pieces s.config tokens).flatten ∧
        markers s.config tokens = (List.range' 1 q.parameters.length).map s.config.marker.marker ∧
        (s.config.marker = .dollar → (markers s.config tokens).Nodup) ∧
        q.bindings = bindings) ∧
    (∀ f, ofText s bindings text = .error (.fault f) ↔
      Token.ofText s.config.placeholder text = .error (.fault f) ∨
      ∃ before content offset after,
        Token.scan s.config.placeholder text = .ok (before ++ .expr content offset :: after) ∧
        (∀ e ∈ exprs before, ∃ d, Describes s bindings e d) ∧
        describe s bindings content offset = .error f) ∧
    (ofText s bindings text = .error .panic ↔ Token.ofText s.config.placeholder text = .error .panic) := by
  refine ⟨?_, ?_, fun f => ofText_eq_fault_iff, ofText_eq_panic_iff⟩
  · simp only [ofText_eq_ok_iff]
    constructor
    · rintro ⟨q, tokens, hs, hd, -⟩
      exact ⟨tokens, hs, List.exists_forall₂_iff.mp ⟨_, hd⟩⟩
    · rintro ⟨tokens, hs, hd⟩
      obtain ⟨ds, hds⟩ := List.exists_forall₂_iff.mpr hd
      exact ⟨⟨_, ds, bindings⟩, tokens, hs, hds, rfl, rfl⟩
  · intro q hq
    obtain ⟨tokens, hs, hd, ht, hb⟩ := ofText_eq_ok_iff.mp hq
    have hm : markers s.config tokens =
        (List.range' 1 q.parameters.length).map s.config.marker.marker := by
      rw [markers_eq, hd.length_eq]
    refine ⟨tokens, hs, hd, ht, hm, ?_, hb⟩
    intro hdollar
    rw [hm, hdollar]
    exact List.Nodup.map marker_dollar_injective List.nodup_range'

end Query

end DynamicSql
