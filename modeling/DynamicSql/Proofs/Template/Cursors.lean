import DynamicSql.Proofs.Template.ByteRanges

/-!
The scanner by cursors. Each turn of a loop looks for the next delimiter behind the byte that its cursor is at,
looks back at the byte before what it found, and takes slices of the text.
-/
namespace DynamicSql.Cursor

open Token (escape endsInEscape endsInEscape_iff Clear flush)

def slice (s : Text) (start stop : Nat) : Except ScanError Text :=
  match s.slice? start stop with
  | some w => .ok w
  | none => .error (.range start stop)

/-- Whether the byte before a position is a backslash, for positions behind `low`. -/
def escaped (s : Text) (low position : Nat) : Except ScanError Bool :=
  if low < position then
    match (Text.bytes s)[position - 1]? with
    | some b => .ok (b == Text.escapeByte)
    | none => .error (.range (position - 1) position)
  else .ok false

/-- One turn after the other, until one gives a result. -/
def loop {σ α : Type} (turn : σ → Except ScanError (σ ⊕ α)) (left : σ → Nat)
    (h : ∀ {x y}, turn x = .ok (.inl y) → left y < left x) (x : σ) : Except ScanError α :=
  match _hx : turn x with
  | .error e => .error e
  | .ok (.inr a) => .ok a
  | .ok (.inl y) => loop turn left h y
termination_by left x
decreasing_by exact h _hx

section Loop

variable {σ α : Type} {turn : σ → Except ScanError (σ ⊕ α)} {left : σ → Nat}
  {hleft : ∀ {x y}, turn x = .ok (.inl y) → left y < left x} {x y : σ} {a : α} {e : ScanError}

theorem loop_error (h : turn x = .error e) : loop turn left hleft x = .error e := by
  rw [loop]
  split <;> simp_all

theorem loop_result (h : turn x = .ok (.inr a)) : loop turn left hleft x = .ok a := by
  rw [loop]
  split <;> simp_all

/-- A turn that is not the last goes on from where it came to. -/
theorem loop_again (h : turn x = .ok (.inl y)) : loop turn left hleft x = loop turn left hleft y := by
  rw [loop]
  split <;> simp_all

/-- What every turn keeps and a last turn turns into `Q`. -/
theorem loop_keeps {P : σ → Prop} {Q : α → Prop} (hnext : ∀ x y, P x → turn x = .ok (.inl y) → P y)
    (hlast : ∀ x a, P x → turn x = .ok (.inr a) → Q a) (hx : P x) (h : loop turn left hleft x = .ok a) : Q a := by
  induction hn : left x using Nat.strongRecOn generalizing x with
  | _ n ih =>
    subst hn
    cases hturn : turn x with
    | error e =>
      rw [loop_error hturn] at h
      cases h
    | ok next =>
      cases next with
      | inl y =>
        rw [loop_again hturn] at h
        exact ih _ (hleft hturn) (hnext x y hx hturn) h rfl
      | inr b =>
        rw [loop_result hturn] at h
        exact Except.ok.inj h ▸ hlast x b hx hturn

end Loop

/-! Contents. -/

/-- A cursor in a content, and what has been kept of it. -/
structure Reading where
  cursor : Nat
  content : Text

def contentTurn (d : Delimiters) (s : Text) (start : Nat) (x : Reading) : Except ScanError (Reading ⊕ Text × Nat) := do
  let rest ← slice s x.cursor s.byteLength
  match Text.find? d.closing rest with
  | none =>
    let unread ← slice s start s.byteLength
    throw (.unterminated start (unread.take Token.snippetLength))
  | some found =>
    let stop := x.cursor + found
    let next := stop + Text.byteLength d.closing
    if ← escaped s (start + Text.byteLength d.opening) stop then
      let kept ← slice s x.cursor (stop - 1)
      return .inl ⟨next, x.content ++ kept ++ d.closing⟩
    else
      let kept ← slice s x.cursor stop
      return .inr (x.content ++ kept, next)

variable {d : Delimiters} {s t u v w r kept : Text} {start stop low : Nat}

theorem le_of_slice (h : slice s start stop = .ok w) : start ≤ stop ∧ stop ≤ s.byteLength := by
  unfold slice at h
  split at h
  · next hw => exact Text.le_of_slice? hw
  · cases h

/-- Every turn moves the cursor on, and none begins beyond the end. -/
theorem contentTurn_moves (hc : d.closing ≠ []) {x : Reading} {y : Reading ⊕ Text × Nat}
    (h : contentTurn d s start x = .ok y) :
    x.cursor ≤ s.byteLength ∧ x.cursor < y.elim Reading.cursor Prod.snd := by
  have hpos := Text.byteLength_pos hc
  simp only [contentTurn, Except.bind_eq_ok_iff] at h
  obtain ⟨rest, hrest, h⟩ := h
  refine ⟨(le_of_slice hrest).1, ?_⟩
  split at h
  · obtain ⟨unread, -, h⟩ := Except.bind_eq_ok_iff.mp h
    cases h
  · obtain ⟨hback, -, h⟩ := Except.bind_eq_ok_iff.mp h
    split at h
    all_goals
      obtain ⟨kept, -, h⟩ := Except.bind_eq_ok_iff.mp h
      obtain rfl := Except.ok.inj h
      simp only [Sum.elim_inl, Sum.elim_inr]
      omega

theorem contentTurn_left (hc : d.closing ≠ []) {x y : Reading} (h : contentTurn d s start x = .ok (.inl y)) :
    s.byteLength + 1 - y.cursor < s.byteLength + 1 - x.cursor := by
  have hmoves := contentTurn_moves hc h
  simp only [Sum.elim_inl] at hmoves
  omega

def readFrom (d : Delimiters) (hc : d.closing ≠ []) (s : Text) (start : Nat) (x : Reading) :
    Except ScanError (Text × Nat) :=
  loop (contentTurn d s start) (fun x => s.byteLength + 1 - x.cursor) (contentTurn_left hc) x

/-- Reads the content behind the opener at `start`; with it comes the position behind the closer. -/
def readContent (d : Delimiters) (hc : d.closing ≠ []) (s : Text) (start : Nat) : Except ScanError (Text × Nat) :=
  readFrom d hc s start ⟨start + Text.byteLength d.opening, []⟩

/-- A content ends behind where it starts. -/
theorem readContent_moves (hc : d.closing ≠ []) {content : Text} {after : Nat}
    (h : readContent d hc s start = .ok (content, after)) : start < after := by
  refine loop_keeps (P := fun x => start ≤ x.cursor) (Q := fun a => start < a.2) ?_ ?_ ?_ h
  · intro x y hx hturn
    exact hx.trans (contentTurn_moves hc hturn).2.le
  · intro x a hx hturn
    exact Nat.lt_of_le_of_lt hx (contentTurn_moves hc hturn).2
  · exact Nat.le_add_right _ _

/-! Texts. -/

/-- The cursors of a scan, and the tokens so far. -/
structure Scanning where
  position : Nat
  textStart : Nat
  tokens : List Token

/-- The text between two positions as a token behind others, unless it is empty. -/
def pushText (s : Text) (start stop : Nat) (tokens : List Token) : Except ScanError (List Token) :=
  if start < stop then (slice s start stop).map fun t => tokens ++ [.text t] else .ok tokens

def scanTurn (d : Delimiters) (hc : d.closing ≠ []) (s : Text) (x : Scanning) :
    Except ScanError (Scanning ⊕ List Token) := do
  let rest ← slice s x.position s.byteLength
  match Text.find? d.opening rest with
  | none => return .inr (← pushText s x.textStart s.byteLength x.tokens)
  | some found =>
    let start := x.position + found
    if ← escaped s 0 start then
      let tokens ← pushText s x.textStart (start - 1) x.tokens
      let next := start + Text.byteLength d.opening
      return .inl ⟨next, next, tokens ++ [.escaped]⟩
    else
      let tokens ← pushText s x.textStart start x.tokens
      let (content, after) ← readContent d hc s start
      return .inl ⟨after, after, tokens ++ [.expr content start]⟩

theorem scanTurn_left (ho : d.opening ≠ []) (hc : d.closing ≠ []) {x y : Scanning}
    (h : scanTurn d hc s x = .ok (.inl y)) :
    s.byteLength + 1 - y.position < s.byteLength + 1 - x.position := by
  have hpos := Text.byteLength_pos ho
  simp only [scanTurn, Except.bind_eq_ok_iff] at h
  obtain ⟨rest, hrest, h⟩ := h
  have hle := (le_of_slice hrest).1
  split at h
  · obtain ⟨tokens, -, h⟩ := Except.bind_eq_ok_iff.mp h
    cases h
  · obtain ⟨hback, -, h⟩ := Except.bind_eq_ok_iff.mp h
    split at h
    · obtain ⟨tokens, -, h⟩ := Except.bind_eq_ok_iff.mp h
      cases h
      dsimp only
      omega
    · obtain ⟨tokens, -, h⟩ := Except.bind_eq_ok_iff.mp h
      obtain ⟨⟨content, after⟩, hread, h⟩ := Except.bind_eq_ok_iff.mp h
      have hmoves := readContent_moves hc hread
      cases h
      dsimp only
      omega

def scanFrom (d : Delimiters) (ho : d.opening ≠ []) (hc : d.closing ≠ []) (s : Text) (x : Scanning) :
    Except ScanError (List Token) :=
  loop (scanTurn d hc s) (fun x => s.byteLength + 1 - x.position) (scanTurn_left ho hc) x

def scan (d : Delimiters) (s : Text) : Except ScanError (List Token) :=
  if h : d.opening ≠ [] ∧ d.closing ≠ [] then scanFrom d h.1 h.2 s ⟨0, 0, []⟩
  else .error .emptyDelimiter

def quickTurn (d : Delimiters) (s : Text) (position : Nat) : Except ScanError (Nat ⊕ Bool) := do
  let rest ← slice s position s.byteLength
  match Text.find? d.opening rest with
  | none => return .inr false
  | some found =>
    let start := position + found
    if ← escaped s 0 start then return .inl (start + Text.byteLength d.opening)
    else return .inr true

theorem quickTurn_left (ho : d.opening ≠ []) {x y : Nat} (h : quickTurn d s x = .ok (.inl y)) :
    s.byteLength + 1 - y < s.byteLength + 1 - x := by
  have hpos := Text.byteLength_pos ho
  simp only [quickTurn, Except.bind_eq_ok_iff] at h
  obtain ⟨rest, hrest, h⟩ := h
  have hle := (le_of_slice hrest).1
  split at h
  · cases h
  · obtain ⟨hback, -, h⟩ := Except.bind_eq_ok_iff.mp h
    split at h
    · cases h
      omega
    · cases h

def quickFrom (d : Delimiters) (ho : d.opening ≠ []) (s : Text) (position : Nat) : Except ScanError Bool :=
  loop (quickTurn d s) (fun x => s.byteLength + 1 - x) (quickTurn_left ho) position

def hasExpressions (d : Delimiters) (s : Text) : Except ScanError Bool :=
  if h : d.opening ≠ [] then quickFrom d h s 0 else .ok false

/-! What a turn comes to, by what is before its cursor and behind it. -/

/-- A stretch of the text is sliced at its own offsets. -/
theorem slice_inside (hs : s = u ++ (w ++ v)) : slice s u.byteLength (Text.byteLength (u ++ w)) = .ok w := by
  rw [slice, hs, Text.slice?_inside]

theorem slice_rest (hs : s = u ++ r) : slice s u.byteLength s.byteLength = .ok r := by
  rw [slice, hs, Text.slice?_rest]

/-- A range that runs backwards is refused with its two ends. -/
theorem slice_backwards (s : Text) (h : stop < start) : slice s start stop = .error (.range start stop) := by
  rw [slice, Text.slice?_backwards h]

/-- The byte before the cursor is looked at only behind the lower end. -/
theorem escaped_eq (low : Nat) (hs : s = u ++ r) :
    escaped s low u.byteLength = .ok (decide (low < u.byteLength) && endsInEscape u) := by
  unfold escaped
  by_cases hlow : low < u.byteLength
  · have hu : u ≠ [] := by
      rintro rfl
      exact Nat.not_lt_zero _ hlow
    obtain ⟨b, hb⟩ := Option.ne_none_iff_exists'.mp (show (Text.bytes u).getLast? ≠ none by
      rw [Ne, List.getLast?_eq_none_iff, ← List.length_eq_zero_iff, Text.length_bytes]
      exact (Text.byteLength_pos hu).ne')
    rw [if_pos hlow, hs, Text.getElem?_bytes hu, hb, decide_eq_true hlow, Bool.true_and]
    refine congrArg Except.ok (Bool.eq_iff_iff.mpr ?_)
    rw [beq_iff_eq, ← Text.getLast?_bytes, hb, Option.some.injEq]
  · rw [if_neg hlow, decide_eq_false hlow, Bool.false_and]

/-- Without a closer the turn fails at the opening. -/
theorem contentTurn_unclosed (hc : d.closing ≠ []) (hs : s = u ++ r) (ht : s = v ++ t)
    (hclear : Clear d.closing r []) : contentTurn d s v.byteLength ⟨u.byteLength, kept⟩ =
      .error (.unterminated v.byteLength (t.take Token.snippetLength)) := by
  simp only [contentTurn, slice_rest hs, slice_rest ht, bind, Except.bind, Text.find?_clear hc hclear]
  rfl

/-- No backslash is before the closer that is found. -/
theorem contentTurn_closed (hs : s = u ++ (w ++ (d.closing ++ r))) (hclear : Clear d.closing w (d.closing ++ r))
    (hback : (decide (start + d.opening.byteLength < Text.byteLength (u ++ w)) && endsInEscape (u ++ w)) = false) :
    contentTurn d s start ⟨u.byteLength, kept⟩ =
      .ok (.inr (kept ++ w, Text.byteLength (u ++ (w ++ d.closing)))) := by
  have hs' : s = (u ++ w) ++ (d.closing ++ r) := by rw [hs, List.append_assoc]
  simp only [contentTurn, slice_rest hs, bind, Except.bind, Text.find?_first hclear]
  rw [← Text.byteLength_append, escaped_eq _ hs', hback]
  simp only [Bool.false_eq_true, if_false, slice_inside hs]
  rw [← Text.byteLength_append, List.append_assoc]
  rfl

/-- A backslash is, and it is in what was passed over to find the closer. -/
theorem contentTurn_escaped (hs : s = u ++ (w ++ escape :: (d.closing ++ r)))
    (hclear : Clear d.closing (w ++ [escape]) (d.closing ++ r))
    (hlow : start + d.opening.byteLength ≤ u.byteLength) :
    contentTurn d s start ⟨u.byteLength, kept⟩ =
      .ok (.inl ⟨Text.byteLength (u ++ (w ++ escape :: d.closing)), kept ++ w ++ d.closing⟩) := by
  have hs' : s = u ++ ((w ++ [escape]) ++ (d.closing ++ r)) := by simp [hs]
  have hs'' : s = (u ++ (w ++ [escape])) ++ (d.closing ++ r) := by simp [hs]
  have hbytes : Text.byteLength (u ++ (w ++ [escape])) = Text.byteLength (u ++ w) + 1 := by
    rw [← List.append_assoc, Text.byteLength_concat_escape]
  have hstop : Text.byteLength (u ++ (w ++ [escape])) - 1 = Text.byteLength (u ++ w) := by omega
  have hback : (decide (start + d.opening.byteLength < Text.byteLength (u ++ (w ++ [escape]))) &&
      endsInEscape (u ++ (w ++ [escape]))) = true := by
    rw [Bool.and_eq_true, decide_eq_true_eq, endsInEscape_iff]
    refine ⟨?_, u ++ w, by simp⟩
    rw [hbytes, Text.byteLength_append]
    omega
  simp only [contentTurn, slice_rest hs', bind, Except.bind, Text.find?_first hclear]
  rw [← Text.byteLength_append, escaped_eq _ hs'', hback]
  simp only [if_true, hstop, slice_inside hs]
  rw [← Text.byteLength_append, List.append_assoc, List.append_assoc, List.singleton_append]
  rfl

/-- A backslash is, but it is in front of the cursor. -/
theorem contentTurn_backwards (hs : s = u ++ (d.closing ++ r)) (hu : u ≠ []) (hend : endsInEscape u = true)
    (hlow : start + d.opening.byteLength < u.byteLength) :
    contentTurn d s start ⟨u.byteLength, kept⟩ = .error (.range u.byteLength (u.byteLength - 1)) := by
  have hfirst := Text.find?_first (Token.clear_nil d.closing (d.closing ++ r))
  have hpos := Text.byteLength_pos hu
  simp only [List.nil_append, Text.byteLength_nil] at hfirst
  simp only [contentTurn, slice_rest hs, bind, Except.bind, hfirst]
  rw [Nat.add_zero, escaped_eq _ hs, hend, decide_eq_true hlow]
  simp [slice_backwards s (show u.byteLength - 1 < u.byteLength by omega)]

theorem escaped_zero (hs : s = u ++ r) : escaped s 0 u.byteLength = .ok (endsInEscape u) := by
  rw [escaped_eq 0 hs]
  by_cases hu : u = []
  · subst hu
    rfl
  · rw [decide_eq_true (Text.byteLength_pos hu), Bool.true_and]

theorem flush_append (pending : Text) (tokens : List Token) : flush pending tokens = flush pending [] ++ tokens := by
  unfold flush
  split <;> rfl

/-- A stretch becomes a text, unless it is empty. -/
theorem pushText_eq (hs : s = u ++ (w ++ r)) (tokens : List Token) :
    pushText s u.byteLength (Text.byteLength (u ++ w)) tokens = .ok (tokens ++ flush w.reverse []) := by
  unfold pushText
  by_cases hw : w = []
  · subst hw
    rw [List.append_nil, if_neg (Nat.lt_irrefl _), List.reverse_nil, Token.flush_nil, List.append_nil]
  · have hpos := Text.byteLength_pos hw
    rw [if_pos (by rw [Text.byteLength_append]; omega), slice_inside hs, Token.flush_reverse hw]
    rfl

/-- The text before a backslash that is before the opener. -/
theorem pushText_before (hs : s = u ++ (w ++ r)) (hend : endsInEscape (u ++ w) = true) (tokens : List Token) :
    pushText s u.byteLength (Text.byteLength (u ++ w) - 1) tokens =
      .ok (tokens ++ flush w.dropLast.reverse []) := by
  rcases List.eq_nil_or_concat w with rfl | ⟨v, c, rfl⟩
  · have hlt : ¬ u.byteLength < u.byteLength - 1 := by omega
    rw [List.append_nil, pushText, if_neg hlt, List.dropLast_nil, List.reverse_nil, Token.flush_nil,
      List.append_nil]
  · rw [List.concat_eq_append] at hs hend ⊢
    rw [← List.append_assoc, Token.endsInEscape_append _ (List.cons_ne_nil c [])] at hend
    obtain rfl : c = escape := by simpa [endsInEscape] using hend
    have hstop : Text.byteLength (u ++ (v ++ [escape])) - 1 = Text.byteLength (u ++ v) := by
      rw [← List.append_assoc, Text.byteLength_concat_escape, Nat.add_sub_cancel]
    rw [hstop, List.dropLast_concat, pushText_eq (by rw [hs, List.append_assoc])]

/-- Without an opener the rest is one text. -/
theorem scanTurn_end (ho : d.opening ≠ []) (hc : d.closing ≠ []) (hs : s = u ++ r)
    (hclear : Clear d.opening r []) (tokens : List Token) :
    scanTurn d hc s ⟨u.byteLength, u.byteLength, tokens⟩ = .ok (.inr (tokens ++ flush r.reverse [])) := by
  have hpush : pushText s u.byteLength s.byteLength tokens = .ok (tokens ++ flush r.reverse []) := by
    have hpush := pushText_eq (s := u ++ (r ++ [])) rfl tokens
    rwa [List.append_nil, ← hs] at hpush
  simp only [scanTurn, slice_rest hs, bind, Except.bind, Text.find?_clear ho hclear, hpush]
  rfl

/-- An escaped opener is put down as one, without its backslash. -/
theorem scanTurn_escaped (hc : d.closing ≠ []) (hs : s = u ++ (w ++ (d.opening ++ r)))
    (hclear : Clear d.opening w (d.opening ++ r)) (hend : endsInEscape (u ++ w) = true) (tokens : List Token) :
    scanTurn d hc s ⟨u.byteLength, u.byteLength, tokens⟩ =
      .ok (.inl ⟨Text.byteLength (u ++ (w ++ d.opening)), Text.byteLength (u ++ (w ++ d.opening)),
        tokens ++ flush w.dropLast.reverse [] ++ [.escaped]⟩) := by
  have hs' : s = (u ++ w) ++ (d.opening ++ r) := by rw [hs, List.append_assoc]
  simp only [scanTurn, slice_rest hs, bind, Except.bind, Text.find?_first hclear]
  rw [← Text.byteLength_append, escaped_zero hs', hend]
  simp only [if_true, pushText_before hs hend]
  rw [← Text.byteLength_append, List.append_assoc]
  rfl

theorem scanTurn_opening (hc : d.closing ≠ []) (hs : s = u ++ (w ++ (d.opening ++ r)))
    (hclear : Clear d.opening w (d.opening ++ r)) (hend : endsInEscape (u ++ w) = false) (tokens : List Token) :
    scanTurn d hc s ⟨u.byteLength, u.byteLength, tokens⟩ =
      (readContent d hc s (Text.byteLength (u ++ w))).map fun (content, after) =>
        .inl ⟨after, after, tokens ++ flush w.reverse [] ++ [.expr content (Text.byteLength (u ++ w))]⟩ := by
  have hs' : s = (u ++ w) ++ (d.opening ++ r) := by rw [hs, List.append_assoc]
  simp only [scanTurn, slice_rest hs, bind, Except.bind, Text.find?_first hclear]
  rw [← Text.byteLength_append, escaped_zero hs', hend]
  simp only [Bool.false_eq_true, if_false, pushText_eq hs]
  rfl

theorem quickTurn_end (ho : d.opening ≠ []) (hs : s = u ++ r) (hclear : Clear d.opening r []) :
    quickTurn d s u.byteLength = .ok (.inr false) := by
  simp only [quickTurn, slice_rest hs, bind, Except.bind, Text.find?_clear ho hclear]
  rfl

/-- The first opener answers the check, unless it is escaped. -/
theorem quickTurn_opening (hs : s = u ++ (w ++ (d.opening ++ r))) (hclear : Clear d.opening w (d.opening ++ r)) :
    quickTurn d s u.byteLength =
      .ok (if endsInEscape (u ++ w) then .inl (Text.byteLength (u ++ (w ++ d.opening))) else .inr true) := by
  have hs' : s = (u ++ w) ++ (d.opening ++ r) := by rw [hs, List.append_assoc]
  simp only [quickTurn, slice_rest hs, bind, Except.bind, Text.find?_first hclear]
  rw [← Text.byteLength_append, escaped_zero hs', ← Text.byteLength_append, List.append_assoc]
  cases endsInEscape (u ++ w) <;> rfl

end DynamicSql.Cursor
