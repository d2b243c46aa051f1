import DynamicSql.Expr.Parsing
import DynamicSql.Proofs.Text

/-!
The expression that a tree stands for, told as a relation: one case for each kind of literal, path, operator
and chain. Main statement: what a tree denotes is what is built from it, so it denotes at most one expression.
-/
namespace DynamicSql.Expr

variable {w s p : Text} {ts : List Tree} {t : Tree} {e : Expr}

structure Digits (w : Text) : Prop where
  ne_nil : w ≠ []
  isDigit : ∀ c ∈ w, c.isDigit = true

def value (w : Text) : Int := (Nat.ofDigitChars 10 w 0 : Nat)

/-- Each backslash gives way to the character after it. -/
inductive Unescapes : Text → Text → Prop
  | nil : Unescapes [] []
  | escaped {c w s} (h : Unescapes w s) : Unescapes ('\\' :: c :: w) (c :: s)
  | plain {c w s} (hc : c ≠ '\\') (h : Unescapes w s) : Unescapes (c :: w) (c :: s)

/-- What follows the first name of a path: dotted names and keys, bracketed indices. -/
inductive Segments : List Tree → Text → Prop
  | nil : Segments [] []
  | name {start w ts p} (h : Segments ts p) : Segments (.leaf .ident start w :: ts) ('.' :: (w ++ p))
  | index {start w ts p} (h : Segments ts p) :
      Segments (.leaf .index start w :: ts) ('[' :: (w ++ ']' :: p))
  | key {start start' w s ts p} (hs : Unescapes w s) (h : Segments ts p) :
      Segments (.node .string start [.leaf .inner start' w] :: ts) ('.' :: (s ++ p))

def comparisons : List (String × CompareOp) :=
  [("==", .eq), ("eq", .eq), ("!=", .ne), ("neq", .ne), ("<", .lt), ("lt", .lt), ("<=", .le), ("lte", .le),
    (">", .gt), ("gt", .gt), (">=", .ge), ("gte", .ge)]

def signs : List (String × AddOp) := [("+", .add), ("-", .sub)]

/-- From the loosest operator to the tightest: each layer is made of parts of the next. -/
def layers : List (Rule × Rule) :=
  [(.orExpr, .andExpr), (.andExpr, .notExpr), (.notExpr, .comparison), (.comparison, .additive),
    (.additive, .unary)]

def Operators (rule : Rule) (ts : List Tree) : Prop := ∀ t ∈ ts, ∃ start w, t = .leaf rule start w

mutual

/-- The expression that a tree stands for. -/
inductive Denotes : Tree → Expr → Prop
  | null {start w} : Denotes (.leaf .null start w) (.literal .null)
  | true {start} : Denotes (.leaf .bool start "true".toList) (.literal (.bool true))
  | false {start} : Denotes (.leaf .bool start "false".toList) (.literal (.bool false))
  | int {start w n} (hw : Digits w) (hn : n.toInt = value w) :
      Denotes (.leaf .int start w) (.literal (.int n))
  | float {start a b} (ha : Digits a) (hb : Digits b) :
      Denotes (.leaf .float start (a ++ '.' :: b))
        (.literal (.float (Decimal.nearest (Nat.ofDigitChars 10 (a ++ b) 0) (-b.length))))
  | string {start start' w s} (hs : Unescapes w s) :
      Denotes (.node .string start [.leaf .inner start' w]) (.literal (.text s))
  | path {start start' w ts p} (h : Segments ts p) :
      Denotes (.node .path start (.leaf .ident start' w :: ts)) (.path (w ++ p))
  /-- A layer without an operator of its own. -/
  | layer {outer part start start' ts e} (hl : (outer, part) ∈ layers)
      (h : Denotes (.node part start' ts) e) : Denotes (.node outer start [.node part start' ts]) e
  | primary {start t e} (h : Denotes t e) : Denotes (.node .unary start [t]) e
  | or {start ts es} (h : Operands .orOp .andExpr ts es) (hl : 2 ≤ es.length) :
      Denotes (.node .orExpr start ts) (.or es)
  | and {start ts es} (h : Operands .andOp .notExpr ts es) (hl : 2 ≤ es.length) :
      Denotes (.node .andExpr start ts) (.and es)
  | not {start ops t e} (ho : Operators .notOp ops) (hne : ops ≠ []) (h : Denotes t e) :
      Denotes (.node .notExpr start (ops ++ [t])) (.not ops.length e)
  | neg {start ops t e} (ho : Operators .negOp ops) (hne : ops ≠ []) (h : Denotes t e) :
      Denotes (.node .unary start (ops ++ [t])) (.neg ops.length e)
  | compare {start start' op c l r x y} (hc : (op, c) ∈ comparisons) (hl : Denotes l x) (hr : Denotes r y) :
      Denotes (.node .comparison start [l, .leaf .compareOp start' op.toList, r]) (.compare c x y)
  | sum {start t ts e es} (h : Denotes t e) (hs : Addends ts es) (hne : es ≠ []) :
      Denotes (.node .additive start (t :: ts)) (.sum e es)

/-- The operands of a flat chain, with one kind of operator between them. -/
inductive Operands : Rule → Rule → List Tree → List Expr → Prop
  | last {op part start us e} (h : Denotes (.node part start us) e) : Operands op part [.node part start us] [e]
  | cons {op part start start' us w e ts es} (h : Denotes (.node part start us) e)
        (hs : Operands op part ts es) :
      Operands op part (.node part start us :: .leaf op start' w :: ts) (e :: es)

/-- The signed operands of a sum after the first. -/
inductive Addends : List Tree → List (AddOp × Expr) → Prop
  | nil : Addends [] []
  | cons {start op sign t e ts es} (ho : (op, sign) ∈ signs) (h : Denotes t e) (hs : Addends ts es) :
      Addends (.leaf .addOp start op.toList :: t :: ts) ((sign, e) :: es)

end

/-- The relation has the text that the function computes. -/
theorem Unescapes.eq_unescape (h : Unescapes w s) : unescape w = s := by
  induction h with
  | nil => rfl
  | escaped _ ih => rw [unescape, ih]
  | @plain c w s hc _ ih =>
    rw [← ih, unescape.eq_def]
    split <;> simp_all

/-- Segments are written back as the path has them. -/
theorem Segments.eq_pathTail (h : Segments ts p) : pathTail ts = p := by
  induction h with
  | nil => rfl
  | name _ ih => simp [pathTail, ih]
  | index _ ih => simp [pathTail, ih]
  | key hs _ ih => simp [pathTail, stringText, hs.eq_unescape, ih]

/-! Numbers. -/

theorem Digits.natOfDigits?_eq (h : Digits w) : Text.natOfDigits? w = some (Nat.ofDigitChars 10 w 0) := by
  rw [Text.natOfDigits?, if_pos ⟨h.ne_nil, List.all_eq_true.mpr h.isDigit⟩]

/-- A digit is no sign and no letter. -/
theorem Digits.head_isDigit (h : Digits w) : ∃ c v, w = c :: v ∧ c.isDigit = true := by
  obtain ⟨c, v, rfl⟩ := List.exists_cons_of_ne_nil h.ne_nil
  exact ⟨c, v, rfl, h.isDigit c List.mem_cons_self⟩

theorem ne_of_isDigit {c d : Char} (h : c.isDigit = true) (hd : d.isDigit = false) : c ≠ d := by
  rintro rfl
  simp [h] at hd

/-- Digits without a sign are the integer that they write, if it has 64 bits. -/
theorem Digits.readInt?_eq (h : Digits w) : Text.readInt? w = Integer.ofInt? (value w) := by
  obtain ⟨c, v, rfl, hc⟩ := h.head_isDigit
  have hsigned : Text.readInt? (c :: v) =
      ((Text.natOfDigits? (c :: v)).map fun n => (n : Int)).bind Integer.ofInt? := by
    rw [Text.readInt?.eq_def]
    split
    · next heq => exact absurd (List.cons.inj heq).1 (ne_of_isDigit hc (by decide))
    · next heq => exact absurd (List.cons.inj heq).1 (ne_of_isDigit hc (by decide))
    · rfl
  rw [hsigned, h.natOfDigits?_eq]
  rfl

theorem readMagnitude?_eq {a b : Text} (ha : Digits a) (hb : Digits b) :
    Decimal.readMagnitude? (a ++ '.' :: b) =
      some (Decimal.nearest (Nat.ofDigitChars 10 (a ++ b) 0) (-b.length)) := by
  have hpoint : ∀ c ∈ ('.' :: b).head?, c.isDigit = false := by simp
  have htake : b.takeWhile Char.isDigit = b := List.takeWhile_eq_self_iff.mpr hb.isDigit
  have hdrop : b.dropWhile Char.isDigit = [] := List.dropWhile_eq_nil_iff.mpr hb.isDigit
  have hne : a ++ b ≠ [] := by simp [ha.ne_nil]
  rw [Decimal.readMagnitude?, Text.takeWhile_append_eq ha.isDigit hpoint,
    Text.dropWhile_append_eq ha.isDigit hpoint]
  simp [htake, hdrop, hne]

theorem toLower_of_isDigit {c : Char} (h : c.isDigit = true) : c.toLower = c := by
  delta Char.toLower
  split
  · next hupper =>
    have hlow := UInt32.le_iff_toNat_le.mp hupper.1
    simp only [Char.isDigit, Bool.and_eq_true, decide_eq_true_eq, UInt32.le_iff_toNat_le] at h
    have hnine : '9'.val.toNat = 57 := rfl
    have hletter : 'A'.val.toNat = 65 := rfl
    omega
  · rfl

/-- Two runs of digits with a point between them are the nearest number to what they write. -/
theorem readFloat?_eq {a b : Text} (ha : Digits a) (hb : Digits b) : Decimal.readFloat? (a ++ '.' :: b) =
    some (Decimal.nearest (Nat.ofDigitChars 10 (a ++ b) 0) (-b.length)) := by
  have hmagnitude := readMagnitude?_eq ha hb
  obtain ⟨c, v, rfl, hc⟩ := ha.head_isDigit
  have hword : ∀ x w, x.isDigit = false → Text.toLower (c :: (v ++ '.' :: b)) ≠ x :: w := by
    intro x w hx heq
    rw [Text.toLower, List.map_cons, toLower_of_isDigit hc] at heq
    exact ne_of_isDigit hc hx (List.cons.inj heq).1
  rw [List.cons_append, Decimal.readFloat?.eq_def]
  split
  · next r heq => exact absurd (List.cons.inj heq).1 (ne_of_isDigit hc (by decide))
  · next r heq => exact absurd (List.cons.inj heq).1 (ne_of_isDigit hc (by decide))
  · rw [Decimal.readUnsigned?]
    simp only [String.reduceToList, hword 'n' _ rfl, hword 'i' _ rfl, or_self, if_false]
    exact hmagnitude

theorem compareOp_of_mem {op : String} {c : CompareOp} (h : (op, c) ∈ comparisons) :
    compareOp op.toList = c := by
  have hall : ∀ x ∈ comparisons, compareOp x.1.toList = x.2 := by decide
  exact hall (op, c) h

theorem addOp_of_mem {op : String} {sign : AddOp} (h : (op, sign) ∈ signs) : addOp op.toList = sign := by
  have hall : ∀ x ∈ signs, addOp x.1.toList = x.2 := by decide
  exact hall (op, sign) h

/-! What is built from a tree is what it denotes. -/

theorem Denotes.ne_operator (h : Denotes t e) (start : Nat) (w : Text) :
    t ≠ .leaf .notOp start w ∧ t ≠ .leaf .negOp start w := by
  constructor <;> (rintro rfl; cases h)

theorem ofPrefixed_single {wrap : Nat → Expr → Expr} (count : Nat)
    (ht : ∀ start w, t ≠ .leaf .notOp start w ∧ t ≠ .leaf .negOp start w) :
    ofPrefixed wrap count [t] = (ofTree t).map (counted wrap count) := by
  rw [ofPrefixed.eq_def]
  split
  · simp_all
  · next start w _ heq => exact absurd (List.cons.inj heq).1 (ht start w).1
  · next start w _ heq => exact absurd (List.cons.inj heq).1 (ht start w).2
  · next heq =>
    cases heq
    rfl

/-- Operators are counted up to the operand behind them. -/
theorem ofPrefixed_operators {wrap : Nat → Expr → Expr} {rule : Rule} {ops : List Tree}
    (hr : rule = .notOp ∨ rule = .negOp) (ho : Operators rule ops)
    (ht : ∀ start w, t ≠ .leaf .notOp start w ∧ t ≠ .leaf .negOp start w) (count : Nat) :
    ofPrefixed wrap count (ops ++ [t]) = (ofTree t).map (counted wrap (count + ops.length)) := by
  induction ops generalizing count with
  | nil => exact ofPrefixed_single count ht
  | cons o ops ih =>
    obtain ⟨start, w, rfl⟩ := ho o List.mem_cons_self
    have hrest := ih (fun x hx => ho x (List.mem_cons_of_mem _ hx)) (count + 1)
    rw [List.length_cons, Nat.add_comm ops.length, ← Nat.add_assoc, ← hrest]
    rcases hr with rfl | rfl <;> rfl

theorem Operands.length_pos {op part : Rule} {es : List Expr} (h : Operands op part ts es) : 0 < es.length := by
  cases h <;> simp

theorem chain_of_two {join : List Expr → Expr} {es : List Expr} (h : 2 ≤ es.length) :
    chain join es = join es := by
  match es with
  | [] => simp at h
  | [_] => simp at h
  | _ :: _ :: _ => rfl

mutual

/-- What a tree denotes is what is built from it. -/
theorem Denotes.ofTree_eq {t : Tree} {e : Expr} (h : Denotes t e) : ofTree t = .ok e := by
  cases h with
  | null => rfl
  | true => rfl
  | false => rfl
  | int hw hn =>
    rw [ofTree, hw.readInt?_eq, Integer.ofInt?_eq_some_iff.mpr hn]
  | float ha hb => rw [ofTree, readFloat?_eq ha hb]
  | string hs => rw [ofTree, stringText, hs.eq_unescape]
  | path h => rw [ofTree, pathText, h.eq_pathTail]
  | layer hl h =>
    have hpart := h.ofTree_eq
    simp only [layers, List.mem_cons, Prod.mk.injEq, List.not_mem_nil, or_false] at hl
    rcases hl with ⟨rfl, rfl⟩ | ⟨rfl, rfl⟩ | ⟨rfl, rfl⟩ | ⟨rfl, rfl⟩ | ⟨rfl, rfl⟩
    · rw [ofTree, ofOperands, hpart]
      rfl
    · rw [ofTree, ofOperands, hpart]
      rfl
    · rw [ofTree, ofPrefixed, hpart]
      · rfl
      · simp
      · simp
    · rw [ofTree, ofComparison, hpart]
    · rw [ofTree, ofSum, hpart]
  | primary h =>
    rw [ofTree, ofPrefixed_single 0 h.ne_operator, h.ofTree_eq]
    rfl
  | or h hl =>
    rw [ofTree, h.ofOperands_eq, Except.map, chain_of_two hl]
  | and h hl =>
    rw [ofTree, h.ofOperands_eq, Except.map, chain_of_two hl]
  | @not _ ops operand _ ho hne h =>
    have hlt := List.sizeOf_lt_of_mem (List.mem_append_right ops (List.mem_singleton_self operand))
    rw [ofTree, ofPrefixed_operators (.inl rfl) ho h.ne_operator, h.ofTree_eq]
    simp [Except.map, counted, hne]
  | @neg _ ops operand _ ho hne h =>
    have hlt := List.sizeOf_lt_of_mem (List.mem_append_right ops (List.mem_singleton_self operand))
    rw [ofTree, ofPrefixed_operators (.inr rfl) ho h.ne_operator, h.ofTree_eq]
    simp [Except.map, counted, hne]
  | compare hc hl hr =>
    rw [ofTree, ofComparison, hl.ofTree_eq, hr.ofTree_eq, compareOp_of_mem hc]
    rfl
  | sum h hs hne =>
    rw [ofTree, ofSum, h.ofTree_eq, hs.ofAddends_eq]
    · rfl
    · rintro rfl
      cases hs
      exact hne rfl
termination_by sizeOf t

theorem Operands.ofOperands_eq {op part : Rule} {ts : List Tree} {es : List Expr} (h : Operands op part ts es) :
    ofOperands ts = .ok es := by
  cases h with
  | last h =>
    rw [ofOperands, h.ofTree_eq]
    rfl
  | cons h hs =>
    rw [ofOperands, ofOperands, h.ofTree_eq, hs.ofOperands_eq]
    rfl
termination_by sizeOf ts

theorem Addends.ofAddends_eq {ts : List Tree} {es : List (AddOp × Expr)} (h : Addends ts es) :
    ofAddends ts = .ok es := by
  cases h with
  | nil => rfl
  | cons ho h hs =>
    rw [ofAddends, h.ofTree_eq, hs.ofAddends_eq, addOp_of_mem ho]
    rfl
termination_by sizeOf ts

end

end DynamicSql.Expr
