import DynamicSql.Config

/-!
Tokens of a delimited text: literal text, escaped openers, and expressions between an opener and a closer.
A backslash before an opener makes it text; a backslash before a closer makes it part of the content.
The scanner passes over one character at a time; what is left of a delimiter or of an expression is counted
and skipped. It panics behind an escaped closer that ends in a backslash and has another closer directly behind
it: that backslash is taken for one that escapes the other closer, so the text to keep between the two would end
before it starts.
-/
namespace DynamicSql

inductive Token where
  | text (s : Text)
  /-- An opener that a backslash made text. -/
  | escaped
  /-- The content, without the backslashes of its closers, and the byte offset of the opener. -/
  | expr (content : Text) (offset : Nat)
  deriving DecidableEq, Repr, Inhabited

/-- Why a scan ends without tokens. -/
inductive ScanError where
  | emptyDelimiter
  /-- The opener at that offset has no closer; the text from there on begins with the snippet. -/
  | unterminated (offset : Nat) (snippet : Text)
  /-- The range of bytes that was asked for is no slice of the text. -/
  | range (start stop : Nat)
  deriving DecidableEq, Repr, Inhabited

namespace Token

def escape : Char := '\\'

def endsInEscape (delimiter : Text) : Bool := delimiter.getLast? == some escape

/-- Characters of the text that a fault about a missing closer shows. -/
def snippetLength : Nat := 40

inductive Content where
  /-- The content, and how many characters it and its closer take. -/
  | closed (content : Text) (length : Nat)
  | unclosed
  /-- Behind so many characters, the last of them an escaped closer, is another that seems to be escaped. -/
  | overlapping (length : Nat)
  deriving DecidableEq, Repr

/-- The same end with a character more in front. -/
def Content.cons (kept : Text) (passed : Nat) : Content → Content
  | closed content length => closed (kept ++ content) (passed + length)
  | unclosed => unclosed
  | overlapping length => overlapping (passed + length)

/-- Reads the content after an opener; of an escaped closer, so many characters are still to be passed. -/
def content (closing : Text) : Nat → Text → Content
  | _, [] => .unclosed
  | skip + 1, _ :: r => content closing skip r
  | 0, c :: r =>
    if closing.isPrefixOf (c :: r) then .closed [] closing.length
    else if c = escape ∧ closing.isPrefixOf r then
      if endsInEscape closing ∧ closing.isPrefixOf (r.drop closing.length) then
        .overlapping (closing.length + 1)
      else (content closing closing.length r).cons closing (closing.length + 1)
    else (content closing 0 r).cons [c] 1

/-- The pending text, which is kept in reverse, as a token before others. -/
def flush (pending : Text) (tokens : List Token) : List Token :=
  if pending.isEmpty then tokens else .text pending.reverse :: tokens

/--
Scans from a byte offset. So many characters are to be passed; the token before the pending text ended in a
backslash or not.
-/
def scanFrom (d : Delimiters) :
    Nat → Nat → Bool → Text → Text → Except ScanError (List Token)
  | _, _, _, pending, [] => .ok (flush pending [])
  | offset, skip + 1, afterEscape, pending, c :: r =>
    scanFrom d (offset + c.utf8Size) skip afterEscape pending r
  | offset, 0, afterEscape, pending, c :: r =>
    if d.opening.isPrefixOf (c :: r) then
      if afterEscape ∧ pending = [] then
        (scanFrom d (offset + c.utf8Size) (d.opening.length - 1) (endsInEscape d.opening) [] r).map
          fun tokens => .escaped :: tokens
      else
        match content d.closing 0 ((c :: r).drop d.opening.length) with
        | .closed content length =>
          (scanFrom d (offset + c.utf8Size) (d.opening.length + length - 1)
            (endsInEscape d.closing) [] r).map
            fun tokens => flush pending (.expr content offset :: tokens)
        | .unclosed => .error (.unterminated offset ((c :: r).take snippetLength))
        | .overlapping length =>
          let start := offset + Text.byteLength ((c :: r).take (d.opening.length + length))
          .error (.range start (start - 1))
    else if c = escape ∧ d.opening.isPrefixOf r then
      (scanFrom d (offset + c.utf8Size) d.opening.length (endsInEscape d.opening) [] r).map
        fun tokens => flush pending (.escaped :: tokens)
    else scanFrom d (offset + c.utf8Size) 0 false (c :: pending) r

def scan (d : Delimiters) (s : Text) : Except ScanError (List Token) :=
  if d.opening = [] ∨ d.closing = [] then .error .emptyDelimiter
  else scanFrom d 0 0 false [] s

def hasExpressionsFrom (opening : Text) : Nat → Bool → Text → Bool
  | _, _, [] => false
  | skip + 1, afterEscape, _ :: r => hasExpressionsFrom opening skip afterEscape r
  | 0, afterEscape, c :: r =>
    if opening.isPrefixOf (c :: r) then
      if afterEscape then hasExpressionsFrom opening (opening.length - 1) (endsInEscape opening) r
      else true
    else if c = escape ∧ opening.isPrefixOf r then
      hasExpressionsFrom opening opening.length (endsInEscape opening) r
    else hasExpressionsFrom opening 0 false r

/-- An opener that no backslash escapes is in the text. -/
def hasExpressions (d : Delimiters) (s : Text) : Bool :=
  if d.opening = [] then false else hasExpressionsFrom d.opening 0 false s

/-- The text with every expression replaced by what the handler answers to its content and offset. -/
def replaceAll {ε : Type} (d : Delimiters) (handler : Text → Nat → Except ε Text) :
    List Token → Except ε Text
  | [] => .ok []
  | .text s :: rest => (replaceAll d handler rest).map fun out => s ++ out
  | .escaped :: rest => (replaceAll d handler rest).map fun out => d.opening ++ out
  | .expr content offset :: rest => do
    let new ← handler content offset
    let out ← replaceAll d handler rest
    return new ++ out

end Token

/-- The opener at that offset has no closer. -/
def Delimiters.unterminated (d : Delimiters) (offset : Nat) (snippet : Text) : Fault :=
  let opening := String.ofList d.opening
  let closing := String.ofList d.closing
  Fault.templateSyntax s!"unterminated '{opening}' expression, expected '{closing}'" offset
    (String.ofList snippet)

def ScanError.halt (d : Delimiters) : ScanError → Halt
  | emptyDelimiter => .fault (.invalidConfiguration "Expression delimiters must not be empty")
  | unterminated offset snippet => .fault (d.unterminated offset snippet)
  | range _ _ => .panic

/-- Scans a text. -/
def Token.ofText (d : Delimiters) (s : Text) : Except Halt (List Token) :=
  (Token.scan d s).mapError (ScanError.halt d)

end DynamicSql
