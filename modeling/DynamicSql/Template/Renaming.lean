import DynamicSql.Template.Placeholder

/-!
Renaming in the placeholders of a text that an iteration made. The variables of the iteration give way to
their aliases, so each placeholder keeps its own value when the scope of its iteration is closed. All else is
written as it was read.
-/
namespace DynamicSql.Placeholder

/-- A name ends where a path goes on, an attribute follows, or a blank stands. -/
def endsName : Text → Bool
  | [] => true
  | c :: _ => c = '.' || c = ',' || c = ':' || c = '[' || Text.isBlank c

/-- The content with a name at its start replaced. -/
def renameReference? (content name standIn : Text) : Option Text :=
  let blanks := content.takeWhile Text.isBlank
  match Text.after? name (content.dropWhile Text.isBlank) with
  | some after => if endsName after then some (blanks ++ standIn ++ after) else none
  | none => none

/-- The first rename that applies to a path. -/
def renamePath? (content : Text) : Renames → Option Text
  | [] => none
  | (name, standIn) :: rest =>
    match renameReference? content name standIn with
    | some s => some s
    | none => renamePath? content rest

/-- The content with its variables renamed; nothing when it has none. -/
def rename? (content : Text) (renames : Renames) : Except Fault (Option Text) :=
  let head := (split content).1
  match enclosed? (Text.trim head) with
  | some inside =>
    let before := (head.takeWhile Text.isBlank).length + 1
    match Expr.renameRoots inside renames with
    | .error f => .error f
    | .ok none => .ok none
    | .ok (some renamed) =>
      .ok (some (content.take before ++ renamed ++ content.drop (before + inside.length)))
  | none => .ok (renamePath? content renames)

/-- A placeholder with that content, its closers escaped. -/
def write (d : Delimiters) (content : Text) : Text :=
  d.opening ++ Text.replace d.closing (Token.escape :: d.closing) content ++ d.closing

def renameTokens (d : Delimiters) (renames : Renames) : List Token → Except Fault Text
  | [] => .ok []
  | .text s :: rest => (renameTokens d renames rest).map fun out => s ++ out
  | .escaped :: rest =>
    (renameTokens d renames rest).map fun out => Token.escape :: (d.opening ++ out)
  | .expr content _ :: rest =>
    match rename? content renames with
    | .error f => .error f
    | .ok renamed =>
      (renameTokens d renames rest).map fun out => write d (renamed.getD content) ++ out

/-- The text with the variables of its placeholders renamed. -/
def renameAll (d : Delimiters) (renames : Renames) (s : Text) : Except Halt Text :=
  if renames = [] then .ok s
  else
    match Token.ofText d s with
    | .error h => .error h
    | .ok tokens => Halt.raise (renameTokens d renames tokens)

end DynamicSql.Placeholder
