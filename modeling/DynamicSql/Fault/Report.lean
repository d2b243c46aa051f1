import DynamicSql.Fault

/-!
The written forms of a fault: one line for messages that pass it on, and a report with its context, numbered
suggestions and help.
-/
namespace DynamicSql.Fault

def summary (f : Fault) : String :=
  let label := f.code.label
  let message := f.message
  s!"[{label}] {message}"

/-- Characters of a template that a report shows. -/
def shownTemplate : Nat := 80

def lineOf (opening : String) : Option String → String
  | some text => opening ++ text ++ "\n"
  | none => ""

/-- Further lines of an example are indented like its first. -/
def indented (code : String) : String :=
  String.ofList (Text.replace ['\n'] ('\n' :: List.replicate 5 ' ') code.toList)

def Suggestion.report (number : Nat) (s : Suggestion) : String :=
  let text := s.text
  let line := s!"  {number}. {text}\n"
  match s.code with
  | some code => line ++ "     \x60\x60\x60\n     " ++ indented code ++ "\n     \x60\x60\x60\n"
  | none => line

def reportSuggestions : Nat → List Suggestion → String
  | _, [] => ""
  | number, s :: rest => s.report number ++ reportSuggestions (number + 1) rest

def reportTemplate (f : Fault) : String :=
  match f.template with
  | none => ""
  | some template =>
    let shown := String.ofList (template.toList.take shownTemplate)
    match f.offset with
    | some offset => s!"  → At {offset}: {shown}\n"
    | none => s!"  → Template: {shown}\n"

def report (f : Fault) : String :=
  let label := f.code.label
  let message := f.message
  s!"Error [{label}]: {message}\n" ++
    lineOf "  → Operation: " f.operation ++
    lineOf "  → Expression: " f.expression ++
    reportTemplate f ++
    (if f.suggestions.isEmpty then "" else "\nSuggestions:\n" ++ reportSuggestions 1 f.suggestions) ++
    lineOf "\nHelp: " f.help

end DynamicSql.Fault
