import DottedPath.Command.Options

/-!
The texts that explain the command line.
-/

namespace DottedPath.Command

/-- The word that calls the program. -/
def programName : String := "pathquill"

/-- The program with its version. -/
def versionText : String := programName ++ " 0.3.0\n"

/-- What the program does. -/
def programPurpose : String := "Query and rewrite JSON/YAML documents with dotted paths"

/-- What the command for help does. -/
def helpPurpose : String := "Print this message or the help of the given subcommand(s)"

/-- Rows of two columns, the second one aligned. -/
def table (rows : List (String × String)) : List String :=
  let width := (rows.map fun (left, _) => left.length).foldl max 0
  rows.map fun (left, right) =>
    "  " ++ left ++ String.ofList (List.replicate (width + 2 - left.length) ' ') ++ right

/-- A part of a help text under its heading; nothing without rows. -/
def helpPart (heading : String) (rows : List (String × String)) : List String :=
  if rows.isEmpty then [] else "" :: heading :: table rows

/-- A help text: a purpose, the words of a command line, and parts. -/
def helpLines (purpose usage : String) (parts : List (List String)) : String :=
  "\n".intercalate ([purpose, "", "Usage: " ++ programName ++ usage] ++ parts.flatten) ++ "\n"

/-- The rows of the flags at a level. -/
def flagRows (level : Level) : List (String × String) :=
  level.flags.map fun flag => (flag.text, flag.purpose)

/-- The help text of a level. -/
def Level.helpText : Level → String
  | top =>
    helpLines programPurpose " [OPTIONS] <COMMAND>"
      [helpPart "Commands:"
        ((Name.all.map fun n => (n.word, n.purpose)) ++ [("help", helpPurpose)]),
       helpPart "Options:" (flagRows top)]
  | command n =>
    helpLines n.purpose
      (" " ++ n.word ++ " [OPTIONS]" ++ "".intercalate (n.arguments.map fun a => " " ++ a.text))
      [helpPart "Arguments:" (n.arguments.map fun a => (a.text, "")),
       helpPart "Options:" (flagRows (command n))]

/-- The help text of the command for help. -/
def helpOnHelpText : String :=
  helpLines helpPurpose " help [COMMAND]..."
    [helpPart "Arguments:" [("[COMMAND]...", "Print help for the subcommand(s)")]]

namespace Stop

/-- What is printed where a command line asks for a text; none where it is no command line. -/
def text? : Stop → Option String
  | help level => some level.helpText
  | helpOnHelp => some helpOnHelpText
  | version => some versionText
  | usage _ => none

/-- What is said where there is no text to print. -/
def message : Stop → String
  | usage e => e.message
  | _ => ""

/-- The status of the program. -/
def status : Stop → Nat
  | usage _ => 2
  | _ => 0

end Stop

end DottedPath.Command
