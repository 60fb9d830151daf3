/-!
Command lines: which command they ask for, with which arguments. Flags for the input file and the
output format may stand before the command or after it; what stands after it counts.
-/

namespace DottedPath.Command

/-! ### Commands -/

/-- What can be done with a document. -/
inductive Name where
  | get
  | has
  | expand
  | pluck
  | update
  | remove
  | unpack
  | pack
deriving DecidableEq, Repr

/-- What a command is given besides flags. -/
structure Argument where
  name : String
  isRequired : Bool
  isRepeated : Bool

/-- How an argument is shown. -/
def Argument.text (a : Argument) : String :=
  (if a.isRequired then "<" ++ a.name ++ ">" else "[" ++ a.name ++ "]") ++
    (if a.isRepeated then "..." else "")

namespace Name

/-- All commands, in the order in which they are listed. -/
def all : List Name := [get, has, expand, pluck, update, remove, unpack, pack]

/-- The word for a command. -/
def word : Name → String
  | get => "get"
  | has => "has"
  | expand => "expand"
  | pluck => "pluck"
  | update => "update"
  | remove => "remove"
  | unpack => "unpack"
  | pack => "pack"

/-- The command that a word asks for. -/
def ofWord? (w : String) : Option Name :=
  all.find? fun n => n.word == w

/-- What a command does. -/
def purpose : Name → String
  | get => "Print the value at each path"
  | has => "Exit with status 0 if the path matches, 1 otherwise"
  | expand => "Print the concrete paths a pattern matches"
  | pluck => "Print matched paths with their values"
  | update => "Write a value (parsed as JSON, or taken as text) at a path"
  | remove => "Remove a path, optionally only where it holds the given value"
  | unpack => "Flatten the document into a path-to-value mapping"
  | pack => "Rebuild a document from a path-to-value mapping"

/-- The arguments of a command. -/
def arguments : Name → List Argument
  | get => [⟨"PATHS", false, true⟩]
  | has => [⟨"PATH", true, false⟩]
  | expand => [⟨"PATHS", false, true⟩]
  | pluck => [⟨"PATHS", false, true⟩]
  | update => [⟨"PATH", true, false⟩, ⟨"VALUE", true, false⟩]
  | remove => [⟨"PATH", true, false⟩, ⟨"VALUE", false, false⟩]
  | unpack => []
  | pack => []

/-- A command can write its result back to its input. -/
def mayWriteBack : Name → Bool
  | update => true
  | remove => true
  | _ => false

end Name

/-- A command with its arguments. -/
inductive Action where
  | get (paths : List String)
  | has (path : String)
  | expand (paths : List String)
  | pluck (paths : List String)
  | update (path value : String)
  | remove (path : String) (value : Option String)
  | unpack
  | pack
deriving DecidableEq, Repr

/-- The action of a command with some arguments, if they are enough and not too many. -/
def Name.action? : Name → List String → Option Action
  | get, paths => some (.get paths)
  | has, [path] => some (.has path)
  | expand, paths => some (.expand paths)
  | pluck, paths => some (.pluck paths)
  | update, [path, value] => some (.update path value)
  | remove, [path] => some (.remove path none)
  | remove, [path, value] => some (.remove path (some value))
  | unpack, [] => some .unpack
  | pack, [] => some .pack
  | _, _ => none

/-! ### Flags -/

/-- What stands for a setting of one run. -/
inductive Flag where
  | file
  | output
  | inPlace
  | help
  | version
deriving DecidableEq, Repr

namespace Flag

/-- The long form of a flag. -/
def word : Flag → String
  | file => "file"
  | output => "output"
  | inPlace => "in-place"
  | help => "help"
  | version => "version"

/-- The short form of a flag. -/
def letter? : Flag → Option Char
  | file => some 'f'
  | output => some 'o'
  | inPlace => none
  | help => some 'h'
  | version => some 'V'

/-- What the value of a flag is called; none for a flag without a value. -/
def valueName? : Flag → Option String
  | file => some "FILE"
  | output => some "OUTPUT"
  | _ => none

/-- What a flag does. -/
def purpose : Flag → String
  | file => "Input file (JSON or YAML, optionally .gz); reads stdin when omitted"
  | output => "Output format: json or yaml (default from config)"
  | inPlace => "Write the result back to the input file"
  | help => "Print help"
  | version => "Print version"

/-- How a flag is shown: both its forms and its value. -/
def text (flag : Flag) : String :=
  (match flag.letter? with
    | some c => "-" ++ String.ofList [c] ++ ", "
    | none => "    ") ++ "--" ++ flag.word ++
  (match flag.valueName? with
    | some name => " <" ++ name ++ ">"
    | none => "")

end Flag

/-- Where flags stand: before any command, or after one. -/
inductive Level where
  | top
  | command (n : Name)
deriving DecidableEq, Repr

/-- The flags at a level, in the order in which they are listed. -/
def Level.flags : Level → List Flag
  | top => [.file, .output, .help, .version]
  | command n =>
    if n.mayWriteBack then [.file, .inPlace, .output, .help] else [.file, .output, .help]

/-! ### Words -/

/-- Why words are no command line. -/
inductive UsageError where
  | noCommand
  | unknownCommand (word : String)
  | unknownFlag (word : String)
  | flagTwice (flag : Flag)
  | noValue (flag : Flag)
  | unwantedValue (flag : Flag)
  | tooManyArguments (word : String)
  | tooFewArguments (n : Name)
deriving DecidableEq, Repr

/-- The text of a failure. -/
def UsageError.message : UsageError → String
  | noCommand => "a command is required"
  | unknownCommand w => "unrecognized command '" ++ w ++ "'"
  | unknownFlag w => "unexpected flag '" ++ w ++ "'"
  | flagTwice flag => "'--" ++ flag.word ++ "' cannot be used twice"
  | noValue flag => "'--" ++ flag.word ++ "' requires a value"
  | unwantedValue flag => "'--" ++ flag.word ++ "' takes no value"
  | tooManyArguments w => "unexpected argument '" ++ w ++ "'"
  | tooFewArguments n => "'" ++ n.word ++ "' requires more arguments"

/-- What one word of a command line is. -/
inductive Word where
  | argument (text : String)
  /-- After it there are only arguments. -/
  | rest
  | long (name : List Char) (value : Option (List Char))
  | short (letter : Char) (value : Option (List Char))

/-- A text and what follows an equals sign in it. -/
def splitEquals (cs : List Char) : List Char × Option (List Char) :=
  match cs.dropWhile (· != '=') with
  | [] => (cs, none)
  | _ :: value => (cs.takeWhile (· != '='), some value)

/-- The value that is written right after a short flag, with or without an equals sign. -/
def attached : List Char → Option (List Char)
  | [] => none
  | '=' :: value => some value
  | value => some value

/-- Reads one word. A single dash is an argument. -/
def Word.ofText (text : String) : Word :=
  match text.toList with
  | ['-', '-'] => rest
  | '-' :: '-' :: cs =>
    let (name, value) := splitEquals cs
    long name value
  | '-' :: c :: cs => short c (attached cs)
  | _ => argument text

/-- The flag of a word, among those of its level, with the value that is attached to it. -/
def Level.flag? (level : Level) : Word → Option (Flag × Option String)
  | .long name value =>
    (level.flags.find? fun f => f.word.toList == name).map fun f => (f, value.map String.ofList)
  | .short c value =>
    (level.flags.find? fun f => f.letter? == some c).map fun f => (f, value.map String.ofList)
  | _ => none

/-! ### Reading one level -/

/-- What is given at one level. -/
structure Given where
  file : Option String := none
  output : Option String := none
  inPlace : Bool := false
  arguments : List String := []

/-- Why the reading of a command line ends before its end. -/
inductive Stop where
  | help (level : Level)
  | helpOnHelp
  | version
  | usage (e : UsageError)

/-- Adds the value of a flag. A flag has one value, and the name of a file is not empty. -/
def Given.withValue (g : Given) (flag : Flag) (value : String) : Except Stop Given :=
  match flag with
  | .file =>
    if value.isEmpty then throw (.usage (.noValue flag))
    else if g.file.isSome then throw (.usage (.flagTwice flag))
    else pure { g with file := some value }
  | .output =>
    if g.output.isSome then throw (.usage (.flagTwice flag))
    else pure { g with output := some value }
  | _ => throw (.usage (.unwantedValue flag))

/-- Adds a flag without a value. -/
def Given.withFlag (g : Given) (level : Level) (flag : Flag) : Except Stop Given :=
  match flag with
  | .help => throw (.help level)
  | .version => throw .version
  | .inPlace =>
    if g.inPlace then throw (.usage (.flagTwice flag)) else pure { g with inPlace := true }
  | _ => throw (.usage (.noValue flag))

/-- The most arguments at a level; none if there is no limit. -/
def Level.greatestCount? : Level → Option Nat
  | top => some 0
  | command n => if n.arguments.any Argument.isRepeated then none else some n.arguments.length

/-- Adds an argument. -/
def Given.withArgument (g : Given) (level : Level) (text : String) : Except Stop Given :=
  if level.greatestCount?.any (· ≤ g.arguments.length) then
    throw (.usage (.tooManyArguments text))
  else pure { g with arguments := g.arguments ++ [text] }

/-- Reads the words of a level, where the value of a flag may be pending. The words before any
command end at the first argument; answers the words from there on. -/
def Given.read (level : Level) : (pending : Option Flag) → Given → List String →
    Except Stop (Given × List String)
  | some flag, _, [] => throw (.usage (.noValue flag))
  | some flag, g, text :: texts =>
    match Word.ofText text with
    | .argument value => do read level none (← g.withValue flag value) texts
    | _ => throw (.usage (.noValue flag))
  | none, g, [] => pure (g, [])
  | none, g, text :: texts =>
    match Word.ofText text with
    | .argument text => do
      if level == .top then pure (g, text :: texts)
      else read level none (← g.withArgument level text) texts
    | .rest => do
      pure (← texts.foldlM (fun g text => g.withArgument level text) g, [])
    | word =>
      match level.flag? word with
      | none => throw (.usage (.unknownFlag text))
      | some (flag, value) =>
        if flag.valueName?.isSome then
          match value with
          | some value => do read level none (← g.withValue flag value) texts
          | none => read level (some flag) g texts
        else
          match word, value with
          | .long .., some _ => throw (.usage (.unwantedValue flag))
          | _, _ => do read level none (← g.withFlag level flag) texts

/-! ### Reading command lines -/

/-- A command line: an action, the input file and the output format. -/
structure Invocation where
  action : Action
  file : Option String
  output : Option String
  /-- The result goes back to the input file. -/
  inPlace : Bool
deriving DecidableEq, Repr

/-- What the words after `help` ask for. -/
def helpOn : List String → Stop
  | [] => .help .top
  | [w] =>
    if w == "help" then .helpOnHelp
    else
      match Name.ofWord? w with
      | some n => .help (.command n)
      | none => .usage (.unknownCommand w)
  | w :: v :: _ =>
    .usage (.unknownCommand (if (Name.ofWord? w).isSome || w == "help" then v else w))

/-- Reads a command line. -/
def Invocation.read (texts : List String) : Except Stop Invocation := do
  match ← Given.read .top none {} texts with
  | (_, []) => throw (.usage .noCommand)
  | (outer, w :: texts) =>
    if w == "help" then throw (helpOn texts)
    else
      match Name.ofWord? w with
      | none => throw (.usage (.unknownCommand w))
      | some n => do
        let (inner, _) ← Given.read (.command n) none {} texts
        match n.action? inner.arguments with
        | some action =>
          pure ⟨action, inner.file.orElse fun _ => outer.file,
            inner.output.orElse fun _ => outer.output, inner.inPlace⟩
        | none => throw (.usage (.tooFewArguments n))

end DottedPath.Command
