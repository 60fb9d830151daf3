import DottedPath.Decimal.Reader
import DottedPath.Document.Yaml

/-!
The scalars of YAML documents: plain and quoted words, which may go over several lines, and blocks
of lines. A break between two lines of a scalar counts as a space, and `n + 1` breaks as `n`.
-/

namespace DottedPath.Document

/-- Where a reading of a YAML text is. -/
structure YamlCursor where
  rest : List Char
  /-- The number of characters before it on its line. -/
  column : Nat
  anchors : List (List Char × Yaml)

/-- A reader of YAML. -/
abbrev YamlScan := StateT YamlCursor Option

namespace YamlScan

/-- A space or a tab. -/
def isBlank (c : Char) : Bool := c == ' ' || c == '\t'

/-- A blank, a line break or the end comes next. -/
def gapNext : List Char → Bool
  | [] => true
  | c :: _ => isBlank c || c == '\n'

/-- Has a meaning inside brackets. -/
def isFlowMark (c : Char) : Bool :=
  ",[]\x7b\x7d".toList.contains c

/-! ### Moving on -/

/-- The column after a character. -/
def columnAfter (column : Nat) (c : Char) : Nat :=
  if c == '\n' then 0 else column + 1

/-- What is left. -/
def remaining : YamlScan (List Char) := do
  pure (← get).rest

/-- Takes some characters. -/
def advance (count : Nat) : YamlScan Unit :=
  modify fun c =>
    { c with rest := c.rest.drop count, column := (c.rest.take count).foldl columnAfter c.column }

/-- The next character. -/
def peek : YamlScan (Option Char) := do
  pure (← remaining).head?

/-- Takes a character if it comes next. -/
def eat (c : Char) : YamlScan Bool := do
  if (← peek) == some c then
    advance 1
    pure true
  else pure false

/-- Takes characters as long as they pass a test. -/
def takeWhile (p : Char → Bool) : YamlScan (List Char) := do
  let cs := (← remaining).takeWhile p
  advance cs.length
  pure cs

/-- A reader that is tried: if it fails nothing is taken. -/
def attempt {α : Type} (r : YamlScan α) : YamlScan (Option α) := fun c =>
  match r c with
  | some (a, c') => some (some a, c')
  | none => some (none, c)

/-- The number of blanks, comments and line breaks ahead. Outside of brackets a tab does not
indent. -/
def gapLength (inFlow : Bool) : (fresh comment : Bool) → List Char → Nat
  | _, _, [] => 0
  | fresh, comment, c :: cs =>
    if c == '\n' then gapLength inFlow true false cs + 1
    else if comment then gapLength inFlow fresh true cs + 1
    else if c == '#' then gapLength inFlow fresh true cs + 1
    else if c == ' ' || (c == '\t' && (inFlow || !fresh)) then gapLength inFlow fresh false cs + 1
    else 0

/-- Takes blanks, comments and line breaks; tells if there was a line break. -/
def skipGap (inFlow : Bool) : YamlScan Bool := do
  let c ← get
  let n := gapLength inFlow (c.column == 0) false c.rest
  advance n
  pure ((c.rest.take n).any (· == '\n'))

/-- A line that ends or begins a document. -/
def isDocumentMark (cs : List Char) : Bool :=
  ("---".toList.isPrefixOf cs || "...".toList.isPrefixOf cs) && gapNext (cs.drop 3)

/-- Nothing of the document is left. -/
def atEnd : YamlScan Bool := do
  let c ← get
  pure (c.rest.isEmpty || (c.column == 0 && isDocumentMark c.rest))

/-! ### Words over several lines -/

/-- The break between two lines of a scalar, with a number of empty lines between them. -/
def folded (emptyLines : Nat) : List Char :=
  if emptyLines == 0 then [' '] else List.replicate emptyLines '\n'

/-- The breaks and blanks from a line break on: the number of breaks, and all characters. -/
def breaksFrom : List Char → Nat × Nat
  | '\n' :: cs => let (n, k) := breaksFrom cs; (n + 1, k + 1)
  | c :: cs => if isBlank c then let (n, k) := breaksFrom cs; (n, k + 1) else (0, 0)
  | [] => (0, 0)

/-- The characters of a plain word up to the end of its line. -/
def plainLine (inFlow : Bool) : (afterBlank : Bool) → List Char → List Char
  | _, [] => []
  | afterBlank, c :: cs =>
    if c == '\n' || (c == '#' && afterBlank) || (c == ':' && gapNext cs) ||
        (inFlow && isFlowMark c) then []
    else c :: plainLine inFlow (isBlank c) cs

/-- A line without the blanks at its end. -/
def trimmedEnd (cs : List Char) : List Char :=
  (cs.reverse.dropWhile isBlank).reverse

/-- Can begin a plain word. -/
def beginsPlain (inFlow : Bool) : List Char → Bool
  | [] => false
  | c :: cs =>
    if c == '-' || c == '?' || c == ':' then !gapNext cs && !(inFlow && cs.head?.any isFlowMark)
    else
      !isBlank c && c != '\n' && !"#&*!|>'\"%@,[]\x7b\x7d".toList.contains c && c.toNat != 0x60

/-- The lines of a plain word after the first one: those that are indented deeper than `parent`. -/
def plainRest (inFlow : Bool) (parent : Int) : Nat → YamlScan (List Char)
  | 0 => pure []
  | n + 1 => do
    let before ← get
    discard (takeWhile isBlank)
    if (← peek) != some '\n' then
      set before
      pure []
    else
      let (breaks, length) := breaksFrom (← remaining)
      advance length
      let c ← get
      let line := trimmedEnd (plainLine inFlow true c.rest)
      if (!inFlow && (c.column : Int) ≤ parent) || line.isEmpty || (← atEnd) then
        set before
        pure []
      else
        advance line.length
        pure (folded (breaks - 1) ++ line ++ (← plainRest inFlow parent n))

/-- A plain word. -/
def plainWord (inFlow : Bool) (parent : Int) : YamlScan String := do
  let cs ← remaining
  if !beginsPlain inFlow cs then failure
  let line := trimmedEnd (plainLine inFlow false cs)
  advance line.length
  pure (String.ofList (line ++ (← plainRest inFlow parent cs.length)))

/-- A plain word on one line. -/
def plainLineWord (inFlow : Bool) : YamlScan String := do
  let cs ← remaining
  if !beginsPlain inFlow cs then failure
  let line := trimmedEnd (plainLine inFlow false cs)
  advance line.length
  pure (String.ofList line)

/-! ### Quoted words -/

/-- The character of an escape of one letter. -/
def letterEscape? (c : Char) : Option Char :=
  [('0', '\x00'), ('a', '\x07'), ('b', '\x08'), ('t', '\t'), ('\t', '\t'), ('n', '\n'),
    ('v', '\x0b'), ('f', '\x0c'), ('r', '\r'), ('e', '\x1b'), (' ', ' '), ('"', '"'), ('/', '/'),
    ('\\', '\\'), ('N', '\u0085'), ('_', '\u00a0'), ('L', '\u2028'), ('P', '\u2029')].lookup c

/-- The character of an escape by number. -/
def numberEscape (width : Nat) : YamlScan Char := do
  let ds := (← remaining).take width
  advance width
  match if ds.length == width then Decimal.readNat? 16 ds else none with
  | some n => if n.isValidChar then pure (Char.ofNat n) else failure
  | none => failure

/-- A break inside quotes: the blanks around it are not part of the word. -/
def quotedBreak : YamlScan (List Char) := do
  let (breaks, length) := breaksFrom (← remaining)
  advance length
  pure (folded (breaks - 1))

/-- The characters up to the closing double quote. -/
def doubleQuotedRest : Nat → YamlScan (List Char)
  | 0 => failure
  | n + 1 => do
    let blanks ← takeWhile isBlank
    match ← remaining with
    | [] => failure
    | '"' :: _ => do
      advance 1
      pure blanks
    | '\n' :: _ => do
      let fold ← quotedBreak
      pure (fold ++ (← doubleQuotedRest n))
    | '\\' :: '\n' :: _ => do
      advance 2
      discard (takeWhile isBlank)
      pure (blanks ++ (← doubleQuotedRest n))
    | '\\' :: c :: _ => do
      advance 2
      let d ← match c with
        | 'x' => numberEscape 2
        | 'u' => numberEscape 4
        | 'U' => numberEscape 8
        | c => match letterEscape? c with
          | some d => pure d
          | none => failure
      pure (blanks ++ d :: (← doubleQuotedRest n))
    | c :: _ => do
      advance 1
      pure (blanks ++ c :: (← doubleQuotedRest n))

/-- The single quote. -/
def quote : Char := Char.ofNat 39

/-- The characters up to the closing single quote. -/
def singleQuotedRest : Nat → YamlScan (List Char)
  | 0 => failure
  | n + 1 => do
    let blanks ← takeWhile isBlank
    match ← remaining with
    | [] => failure
    | '\n' :: _ => do
      let fold ← quotedBreak
      pure (fold ++ (← singleQuotedRest n))
    | c :: rest => do
      if c == quote then
        if rest.head? == some quote then
          advance 2
          pure (blanks ++ quote :: (← singleQuotedRest n))
        else
          advance 1
          pure blanks
      else
        advance 1
        pure (blanks ++ c :: (← singleQuotedRest n))

/-- A quoted word, if one comes next. -/
def quotedWord? : YamlScan (Option String) := do
  let n := (← remaining).length
  if ← eat '"' then pure (some (String.ofList (← doubleQuotedRest n)))
  else if ← eat quote then pure (some (String.ofList (← singleQuotedRest n)))
  else pure none

/-! ### Blocks of lines -/

/-- What becomes of the line breaks at the end of a block: one is kept, none or all. -/
inductive Chomp where
  | clip
  | strip
  | keep
deriving DecidableEq

/-- The lines of a text with their indentation taken off, as long as they are blank or indented
enough; and the number of characters taken. -/
def blockLinesFrom (indent : Nat) : List (List Char) → List (List Char) × Nat
  | [] => ([], 0)
  | l :: ls =>
    let spaces := (l.takeWhile (· == ' ')).length
    if indent ≤ spaces || l.all (· == ' ') then
      let (more, n) := blockLinesFrom indent ls
      (l.drop indent :: more, n + l.length + 1)
    else ([], 0)

/-- The lines of a text; what follows the last break is one if it is not empty. -/
def linesOf (cs : List Char) : List (List Char) :=
  let lines := cs.splitOn '\n'
  if lines.getLast? == some [] then lines.dropLast else lines

/-- Joins the lines of a folded block. Indented lines keep their breaks. -/
def foldLines : (previous : Option (List Char)) → (emptyLines : Nat) → List (List Char) → List Char
  | _, _, [] => []
  | previous, empty, l :: ls =>
    if l.isEmpty then foldLines previous (empty + 1) ls
    else
      let indentedLine := l.head?.any isBlank
      let gap := match previous with
        | none => List.replicate empty '\n'
        | some p =>
          if indentedLine || p.head?.any isBlank then List.replicate (empty + 1) '\n'
          else folded empty
      gap ++ l ++ foldLines (some l) 0 ls

/-- The indentation of the first line that is not blank. -/
def firstIndent (ls : List (List Char)) : Nat :=
  ((ls.find? fun l => !l.all (· == ' ')).map fun l => (l.takeWhile (· == ' ')).length).getD 0

/-- A block of lines after its mark. -/
def blockScalar (isFolded : Bool) (parent : Int) : YamlScan String := do
  let header ← takeWhile fun c => c == '+' || c == '-' || c.isDigit
  let chomp := if header.contains '+' then Chomp.keep
    else if header.contains '-' then Chomp.strip else Chomp.clip
  let explicit := (header.find? Char.isDigit).map fun c => c.toNat - 48
  discard (takeWhile isBlank)
  if (← peek) == some '#' then discard (takeWhile (· != '\n'))
  if !(← eat '\n') then
    if (← remaining).isEmpty then pure () else failure
  let source ← remaining
  let lines := linesOf source
  let least := (max parent (-1) + 1).toNat
  let indent := match explicit with
    | some n => (max parent 0).toNat + n
    | none => max least (firstIndent lines)
  let (taken, length) := blockLinesFrom indent lines
  advance length
  let body := (taken.reverse.dropWhile List.isEmpty).reverse
  let ending := taken.length - body.length
  let text := if isFolded then foldLines none 0 body else ['\n'].intercalate body
  let isBroken := length ≤ source.length
  let tail := match if isBroken then chomp else .strip with
    | .strip => []
    | .clip => if body.isEmpty then [] else ['\n']
    | .keep => List.replicate (if body.isEmpty then ending else ending + 1) '\n'
  pure (String.ofList (text ++ tail))

end YamlScan

end DottedPath.Document
