import DottedPath.Decimal.Digits
import DottedPath.Decimal.Layout
import DottedPath.Document.Yaml

/-!
The text of YAML documents, in block style. A sequence in a mapping is not indented, a text of
several lines is a literal block, and a text that would mean something else, or cannot stand without
quotes, is quoted.
-/

namespace DottedPath.Document.Yaml

/-! ### Scalars -/

/-- The words that older readers take for booleans. -/
def oldBooleans : List String :=
  ["y", "Y", "yes", "Yes", "YES", "n", "N", "no", "No", "NO", "true", "True", "TRUE", "false",
    "False", "FALSE", "on", "On", "ON", "off", "Off", "OFF"]

/-- Without quotes it would be read as something else than a text. -/
def isAmbiguous (s : String) : Bool :=
  oldBooleans.contains s || isPaddedNumber s.toList ||
    match ofPlain? s with
    | some (str _) => false
    | some _ => true
    | none => true

/-- Stands as it is between double quotes, and without quotes. -/
def isPrintable (c : Char) : Bool :=
  let n := c.toNat
  n == 0x0A || (0x20 ≤ n && n ≤ 0x7E) || (0xA0 ≤ n && n ≤ 0xD7FF) ||
    (0xE000 ≤ n && n ≤ 0xFFFD && n != 0xFEFF) || 0x10000 ≤ n

/-- Ends a line. -/
def isBreak (c : Char) : Bool :=
  ['\n', '\r', '\u0085', '\u2028', '\u2029'].contains c

/-- A blank or the end comes next. -/
def blankNext : List Char → Bool
  | [] => true
  | c :: _ => c == ' ' || c == '\t' || isBreak c

/-- A word that begins so means something in block style. -/
def beginsMarked : List Char → Bool
  | '-' :: '-' :: '-' :: _ => true
  | '.' :: '.' :: '.' :: _ => true
  | c :: rest =>
    "#,[]\x7b\x7d&*!|>'\"%@".toList.contains c || c.toNat == 0x60 ||
      ((c == '?' || c == ':' || c == '-') && blankNext rest)
  | [] => false

/-- A colon before a blank, or a number sign after one. -/
def hasMark : (afterBlank : Bool) → List Char → Bool
  | _, [] => false
  | afterBlank, c :: rest =>
    (c == ':' && blankNext rest) || (c == '#' && afterBlank) ||
      hasMark (c == ' ' || c == '\t' || isBreak c) rest

/-- Can stand without quotes. -/
def isPlain (cs : List Char) : Bool :=
  !beginsMarked cs && !hasMark false (cs.drop 1) && cs.all isPrintable && !cs.any isBreak &&
    cs.head? != some ' ' && cs.getLast? != some ' '

/-- A space before a line break. -/
def hasSpaceBreak : List Char → Bool
  | ' ' :: c :: rest => isBreak c || hasSpaceBreak (c :: rest)
  | _ :: rest => hasSpaceBreak rest
  | [] => false

/-- Can stand as a block of lines. -/
def isBlock (cs : List Char) : Bool :=
  cs.all isPrintable && cs.getLast? != some ' ' && !hasSpaceBreak cs

/-- A hexadecimal number of a width, in capital letters. -/
def hexText (width n : Nat) : String :=
  String.ofList (Decimal.padZeros width ((Nat.toDigits 16 n).map Char.toUpper))

/-- A character between double quotes. -/
def escaped (c : Char) : String :=
  match c with
  | '"' => "\\\""
  | '\\' => "\\\\"
  | '\n' => "\\n"
  | '\r' => "\\r"
  | '\t' => "\\t"
  | c =>
    let n := c.toNat
    if n == 0 then "\\0"
    else if n == 7 then "\\a"
    else if n == 8 then "\\b"
    else if n == 0x0B then "\\v"
    else if n == 0x0C then "\\f"
    else if n == 0x1B then "\\e"
    else if n == 0x85 then "\\N"
    else if n == 0x2028 then "\\L"
    else if n == 0x2029 then "\\P"
    else if isPrintable c then String.ofList [c]
    else if n < 0x100 then "\\x" ++ hexText 2 n
    else if n < 0x10000 then "\\u" ++ hexText 4 n
    else "\\U" ++ hexText 8 n

/-- A text in double quotes. -/
def doubleQuoted (s : String) : String :=
  "\"" ++ "".intercalate (s.toList.map escaped) ++ "\""

/-- A text in single quotes, each of its own written twice. -/
def singleQuoted (s : String) : String :=
  let chars := s.toList.map fun c => if c.toNat == 39 then "''" else String.ofList [c]
  "'" ++ "".intercalate chars ++ "'"

/-- A text on one line. -/
def lineText (s : String) : String :=
  if s.toList.any (· == '\n') then doubleQuoted s
  else if isAmbiguous s || !isPlain s.toList then
    if s.toList.all isPrintable then singleQuoted s else doubleQuoted s
  else s

/-- The mark of a literal block: the indentation if it cannot be seen, and what becomes of the line
breaks at the end. -/
def blockMark (cs : List Char) : String :=
  let hint := if cs.head?.any fun c => c == ' ' || isBreak c then "2" else ""
  let chomp := match cs.reverse with
    | '\n' :: '\n' :: _ => "+"
    | ['\n'] => "+"
    | '\n' :: _ => ""
    | _ => "-"
  "|" ++ hint ++ chomp

/-- The lines of a literal block. -/
def blockLines (s : String) : List String :=
  let lines := s.splitOn "\n"
  if lines.getLast? == some "" then lines.dropLast else lines

/-! ### Blocks -/

/-- A node as text: on the line that it begins on, or in lines of its own after that. -/
inductive Block where
  | line (text : String)
  /-- A mark, and lines that are indented from where it stands. -/
  | literal (mark : String) (lines : List String)
  | sequence (lines : List String)
  | mapping (lines : List String)

/-- Lines moved to the right. Empty lines stay empty. -/
def indented (lines : List String) : List String :=
  lines.map fun l => if l.isEmpty then l else "  " ++ l

/-- Lines after a mark: the first one beside it, the others below. -/
def hanging (mark : String) (lines : List String) : List String :=
  match lines with
  | [] => [mark]
  | l :: ls => (mark ++ l) :: indented ls

namespace Block

/-- The lines of a node after the mark of an item. -/
def after (mark : String) : Block → List String
  | line t => [mark ++ t]
  | literal m lines => (mark ++ m) :: indented lines
  | sequence lines => hanging mark lines
  | mapping lines => hanging mark lines

/-- The lines of a node after a key. -/
def afterKey (key : String) : Block → List String
  | line t => [key ++ ": " ++ t]
  | literal m lines => (key ++ ": " ++ m) :: indented lines
  | sequence lines => (key ++ ":") :: lines
  | mapping lines => (key ++ ":") :: indented lines

/-- The lines of a document. -/
def whole : Block → List String
  | line t => [t]
  | literal m lines => m :: indented lines
  | sequence lines => lines
  | mapping lines => lines

end Block

/-- A text as a node. -/
def textBlock (s : String) : Block :=
  if s.toList.any (· == '\n') && isBlock s.toList then .literal (blockMark s.toList) (blockLines s)
  else .line (lineText s)

/-- The text of a key that stands on one line before its colon. -/
def keyLine? : Block → Yaml → Option String
  | _, .str s => if (lineText s).length ≤ 128 then some (lineText s) else none
  | .line t, _ => some t
  | _, _ => none

mutual

/-- The text of a node. -/
def block : Yaml → Block
  | null => .line "null"
  | bool b => .line (if b then "true" else "false")
  | int i => .line (Decimal.intText i)
  | float f => .line (Decimal.Layout.yaml.text f)
  | str s => textBlock s
  | sequence items => if items.isEmpty then .line "[]" else .sequence (itemLines items)
  | mapping entries => if entries.isEmpty then .line "\x7b\x7d" else .mapping (entryLines entries)
  | tagged _ content => block content

def itemLines : List Yaml → List String
  | [] => []
  | x :: xs => (block x).after "- " ++ itemLines xs

def entryLines : List (Yaml × Yaml) → List String
  | [] => []
  | (k, x) :: entries =>
    let here := match keyLine? (block k) k with
      | some key => (block x).afterKey key
      | none => (block k).after "? " ++ (block x).after ": "
    here ++ entryLines entries

end

/-- The text of a document. -/
def text (y : Yaml) : String :=
  "".intercalate ((block y).whole.map (· ++ "\n"))

end DottedPath.Document.Yaml
