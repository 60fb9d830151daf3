import DottedPath.Decimal.Reader
import DottedPath.Document.Json
import DottedPath.Document.Scan

/-!
TOML documents: tables of keys and values, read strictly, and the text of their single values. A key
that is given twice makes the text no document.
-/

namespace DottedPath.Document

/-- A TOML value. Dates and times are only known to be such. -/
inductive Toml where
  | str (s : String)
  | int (i : Int)
  | float (f : Float)
  | bool (b : Bool)
  | time
  | array (items : List Toml)
  | table (fields : List (String × Toml))
deriving Inhabited

namespace Toml

/-! ### Keys and texts -/

/-- Spaces and tabs. -/
def blanks : Scan Unit :=
  Scan.skipWhile fun c => c == ' ' || c == '\t'

/-- Can stand in a key without quotes. -/
def isBare (c : Char) : Bool :=
  c.isAlphanum || c == '_' || c == '-'

/-- The single quote. -/
def quote : Char := Char.ofNat 39

/-- A control character that may not stand in a text, tabs and line breaks apart. -/
def isForbidden (c : Char) : Bool :=
  (c < ' ' && c != '\t' && c != '\n' && c != '\r') || c.toNat == 0x7F

/-- The character of an escape of one letter. -/
def letterEscape? (c : Char) : Option Char :=
  [('b', '\x08'), ('t', '\t'), ('n', '\n'), ('f', '\x0c'), ('r', '\r'), ('"', '"'),
    ('\\', '\\')].lookup c

/-- The character of an escape by number. -/
def numberEscape (width : Nat) : Scan Char := do
  let ds := (← get).take width
  modify (·.drop width)
  match if ds.length == width then Decimal.readNat? 16 ds else none with
  | some n => if n.isValidChar then pure (Char.ofNat n) else failure
  | none => failure

/-- An escape after its backslash. -/
def escape : Scan Char := do
  match ← Scan.next with
  | 'u' => numberEscape 4
  | 'U' => numberEscape 8
  | c => match letterEscape? c with
    | some d => pure d
    | none => failure

/-- The characters of a text up to its closing delimiter; `escapes` if a backslash means something.
Over several lines up to two quotes may stand before the delimiter. -/
def textRest (delimiter : Char) (escapes manyLines : Bool) : Nat → Scan (List Char)
  | 0 => failure
  | n + 1 => do
    let cs ← get
    let quotes := (cs.takeWhile (· == delimiter)).length
    if manyLines && 3 ≤ quotes then
      if 5 < quotes then failure
      else
        modify (·.drop quotes)
        pure (List.replicate (quotes - 3) delimiter)
    else if !manyLines && 1 ≤ quotes then
      discard Scan.next
      pure []
    else
      let c ← Scan.next
      if isForbidden c || (!manyLines && (c == '\n' || c == '\r')) then failure
      else if c == '\\' && escapes then
        let ahead := (← get).dropWhile fun c => c == ' ' || c == '\t' || c == '\r'
        if manyLines && ahead.head? == some '\n' then
          Scan.skipWhile fun c => c == ' ' || c == '\t' || c == '\n' || c == '\r'
          textRest delimiter escapes manyLines n
        else
          let d ← escape
          pure (d :: (← textRest delimiter escapes manyLines n))
      else pure (c :: (← textRest delimiter escapes manyLines n))

/-- Takes a line break if one comes next. -/
def lineBreak : Scan Unit := do
  if ← Scan.eat '\r' then Scan.expect '\n' else discard (Scan.eat '\n')

/-- A text in quotes, if one comes next. -/
def quoted? (mayHaveLines : Bool) : Scan (Option String) := do
  let cs ← get
  match cs with
  | c :: rest =>
    if c == '"' || c == quote then
      let escapes := c == '"'
      if mayHaveLines && rest.take 2 == [c, c] then
        modify (·.drop 3)
        lineBreak
        pure (some (String.ofList (← textRest c escapes true cs.length)))
      else
        discard Scan.next
        pure (some (String.ofList (← textRest c escapes false cs.length)))
    else pure none
  | [] => pure none

/-- One part of a key. -/
def keyPart : Scan String := do
  match ← quoted? false with
  | some t => pure t
  | none =>
    let cs ← Scan.takeWhile isBare
    if cs.isEmpty then failure else pure (String.ofList cs)

/-- The parts of a key with points between them. -/
def keyWithin : Nat → Scan (List String)
  | 0 => failure
  | n + 1 => do
    blanks
    let part ← keyPart
    blanks
    if ← Scan.eat '.' then
      let more ← keyWithin n
      pure (part :: more)
    else pure [part]

/-- A key. -/
def key : Scan (List String) := do
  keyWithin (← get).length

/-! ### Numbers -/

/-- Digits of a base without the single underscores between them. -/
def grouped? (base : Nat) (cs : List Char) : Option (List Char) :=
  let ds := cs.filter (· != '_')
  let isDigit (c : Char) := (Decimal.digitValue? base c).isSome
  if ds.isEmpty || !ds.all isDigit || cs.head? == some '_' || cs.getLast? == some '_' ||
      (cs.zip cs.tail).any fun (a, b) => a == '_' && b == '_' then none
  else some ds

/-- The magnitude of an integer. -/
def magnitude? (signed : Bool) : List Char → Option Nat
  | '0' :: 'x' :: ds => if signed then none else (grouped? 16 ds).bind (Decimal.readNat? 16)
  | '0' :: 'o' :: ds => if signed then none else (grouped? 8 ds).bind (Decimal.readNat? 8)
  | '0' :: 'b' :: ds => if signed then none else (grouped? 2 ds).bind (Decimal.readNat? 2)
  | ['0'] => some 0
  | '0' :: _ => none
  | ds => (grouped? 10 ds).bind (Decimal.readNat? 10)

/-- A word without its sign, and whether the sign is a minus. -/
def unsigned : List Char → Bool × Bool × List Char
  | '-' :: cs => (true, true, cs)
  | '+' :: cs => (true, false, cs)
  | cs => (false, false, cs)

/-- The integer of a word. -/
def integer? (word : List Char) : Option Int :=
  let (signed, negative, body) := unsigned word
  (magnitude? signed body).bind fun n => Word.checked? (if negative then -(n : Int) else n)

/-- A digit, or the underscore that may stand between two. -/
def isDigitOrGap (c : Char) : Bool :=
  c.isDigit || c == '_'

/-- The double of a word: digits, a point with digits, an exponent. -/
def double? (word : List Char) : Option Float :=
  let (_, negative, body) := unsigned word
  let whole := body.takeWhile isDigitOrGap
  let rest := body.dropWhile isDigitOrGap
  let (fraction, rest) := match rest with
    | '.' :: r => (some (r.takeWhile isDigitOrGap), r.dropWhile isDigitOrGap)
    | r => (none, r)
  let exponent := match rest with
    | [] => some []
    | e :: r =>
      if e == 'e' || e == 'E' then
        let (signed, minus, ds) := unsigned r
        (grouped? 10 ds).map fun ds =>
          'e' :: (if signed && minus then ['-'] else []) ++ ds
      else none
  let isPadded := whole.head? == some '0' && 1 < whole.length
  if body == "inf".toList then some (if negative then -1.0 / 0.0 else 1.0 / 0.0)
  else if body == "nan".toList then some (0.0 / 0.0)
  else if isPadded then none
  else
    match grouped? 10 whole, fraction.map (grouped? 10), exponent with
    | some ds, none, some x => if x.isEmpty then none else read? negative ds [] x
    | some ds, some (some fs), some x => read? negative ds ('.' :: fs) x
    | _, _, _ => none
where
  /-- The double of parts that are well formed. -/
  read? (negative : Bool) (whole fraction exponent : List Char) : Option Float :=
    (Decimal.readFloat? (whole ++ fraction ++ exponent)).map fun f => if negative then -f else f

/-- A date, a time or both: digits with their marks. -/
def isTime (word : List Char) : Bool :=
  let marked (n : Nat) (mark : Char) := (word.take n).all Char.isDigit && word[n]? == some mark
  (marked 4 '-' || marked 2 ':') && word.all fun c => c.isDigit || "-:TtZz.+ ".toList.contains c

/-! ### Values -/

/-- Ends a word without quotes. -/
def endsWord (c : Char) : Bool :=
  " \t\r\n,]\x7d#".toList.contains c

/-- A value that is no text, array or table. -/
def plain : Scan Toml := do
  let word ← Scan.takeWhile fun c => !endsWord c
  if word == "true".toList then pure (bool true)
  else if word == "false".toList then pure (bool false)
  else
    match integer? word with
    | some i => pure (int i)
    | none =>
      if isTime word then
        let rest ← get
        match rest with
        | ' ' :: d :: _ =>
          if d.isDigit && word.length == 10 then
            discard Scan.next
            discard (Scan.takeWhile fun c => !endsWord c)
        | _ => pure ()
        pure time
      else
        match double? word with
        | some f => pure (float f)
        | none => failure

/-- Blanks, line breaks and comments. -/
def gapFrom : (comment : Bool) → List Char → List Char
  | _, [] => []
  | comment, c :: cs =>
    if c == '\n' then gapFrom false cs
    else if comment then gapFrom true cs
    else if c == '#' then gapFrom true cs
    else if c == ' ' || c == '\t' || c == '\r' then gapFrom false cs
    else c :: cs

/-- Takes blanks, line breaks and comments. -/
def gap : Scan Unit :=
  modify (gapFrom false)

/-- Adds a value under a key, in tables that are made on the way. In an array of tables it goes into
the last one. -/
def insert? : List String → Toml → List (String × Toml) → Option (List (String × Toml))
  | [], _, _ => none
  | [name], x, fields =>
    if fields.any (·.1 == name) then none else some (fields ++ [(name, x)])
  | name :: more, x, fields =>
    match fields.lookup name with
    | none => (insert? more x []).map fun inner => fields ++ [(name, table inner)]
    | some (table inner) =>
      (insert? more x inner).map fun inner => putField fields name (table inner)
    | some (array items) =>
      match items.reverse with
      | table inner :: before =>
        (insert? more x inner).map fun inner =>
          putField fields name (array (before.reverse ++ [table inner]))
      | _ => none
    | some _ => none

/-- Items of an array up to its bracket. -/
def arrayRest (item : Scan Toml) : Nat → Scan (List Toml)
  | 0 => failure
  | n + 1 => do
    gap
    if ← Scan.eat ']' then pure []
    else
      let x ← item
      gap
      if ← Scan.eat ',' then
        let xs ← arrayRest item n
        pure (x :: xs)
      else
        Scan.expect ']'
        pure [x]

/-- A value with fewer than a number of levels of nesting. -/
def valueWithin : Nat → Scan Toml
  | 0 => failure
  | n + 1 => do
    match ← quoted? true with
    | some t => pure (str t)
    | none =>
      if ← Scan.eat '[' then
        pure (array (← arrayRest (valueWithin n) (← get).length))
      else if ← Scan.eat '\x7b' then
        let entry : Scan (List String × Toml) := do
          let k ← key
          Scan.expect '='
          blanks
          pure (k, ← valueWithin n)
        let entries ← Scan.items blanks entry '\x7d'
        match entries.foldlM (fun fields (k, x) => insert? k x fields) [] with
        | some fields => pure (table fields)
        | none => failure
      else plain

/-! ### Documents -/

/-- What is read so far: the whole, the table that keys go into, and the tables with a heading. -/
structure Outline where
  fields : List (String × Toml)
  current : List String
  headings : List (List String)

/-- Makes a table under a key if there is none. -/
def open? (path : List String) (fields : List (String × Toml)) : Option (List (String × Toml)) :=
  match insert? path (table []) fields with
  | some fields => some fields
  | none => (insert? (path ++ [""]) (bool true) fields).map fun _ => fields

/-- Adds a table to an array of tables. -/
def openItem? (path : List String) (fields : List (String × Toml)) :
    Option (List (String × Toml)) :=
  match insert? path (array [table []]) fields with
  | some fields => some fields
  | none => append? path fields
where
  /-- Adds a table to an array that is there. -/
  append? : List String → List (String × Toml) → Option (List (String × Toml))
    | [], _ => none
    | [name], fields =>
      match fields.lookup name with
      | some (array items) => some (putField fields name (array (items ++ [table []])))
      | _ => none
    | name :: more, fields =>
      match fields.lookup name with
      | some (table inner) =>
        (append? more inner).map fun inner => putField fields name (table inner)
      | _ => none

/-- The end of a line: blanks, a comment, a line break or the end. -/
def lineEnd : Scan Unit := do
  blanks
  if ← Scan.eat '#' then Scan.skipWhile fun c => c != '\n'
  if ← Scan.finished then pure ()
  else
    discard (Scan.eat '\r')
    Scan.expect '\n'

/-- One heading or entry. -/
def statement (o : Outline) : Scan Outline := do
  if ← Scan.eat '[' then
    if ← Scan.eat '[' then
      let path ← key
      Scan.expectText "]]"
      match openItem? path o.fields with
      | some fields => pure { o with fields := fields, current := path }
      | none => failure
    else
      let path ← key
      Scan.expect ']'
      if o.headings.contains path then failure
      match open? path o.fields with
      | some fields => pure ⟨fields, path, path :: o.headings⟩
      | none => failure
  else
    let k ← key
    Scan.expect '='
    blanks
    let x ← valueWithin 128
    match insert? (o.current ++ k) x o.fields with
    | some fields => pure { o with fields := fields }
    | none => failure

/-- Headings and entries up to the end. -/
def statements : Nat → Outline → Scan Outline
  | 0, o => pure o
  | n + 1, o => do
    gap
    if ← Scan.finished then pure o
    else
      let o ← statement o
      lineEnd
      statements n o

/-- Reads a TOML text, which may start with a byte order mark. -/
def parse? (text : String) : Option (List (String × Toml)) :=
  let document : Scan Outline := do
    discard (Scan.eat '\ufeff')
    statements (text.length + 1) ⟨[], [], []⟩
  (Scan.whole? document text).map Outline.fields

/-! ### Writing texts -/

/-- The greatest number of a character in a row. -/
def longestRun (c : Char) (cs : List Char) : Nat :=
  (cs.foldl (fun (run, most) d => let run := if d == c then run + 1 else 0; (run, max most run))
    (0, 0)).2

/-- A hexadecimal number of four digits, in capital letters. -/
def hex4 (n : Nat) : List Char :=
  Decimal.padZeros 4 ((Nat.toDigits 16 n).map Char.toUpper)

/-- The characters of a text between double quotes, where `run` double quotes in a row may stand.
Over several lines a line break stands for itself. -/
def escapedFrom (manyLines : Bool) (most : Nat) : (run : Nat) → List Char → List Char
  | _, [] => []
  | run, c :: cs =>
    if c == '"' then
      if run < most then '"' :: escapedFrom manyLines most (run + 1) cs
      else '\\' :: '"' :: escapedFrom manyLines most 0 cs
    else
      let here :=
        if c == '\\' then ['\\', '\\']
        else if c == '\n' then if manyLines then ['\n'] else ['\\', 'n']
        else if c == '\t' then ['\\', 't']
        else if c == '\r' then ['\\', 'r']
        else if c == '\x08' then ['\\', 'b']
        else if c == '\x0c' then ['\\', 'f']
        else if c < ' ' || c.toNat == 0x7F then '\\' :: 'u' :: hex4 c.toNat
        else [c]
      here ++ escapedFrom manyLines most 0 cs

/-- A text in the plainest quotes that it can stand in without escapes, over several lines only if
it has to be; else with escapes. -/
def textForm (s : String) : String :=
  let cs := s.toList
  let hasLines := cs.contains '\n'
  let hasControls := cs.any fun c => (c < ' ' && c != '\t' && c != '\n') || c.toNat == 0x7F
  let hasBackslash := cs.contains '\\'
  let doubles := longestRun '"' cs
  let singles := longestRun quote cs
  let opening := if hasLines then "\n" else ""
  let one := String.ofList [quote]
  let three := one ++ one ++ one
  if !hasControls && !hasBackslash && doubles == 0 && !hasLines then
    "\"" ++ String.ofList (escapedFrom false 0 0 cs) ++ "\""
  else if !hasControls && singles == 0 && !hasLines then one ++ s ++ one
  else if !hasControls && !hasBackslash && doubles ≤ 2 then
    "\"\"\"" ++ opening ++ String.ofList (escapedFrom true 2 0 cs) ++ "\"\"\""
  else if !hasControls && singles ≤ 2 then three ++ opening ++ s ++ three
  else if hasLines then
    "\"\"\"" ++ opening ++ String.ofList (escapedFrom true 2 0 cs) ++ "\"\"\""
  else "\"" ++ String.ofList (escapedFrom false 0 0 cs) ++ "\""

end Toml

end DottedPath.Document
