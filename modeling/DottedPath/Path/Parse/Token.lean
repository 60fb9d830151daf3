import DottedPath.Path.Expression
import DottedPath.Path.Parse.Basic

/-!
Tokens of a path: bare words with escapes, quoted texts, regular expressions, literals in the place
of a key and in the place of a value, integers and counts.
-/

namespace DottedPath.Parse

/-- The characters of a bare word: a backslash takes the next one as it is. A word that begins like
a number may hold a plus sign as part of its exponent. `taken` holds the characters so far, the last
first; the answer says whether one of them was escaped. -/
def wordFrom (numeric : Bool) (taken : List Char) (escaped : Bool) :
    List Char → Except ParseFailure ((List Char × Bool) × List Char)
  | [] => .ok ((taken.reverse, escaped), [])
  | '\\' :: [] => .error ⟨"dangling escape", 0⟩
  | '\\' :: c :: cs => wordFrom numeric (c :: taken) true cs
  | c :: cs =>
    if isWordChar c then wordFrom numeric (c :: taken) escaped cs
    else if numeric && c == '+' && taken.head?.any (fun e => e == 'e' || e == 'E') &&
        cs.head?.any Char.isDigit then
      wordFrom numeric (c :: taken) escaped cs
    else .ok ((taken.reverse, escaped), c :: cs)

/-- A bare word, and whether it has an escaped character. -/
def word : Parse (List Char × Bool) := do
  let start ← get
  let (w, escaped) ← wordFrom (beginsNumeric start) [] false
  if w.isEmpty && !escaped then failAt "expected a key" start.length
  pure (w, escaped)

/-- The characters up to a closing quote. -/
def quotedFrom (quote : Char) (taken : List Char) : List Char → Option (List Char × List Char)
  | [] => none
  | '\\' :: [] => none
  | '\\' :: c :: cs =>
    let c := if c == 'n' then '\n' else if c == 't' then '\t' else if c == 'r' then '\r' else c
    quotedFrom quote (c :: taken) cs
  | c :: cs => if c == quote then some (taken.reverse, cs) else quotedFrom quote (c :: taken) cs

/-- A quoted text. -/
def quotedText : Parse String := do
  let start ← get
  match start with
  | q :: cs =>
    if isQuote q then
      match quotedFrom q [] cs with
      | some (text, rest) =>
        set rest
        pure (String.ofList text)
      | none => failAt "unterminated string" start.length
    else failAt "expected a quote" cs.length
  | [] => fail "expected a quote"

/-- The source of a regular expression up to the closing slash; a slash inside is escaped. -/
def regexFrom (taken : List Char) : List Char → Option (List Char × List Char)
  | [] => none
  | '\\' :: '/' :: cs => regexFrom ('/' :: taken) cs
  | '\\' :: c :: cs => regexFrom (c :: '\\' :: taken) cs
  | '\\' :: [] => none
  | c :: cs => if c == '/' then some (taken.reverse, cs) else regexFrom (c :: taken) cs

/-- A regular expression between slashes. -/
def regex : Parse TextRegex := do
  let start ← get
  expect '/'
  match regexFrom [] (← get) with
  | none => failAt "unterminated regex" start.length
  | some (source, rest) =>
    set rest
    let source := String.ofList source
    match TextRegex.compile? source source with
    | some re => pure re
    | none => failAt "invalid regex" start.length

/-- A quote comes after the first `offset` characters. -/
def quoteAt (offset : Nat) : Parse Bool := do
  pure ((← get)[offset]?.any isQuote)

/-- Bytes come next: a `b` before a quote. -/
def bytesAhead : Parse Bool := do
  pure ((← peek) == some 'b' && (← quoteAt 1))

/-- A forced number comes next: a `#` before a quote. -/
def numberAhead : Parse Bool := do
  pure ((← peek) == some '#' && (← quoteAt 1))

/-- A quoted text taken as bytes, the `b` included. -/
def quotedBytes : Parse (List UInt8) := do
  skip 1
  pure (Text.utf8Bytes (← quotedText))

/-- A word as a literal: a number, if it reads as one and nothing in it was escaped. -/
def wordLiteral (w : List Char) (escaped : Bool) : Literal :=
  match (if !escaped && Number.isToken w then Number.read? w else none) with
  | some lit => lit
  | none => .str (String.ofList w)

/-- A literal in the place of a key. -/
def keyLiteral : Parse Literal := do
  if ← quoteAt 0 then
    pure (.str (← quotedText))
  else if ← bytesAhead then
    pure (.bytes (← quotedBytes))
  else if ← numberAhead then
    skip 1
    let start ← get
    let raw ← quotedText
    match Number.read? raw.toList with
    | some lit => pure lit
    | none => failAt ("'" ++ raw ++ "' is not a number") start.length
  else
    let (w, escaped) ← word
    pure (wordLiteral w escaped)

/-- What an access selects, and whether it is marked to take the first match only. -/
def keyPattern : Parse (KeyPattern × Bool) := do
  match ← peek with
  | some '*' =>
    skip 1
    let first ← eat '?'
    pure (.wildcard, first)
  | some '/' =>
    let re ← regex
    let first ← eat '?'
    pure (.regex re, first)
  | _ => pure (.literal (← keyLiteral), false)

/-- An optional minus sign and digits; `none` if there is neither. -/
def optionalInt : Parse (Option Int) := do
  let start ← get
  let negative ← eat '-'
  let digits ← takeWhile Char.isDigit
  if !negative && digits.isEmpty then pure none
  else
    match Decimal.readInt? 10 (if negative then '-' :: digits else digits) with
    | some i => pure (some i)
    | none => failAt "invalid integer" start.length

/-- Digits as a count; `none` if there are none or too many. -/
def count : Parse (Option Nat) := do
  let digits ← takeWhile Char.isDigit
  pure ((Decimal.readNat? 10 digits).filter (· < 2 ^ 64))

/-- Digits and underscores. -/
def digitRun : Parse (List Char) :=
  takeWhile fun c => c.isDigit || c == '_'

/-- The exponent of a double in the place of a value; nothing is taken if no digit follows. -/
def exponent : Parse (List Char) := do
  let start ← get
  match start with
  | e :: _ =>
    if e == 'e' || e == 'E' then
      skip 1
      let sign ← match ← peek with
        | some '+' => do skip 1; pure ['+']
        | some '-' => do skip 1; pure ['-']
        | _ => pure []
      let digits ← digitRun
      if digits.isEmpty then
        set start
        pure []
      else pure ('e' :: sign ++ digits)
    else pure []
  | [] => pure []

/-- A double in the place of a value: digits, a point and a digit at least. -/
def valueNumber : Parse (Option Literal) := do
  let start ← get
  let giveUp : Parse (Option Literal) := do
    set start
    pure none
  let negative ← eat '-'
  let whole ← digitRun
  let rest ← get
  if whole.isEmpty || rest.head? != some '.' || !rest.tail.head?.any Char.isDigit then giveUp
  else
    skip 1
    let fraction ← digitRun
    let exp ← exponent
    if (← peek).any fun c => isWordChar c && c != '-' then giveUp
    else
      let sign := if negative then ['-'] else []
      let raw := (sign ++ whole ++ '.' :: fraction ++ exp).filter (· != '_')
      match Decimal.readFloat? raw with
      | some f => pure (some (.float f))
      | none => giveUp

/-- A bare word in the place of a value: a number, one of three keywords, or a text. -/
def valueWord : Parse Literal := do
  match ← valueNumber with
  | some lit => pure lit
  | none =>
    let (w, escaped) ← word
    if escaped then pure (.str (String.ofList w))
    else
      match String.ofList w with
      | "True" => pure (.bool true)
      | "False" => pure (.bool false)
      | "None" => pure .null
      | _ => pure (wordLiteral w false)

end DottedPath.Parse
