import DottedPath.Decimal.Digits
import DottedPath.Decimal.Reader
import DottedPath.Document.Json
import DottedPath.Document.Scan

/-!
The text of JSON documents. It is written compactly or with one item a line; it is read strictly: no
comments, no commas at the end, no lone surrogates, and fewer than 128 levels of nesting.
-/

namespace DottedPath.Document.Json

/-! ### Writing -/

/-- Four hexadecimal digits. -/
def hex4 (n : Nat) : String :=
  String.ofList (Decimal.padZeros 4 (Nat.toDigits 16 n))

/-- A character as it stands between quotes. -/
def escaped (c : Char) : String :=
  match c with
  | '"' => "\\\""
  | '\\' => "\\\\"
  | '\n' => "\\n"
  | '\r' => "\\r"
  | '\t' => "\\t"
  | c =>
    if c == '\x08' then "\\b"
    else if c == '\x0c' then "\\f"
    else if c < ' ' then "\\u" ++ hex4 c.toNat
    else String.ofList [c]

/-- A text in quotes. -/
def quoted (s : String) : String :=
  "\"" ++ "".intercalate (s.toList.map escaped) ++ "\""

/-- How items are set apart: nothing, or a line of its own for each, indented by a unit. -/
structure Style where
  indent : Option String

/-- On one line, without blanks. -/
def Style.compact : Style := ⟨none⟩

/-- One item a line, each level indented by a number of spaces. -/
def Style.pretty (spaces : Nat) : Style :=
  ⟨some (String.ofList (List.replicate spaces ' '))⟩

/-- The break before an item at a level. -/
def Style.lineBreak (style : Style) (level : Nat) : String :=
  match style.indent with
  | none => ""
  | some unit => "\n" ++ "".intercalate (List.replicate level unit)

/-- What stands between a name and its content. -/
def Style.colon (style : Style) : String :=
  if style.indent.isSome then ": " else ":"

/-- Items between brackets at a level. -/
def Style.bracketed (style : Style) (level : Nat) (opening closing : String) (items : List String) :
    String :=
  if items.isEmpty then opening ++ closing
  else
    opening ++ ",".intercalate (items.map (style.lineBreak (level + 1) ++ ·)) ++
      style.lineBreak level ++ closing

mutual

/-- The text of a document at a level. -/
def textAt (style : Style) (level : Nat) : Json → String
  | null => "null"
  | bool b => if b then "true" else "false"
  | int i => Decimal.intText i
  | float f => Decimal.Layout.json.text f
  | str s => quoted s
  | array items => style.bracketed level "[" "]" (itemTexts style (level + 1) items)
  | object fields =>
    style.bracketed level "\x7b" "\x7d" (fieldTexts style (level + 1) fields)

def itemTexts (style : Style) (level : Nat) : List Json → List String
  | [] => []
  | x :: xs => textAt style level x :: itemTexts style level xs

def fieldTexts (style : Style) (level : Nat) : List (String × Json) → List String
  | [] => []
  | (name, x) :: fields =>
    (quoted name ++ style.colon ++ textAt style level x) :: fieldTexts style level fields

end

/-- The text of a document. -/
def text (style : Style) (j : Json) : String :=
  textAt style 0 j

/-! ### Reading numbers -/

/-- The greatest significand that is kept. -/
def greatestSignificand : Nat := 2 ^ 64 - 1

/-- Appends digits to a significand as long as it is kept; answers the digits left over. -/
def absorb (significand : Nat) : List Char → Nat × List Char
  | [] => (significand, [])
  | d :: ds =>
    let n := 10 * significand + (d.toNat - 48)
    if greatestSignificand < n then (significand, d :: ds) else absorb n ds

/-- Divides by powers of ten, the greatest that a double can hold at a time. -/
def scaleDown : Nat → Float → Nat → Float
  | 0, _, _ => 0.0
  | n + 1, f, k =>
    if k ≤ 308 then f / Decimal.floatOf 1 k else scaleDown n (f / Decimal.floatOf 1 308) (k - 308)

/-- A significand times a power of ten, computed in doubles: one product or quotient by a power that
a double can hold, or several quotients. Fails where the number is too large. -/
def scaled? (significand : Nat) (exponent : Int) : Option Float :=
  let f := Float.ofNat significand
  if significand == 0 then some 0.0
  else if exponent < 0 then some (scaleDown 4 f exponent.natAbs)
  else if exponent ≤ 308 then
    let x := f * Decimal.floatOf 1 exponent
    if x == 1.0 / 0.0 then none else some x
  else none

/-- Digits, at least one. -/
def digits : Scan (List Char) := do
  let ds ← Scan.takeWhile Char.isDigit
  if ds.isEmpty then failure else pure ds

/-- The digits after a point, if there is one. -/
def fraction : Scan (Option (List Char)) := do
  if ← Scan.eat '.' then some <$> digits else pure none

/-- The exponent after `e`, if there is one. -/
def exponent : Scan (Option Int) := do
  let mark ← Scan.peek
  if mark == some 'e' || mark == some 'E' then
    discard Scan.next
    let negative ← Scan.eat '-'
    if !negative then discard (Scan.eat '+')
    let n := (Decimal.readNat? 10 (← digits)).getD 0
    pure (some (if negative then -(n : Int) else n))
  else pure none

/-- The double of a number that is written as one, or is no integer of sixty-four bits. -/
def double? (negative : Bool) (whole fraction : List Char) (exponent : Int) : Option Float :=
  let (significand, dropped) := absorb 0 whole
  let (significand, rest) := absorb significand fraction
  let exponent := exponent + dropped.length - (fraction.length - rest.length : Nat)
  (scaled? significand exponent).map fun f => if negative then -f else f

/-- A number. Minus zero is a double. -/
def number : Scan Json := do
  let negative ← Scan.eat '-'
  let whole ← digits
  if whole.head? == some '0' && 1 < whole.length then failure
  let fraction ← fraction
  let exponent ← exponent
  let magnitude := (Decimal.readNat? 10 whole).getD 0
  let i : Int := if negative then -(magnitude : Int) else magnitude
  if fraction.isNone && exponent.isNone && Word.fits i && !(negative && magnitude == 0) then
    pure (int i)
  else
    match double? negative whole (fraction.getD []) (exponent.getD 0) with
    | some f => pure (float f)
    | none => failure

/-! ### Reading texts -/

/-- The number of four hexadecimal digits. -/
def hexValue? (ds : List Char) : Option Nat :=
  Decimal.readNat? 16 ds

/-- The character of a surrogate pair. -/
def paired (high low : Nat) : Char :=
  Char.ofNat (0x10000 + (high - 0xD800) * 0x400 + (low - 0xDC00))

/-- The character that a letter after a backslash stands for. -/
def escape? (c : Char) : Option Char :=
  match c with
  | '"' => some '"'
  | '\\' => some '\\'
  | '/' => some '/'
  | 'b' => some '\x08'
  | 'f' => some '\x0c'
  | 'n' => some '\n'
  | 'r' => some '\r'
  | 't' => some '\t'
  | _ => none

/-- A character before a text that is read so far. -/
def before (c : Char) (r : Option (List Char × List Char)) : Option (List Char × List Char) :=
  r.map fun (cs, rest) => (c :: cs, rest)

/-- The characters up to the closing quote, and what is left after it. Control characters have to be
escaped, and surrogates have to come in pairs. -/
def readQuoted? : List Char → Option (List Char × List Char)
  | [] => none
  | '"' :: rest => some ([], rest)
  | '\\' :: 'u' :: a :: b :: c :: d :: rest =>
    match hexValue? [a, b, c, d] with
    | none => none
    | some n =>
      if 0xDC00 ≤ n && n < 0xE000 then none
      else if 0xD800 ≤ n && n < 0xDC00 then
        match rest with
        | '\\' :: 'u' :: e :: f :: g :: h :: rest =>
          match hexValue? [e, f, g, h] with
          | none => none
          | some m =>
            if 0xDC00 ≤ m && m < 0xE000 then before (paired n m) (readQuoted? rest) else none
        | _ => none
      else before (Char.ofNat n) (readQuoted? rest)
  | '\\' :: c :: rest =>
    match escape? c with
    | none => none
    | some e => before e (readQuoted? rest)
  | c :: rest => if c < ' ' then none else before c (readQuoted? rest)

/-- A text after its opening quote. -/
def restOfText : Scan String := fun cs =>
  (readQuoted? cs).map fun (t, rest) => (String.ofList t, rest)

/-! ### Reading documents -/

/-- Blanks between the parts of a document. -/
def blanks : Scan Unit :=
  Scan.skipWhile fun c => c == ' ' || c == '\n' || c == '\t' || c == '\r'

/-- A document with fewer than a number of levels of nesting. -/
def documentWithin : Nat → Scan Json
  | 0 => failure
  | n + 1 => do
    match ← Scan.peek with
    | some '[' => do
      discard Scan.next
      if n == 0 then failure
      pure (array (← Scan.items blanks (documentWithin n) ']'))
    | some '\x7b' => do
      discard Scan.next
      if n == 0 then failure
      let field : Scan (String × Json) := do
        Scan.expect '"'
        let name ← restOfText
        blanks
        Scan.expect ':'
        blanks
        pure (name, ← documentWithin n)
      pure (object (fieldsOf (← Scan.items blanks field '\x7d')))
    | some '"' => do
      discard Scan.next
      pure (str (← restOfText))
    | some 'n' => do
      Scan.expectText "null"
      pure null
    | some 't' => do
      Scan.expectText "true"
      pure (bool true)
    | some 'f' => do
      Scan.expectText "false"
      pure (bool false)
    | _ => number

/-- Reads a JSON text. -/
def parse? (text : String) : Option Json :=
  Scan.whole? (do
    blanks
    let j ← documentWithin 128
    blanks
    pure j) text

end DottedPath.Document.Json
