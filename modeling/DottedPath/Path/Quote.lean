import DottedPath.Path.Number
import DottedPath.Value.Text

/-!
Keys as path tokens. A key is quoted only where it would otherwise be read as something else; a
normalized key is also quoted where it would be read as a number.
-/

namespace DottedPath

/-- Characters with a meaning of their own in a path. -/
def reservedChars : List Char := ".[]*:|+?/=,@&()!~#\x7b\x7d<>".toList

/-- Has a meaning of its own in a path. -/
def isReserved (c : Char) : Bool :=
  reservedChars.contains c

/-- Begins like a number. -/
def beginsNumeric : List Char → Bool
  | '-' :: c :: _ => c.isDigit
  | c :: _ => c.isDigit
  | [] => false

/-- Would not be read as the same word. -/
def needsQuotes (cs : List Char) : Bool :=
  if cs.isEmpty then true
  else if beginsNumeric cs then !Number.isToken cs
  else cs.any fun c => isReserved c || c == ' ' || c == '\t' || c == '\n' || c == '\r'

/-- Looks like an integer: digits and underscores from a digit on, with blanks and a sign
allowed. -/
def looksLikeInteger (cs : List Char) : Bool :=
  let body := match Text.trim cs with
    | '+' :: r => r
    | '-' :: r => r
    | r => r
  !body.isEmpty && body.all (fun c => c.isDigit || c == '_') && body.head? != some '_'

namespace Scalar

/-- A scalar as a token. In the place of a key a point would separate, so a double that has one is
marked as a number and quoted. -/
def quote (asKey : Bool) : Scalar → String
  | str s => if needsQuotes s.toList then Text.quoted s else s
  | bool b => if b then "1" else "0"
  | float f =>
    let text := Decimal.Layout.plain.text f
    if asKey && text.toList.contains '.' then "#'" ++ text ++ "'" else text
  | x => x.repr

/-- A scalar as a token that reads back as a text if it is one. -/
def normalize (asKey : Bool) : Scalar → String
  | str s => if looksLikeInteger s.toList then Text.quoted s else (str s).quote asKey
  | x => x.quote asKey

end Scalar

/-- A value as a token. -/
def Store.quote (s : Store) (asKey : Bool) : Value → String
  | .scalar x => x.quote asKey
  | v => s.repr v

/-- A value as a token that reads back as a text if it is one. -/
def Store.normalize (s : Store) (asKey : Bool) : Value → String
  | .scalar x => x.normalize asKey
  | v => s.repr v

/-- A literal as a token that reads back as a text if it is one. -/
def Literal.normalize (asKey : Bool) : Literal → String
  | .scalar x => x.normalize asKey
  | l => l.repr

end DottedPath
