/-!
Quoted forms of texts and bytes. A displayed text picks the quote that needs fewer escapes; a path
token always uses single quotes and escapes only what would end or distort it.
-/

namespace DottedPath.Text

/-- A single quote, written by its code so that it stands out. -/
def quoteChar : Char := '\x27'

/-- A displayed character between the given quotes. -/
def escapeShown (quote c : Char) : List Char :=
  if c == '\\' then ['\\', '\\']
  else if c == '\n' then ['\\', 'n']
  else if c == '\t' then ['\\', 't']
  else if c == '\r' then ['\\', 'r']
  else if c == quote then ['\\', c]
  else [c]

/-- A text as it is displayed: double quotes only if it holds a single quote and no double one. -/
def shown (s : String) : String :=
  let cs := s.toList
  let quote := if cs.contains quoteChar && !cs.contains '"' then '"' else quoteChar
  String.ofList (quote :: cs.flatMap (escapeShown quote) ++ [quote])

/-- The two lower-case hexadecimal digits of a byte. -/
def hexByte (b : UInt8) : List Char :=
  [Nat.digitChar (b.toNat / 16), Nat.digitChar (b.toNat % 16)]

/-- A displayed byte: printable ASCII stands for itself. -/
def escapeByte (b : UInt8) : List Char :=
  let c := Char.ofNat b.toNat
  if c == '\\' || c == quoteChar || c == '\n' || c == '\t' || c == '\r' then
    escapeShown quoteChar c
  else if 0x20 ≤ b && b ≤ 0x7E then [c]
  else '\\' :: 'x' :: hexByte b

/-- Bytes as they are displayed. -/
def shownBytes (bs : List UInt8) : String :=
  String.ofList ('b' :: quoteChar :: bs.flatMap escapeByte ++ [quoteChar])

/-- A character of a quoted path token. -/
def escapeToken (c : Char) : List Char :=
  if c == '\\' || c == quoteChar then ['\\', c] else [c]

/-- A text as a quoted path token. -/
def quoted (s : String) : String :=
  String.ofList (quoteChar :: s.toList.flatMap escapeToken ++ [quoteChar])

end DottedPath.Text
