import DottedPath.Text.Category

/-!
Properties of characters that combine several general categories. ASCII is decided without a table.
-/

namespace DottedPath.Text

open Category

/-- Letters of every category. -/
def letterTables : List Ranges :=
  [uppercaseLetter, lowercaseLetter, titlecaseLetter, modifierLetter, otherLetter]

/-- Lies in one of the tables. -/
def inTables (tables : List Ranges) (c : Char) : Bool :=
  tables.any fun t => t.contains c.toNat

/-- Has the Alphabetic property. -/
def isAlphabetic (c : Char) : Bool :=
  if c.toNat < 0x80 then c.isAlpha
  else inTables (letterTables ++ [letterNumber, otherAlphabetic]) c

/-- Is a number of any kind. -/
def isNumeric (c : Char) : Bool :=
  if c.toNat < 0x80 then c.isDigit
  else inTables [decimalNumber, letterNumber, otherNumber] c

/-- Is alphabetic or a number. -/
def isAlphanumeric (c : Char) : Bool :=
  isAlphabetic c || isNumeric c

/-- Has an upper-case and a lower-case form, or looks like one of them. -/
def isCased (c : Char) : Bool :=
  if c.toNat < 0x80 then c.isAlpha
  else inTables
    [uppercaseLetter, lowercaseLetter, titlecaseLetter, otherLowercase, otherUppercase] c

/-- Is skipped when the case of its surroundings is looked at. -/
def isCaseIgnorable (c : Char) : Bool :=
  inTables
    [nonspacingMark, enclosingMark, format, modifierLetter, modifierSymbol, otherCaseIgnorable] c

end DottedPath.Text
