import DottedPath.Regex.UnitSet
import DottedPath.Text.Category
import DottedPath.Text.Script

/-!
Names of character properties in regular expressions: general categories, scripts and a few
properties of one value. Case, blanks, hyphens and underscores in a name do not matter.
-/

namespace DottedPath.Regex

open Text

/-- The part of a name that matters. -/
def looseName (name : List Char) : String :=
  let cs := (name.filter fun c => !(c == ' ' || c == '-' || c == '_')).map Char.toLower
  String.ofList cs

/-- The tables of a general category or of a group of them. -/
def categoryTables? : String → Option (List Ranges)
  | "lu" | "uppercaseletter" => some [Category.uppercaseLetter]
  | "ll" | "lowercaseletter" => some [Category.lowercaseLetter]
  | "lt" | "titlecaseletter" => some [Category.titlecaseLetter]
  | "lc" | "casedletter" =>
    some [Category.uppercaseLetter, Category.lowercaseLetter, Category.titlecaseLetter]
  | "lm" | "modifierletter" => some [Category.modifierLetter]
  | "lo" | "otherletter" => some [Category.otherLetter]
  | "l" | "letter" => some letterTables
  | "mn" | "nonspacingmark" => some [Category.nonspacingMark]
  | "mc" | "spacingmark" => some [Category.spacingMark]
  | "me" | "enclosingmark" => some [Category.enclosingMark]
  | "m" | "mark" | "combiningmark" =>
    some [Category.nonspacingMark, Category.spacingMark, Category.enclosingMark]
  | "nd" | "decimalnumber" | "digit" => some [Category.decimalNumber]
  | "nl" | "letternumber" => some [Category.letterNumber]
  | "no" | "othernumber" => some [Category.otherNumber]
  | "n" | "number" =>
    some [Category.decimalNumber, Category.letterNumber, Category.otherNumber]
  | "pc" | "connectorpunctuation" => some [Category.connectorPunctuation]
  | "pd" | "dashpunctuation" => some [Category.dashPunctuation]
  | "ps" | "openpunctuation" => some [Category.openPunctuation]
  | "pe" | "closepunctuation" => some [Category.closePunctuation]
  | "pi" | "initialpunctuation" => some [Category.initialPunctuation]
  | "pf" | "finalpunctuation" => some [Category.finalPunctuation]
  | "po" | "otherpunctuation" => some [Category.otherPunctuation]
  | "p" | "punctuation" | "punct" =>
    some [Category.connectorPunctuation, Category.dashPunctuation, Category.openPunctuation,
      Category.closePunctuation, Category.initialPunctuation, Category.finalPunctuation,
      Category.otherPunctuation]
  | "sm" | "mathsymbol" => some [Category.mathSymbol]
  | "sc" | "currencysymbol" => some [Category.currencySymbol]
  | "sk" | "modifiersymbol" => some [Category.modifierSymbol]
  | "so" | "othersymbol" => some [Category.otherSymbol]
  | "s" | "symbol" =>
    some [Category.mathSymbol, Category.currencySymbol, Category.modifierSymbol,
      Category.otherSymbol]
  | "zs" | "spaceseparator" => some [Category.spaceSeparator]
  | "zl" | "lineseparator" => some [Category.lineSeparator]
  | "zp" | "paragraphseparator" => some [Category.paragraphSeparator]
  | "z" | "separator" =>
    some [Category.spaceSeparator, Category.lineSeparator, Category.paragraphSeparator]
  | "cc" | "control" | "cntrl" => some [Category.control]
  | "cf" | "format" => some [Category.format]
  | "co" | "privateuse" => some [Category.privateUse]
  | _ => none

/-- The table of a script. -/
def scriptTable? : String → Option Ranges
  | "latin" | "latn" => some Script.latin
  | "greek" | "grek" => some Script.greek
  | "cyrillic" | "cyrl" => some Script.cyrillic
  | "han" | "hani" => some Script.han
  | "hiragana" | "hira" => some Script.hiragana
  | "katakana" | "kana" => some Script.katakana
  | "arabic" | "arab" => some Script.arabic
  | "hebrew" | "hebr" => some Script.hebrew
  | "thai" => some Script.thai
  | "hangul" | "hang" => some Script.hangul
  | "devanagari" | "deva" => some Script.devanagari
  | "armenian" | "armn" => some Script.armenian
  | "georgian" | "geor" => some Script.georgian
  | "bengali" | "beng" => some Script.bengali
  | "tamil" | "taml" => some Script.tamil
  | "ethiopic" | "ethi" => some Script.ethiopic
  | "inherited" | "zinh" | "qaai" => some Script.inherited
  | _ => none

/-- The set of a property that characters have or have not. -/
def binaryProperty? : String → Option UnitSet
  | "any" => some .all
  | "ascii" => some (.ranges [(0, 127)])
  | "alphabetic" | "alpha" =>
    some (.ofTables (letterTables ++ [Category.letterNumber, Category.otherAlphabetic]))
  | "lowercase" | "lower" =>
    some (.ofTables [Category.lowercaseLetter, Category.otherLowercase])
  | "uppercase" | "upper" =>
    some (.ofTables [Category.uppercaseLetter, Category.otherUppercase])
  | "whitespace" | "wspace" | "space" => some .space
  | "joincontrol" | "joinc" => some (.ranges [(0x200C, 0x200D)])
  | _ => none

/-- The set of a general category. -/
def categorySet? (name : String) : Option UnitSet :=
  (categoryTables? name).map .ofTables

/-- The set that a property name, or a name and a value, stands for. -/
def property? (name : List Char) (value? : Option (List Char)) : Option UnitSet :=
  match value? with
  | some value =>
    match looseName name with
    | "gc" | "generalcategory" | "category" => categorySet? (looseName value)
    | "sc" | "script" | "scx" | "scriptextensions" => (scriptTable? (looseName value)).map .ranges
    | _ => none
  | none =>
    let name := looseName name
    (binaryProperty? name).or ((categorySet? name).or ((scriptTable? name).map .ranges))

end DottedPath.Regex
