import DottedPath.Path.Print

/-!
Text globs: fragments of text or bytes with runs of anything between them, written as one regular
expression that must match a whole text. If a fragment is bytes, the expression is one over bytes, in
which a text stands for its UTF-8 form.
-/

namespace DottedPath

namespace Regex

/-- Has a meaning of its own in an expression. -/
def isMeta (c : Char) : Bool :=
  ['\\', '.', '+', '*', '?', '(', ')', '|', '[', ']', '\x7b', '\x7d', '^', '$', '#', '&', '-',
    '~'].contains c

/-- An expression that matches just this text. -/
def escape (text : List Char) : List Char :=
  text.flatMap fun c => if isMeta c then ['\\', c] else [c]

/-- An expression that matches just these bytes. -/
def escapeBytes (bytes : List UInt8) : List Char :=
  bytes.flatMap fun b => '\\' :: 'x' :: Text.hexByte b

end Regex

open Regex

/-- The source of the expression that a pattern is; in a text other patterns stand for any unit, line
ends included. -/
def ValuePattern.source : ValuePattern → String
  | .regex re => re.source
  | _ => "(?s:.)"

/-- How often a glob takes what it takes, as an expression counts it. -/
def Glob.countText (g : Glob) : List Char :=
  match g.min, g.max with
  | 0, none => ['*']
  | lo, none => '\x7b' :: Decimal.natDigits lo ++ [',', '\x7d']
  | lo, some hi => '\x7b' :: Decimal.natDigits lo ++ ',' :: Decimal.natDigits hi ++ ['\x7d']

/-- What a glob takes one of: a match of its inner expression, or any unit. -/
def Glob.unitText (g : Glob) : List Char :=
  match g.pattern with
  | some p => "(?:".toList ++ p.source.toList ++ [')']
  | none => "(?s:.)".toList

namespace GlobPart

/-- Is a fragment of bytes. -/
def isBytes : GlobPart → Bool
  | bytes _ => true
  | _ => false

/-- A fragment or a glob as an expression. -/
def expression (mode : Mode) : GlobPart → List Char
  | text s =>
    match mode with
    | .text => escape s.toList
    | .bytes => escapeBytes (Text.utf8Bytes s)
  | bytes bs => escapeBytes bs
  | glob g => g.unitText ++ g.countText

/-- Fragments in a row as one expression. -/
def wholeExpression (mode : Mode) (parts : List GlobPart) : String :=
  String.ofList (parts.flatMap (expression mode))

/-- Fragments as a value pattern; a single text or bytes is a literal. `none` if the expression is
refused: for its bounds, for its size, or for the expressions inside. -/
def valuePattern? (parts : List GlobPart) : Option ValuePattern :=
  match parts with
  | [text s] => some (.literal (.str s))
  | [bytes bs] => some (.literal (.bytes bs))
  | _ =>
    let source := shownAll parts
    if parts.any isBytes then
      (BytesRegex.compile? source (wholeExpression .bytes parts)).map (.bytesGlob parts)
    else (TextRegex.compile? source (wholeExpression .text parts)).map (.textGlob parts)

end GlobPart

end DottedPath
