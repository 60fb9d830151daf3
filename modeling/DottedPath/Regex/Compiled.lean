import DottedPath.Regex.Reader

/-!
Regular expressions that must match a whole text, and those that must match all of some bytes. Each
keeps the text it is shown as; two are the same if they are shown the same.
-/

namespace DottedPath

open Regex

/-- An expression over the characters of a text. -/
structure TextRegex where
  source : String
  pattern : Pattern
deriving Inhabited

/-- An expression over bytes. -/
structure BytesRegex where
  source : String
  pattern : Pattern
deriving Inhabited

instance : BEq TextRegex := ⟨fun a b => a.source == b.source⟩

instance : BEq BytesRegex := ⟨fun a b => a.source == b.source⟩

/-- The expression between the tests for the start and the end of the text. -/
def anchored (expression : List Char) : List Char :=
  "^(?:".toList ++ expression ++ ")$".toList

/-- Compiles an expression to be matched against whole texts. -/
def TextRegex.compile? (source expression : String) : Option TextRegex :=
  (read? .text (anchored expression.toList)).map (⟨source, ·⟩)

/-- Compiles an expression to be matched against all of some bytes. -/
def BytesRegex.compile? (source expression : String) : Option BytesRegex :=
  (read? .bytes (anchored expression.toList)).map (⟨source, ·⟩)

/-- The expression between slashes; a slash inside is escaped. -/
def TextRegex.text (r : TextRegex) : String :=
  String.ofList
    ('/' :: (r.source.toList.flatMap fun c => if c == '/' then ['\\', '/'] else [c]) ++ ['/'])

/-- Matches a text. -/
def TextRegex.matches (r : TextRegex) (text : String) : Bool :=
  r.pattern.matchesWithin (text.toList.map Char.toNat)

/-- Matches bytes. -/
def BytesRegex.matches (r : BytesRegex) (bytes : List UInt8) : Bool :=
  r.pattern.matchesWithin (bytes.map UInt8.toNat)

end DottedPath
