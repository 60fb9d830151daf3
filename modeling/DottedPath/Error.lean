import DottedPath.Path.Parse.Expression

/-!
Why an operation on a path fails, and how that is said.
-/

namespace DottedPath

/-- The failures of reads and writes. -/
inductive Error where
  /-- The text is no path. -/
  | parse (e : ParseError)
  /-- A write would go through a selection by content. -/
  | sliceFilterUpdate
  /-- No transform has the name. -/
  | unknownTransform (name : String)
  /-- A transform failed and was asked to say so. -/
  | transform (name message : String)
  /-- A removal through an inverted path, which would have to write something, has nothing to
  write. -/
  | removalWithoutValue
deriving DecidableEq, Repr

/-- The text of a failure. A text that is no path is described by its own message. -/
def Error.message : Error → String
  | parse e => e.message
  | sliceFilterUpdate => "cannot update through a slice filter"
  | unknownTransform name => "unknown transform: " ++ name
  | transform name message => "transform '" ++ name ++ "' failed: " ++ message
  | removalWithoutValue =>
    "invalid argument: removing through an inverted path requires a value"

end DottedPath
