import DottedPath.Decimal.Digits
import DottedPath.Document.Toml

/-!
The settings of the command line. They are read from a TOML text, in which each of them may be left
out; a text that is no TOML, or gives a setting what it cannot be, changes nothing.
-/

namespace DottedPath.Command

open Document (Toml)

/-- The settings. -/
structure Config where
  /-- How many parsed paths are kept. -/
  cacheCapacity : Nat := 300
  /-- Each failure of a transform is an error. -/
  transformsRaise : Bool := false
  /-- The name of the format that results are written in. -/
  outputFormat : String := "json"
  /-- How many spaces a level of JSON is indented by. -/
  indent : Nat := 2
deriving DecidableEq, Repr

namespace Config

/-- A setting among the fields of a table: its default if it is not there, none if it is of another
kind. -/
def setting? {α : Type} (fields : List (String × Toml)) (name : String) (default : α)
    (read? : Toml → Option α) : Option α :=
  match fields.lookup name with
  | some x => read? x
  | none => some default

/-- A number that is not negative. -/
def natural? : Toml → Option Nat
  | .int i => if 0 ≤ i then some i.toNat else none
  | _ => none

/-- A truth value. -/
def truth? : Toml → Option Bool
  | .bool b => some b
  | _ => none

/-- A text. -/
def text? : Toml → Option String
  | .str s => some s
  | _ => none

/-- The settings in a table. Other fields mean nothing. -/
def ofFields? (fields : List (String × Toml)) : Option Config := do
  let usual : Config := {}
  pure {
    cacheCapacity := ← setting? fields "cache_capacity" usual.cacheCapacity natural?
    transformsRaise := ← setting? fields "transforms_raise" usual.transformsRaise truth?
    outputFormat := ← setting? fields "output_format" usual.outputFormat text?
    indent := ← setting? fields "indent" usual.indent natural? }

/-- The settings in a text. -/
def parse (text : String) : Config :=
  ((Toml.parse? text).bind ofFields?).getD {}

/-- A line that sets a field. -/
def line (name content : String) : String :=
  name ++ " = " ++ content ++ "\n"

/-- The text that gives all settings. -/
def text (c : Config) : String :=
  line "cache_capacity" (Decimal.natText c.cacheCapacity) ++
  line "transforms_raise" (if c.transformsRaise then "true" else "false") ++
  line "output_format" (Toml.textForm c.outputFormat) ++
  line "indent" (Decimal.natText c.indent)

end Config

end DottedPath.Command
