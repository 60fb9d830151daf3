import DottedPath.Document.Format
import DottedPath.Document.Gzip

/-!
Documents as the bytes of files. The name of a file says its format and whether it is compressed;
input without a name shows both by itself.
-/

namespace DottedPath.Document

/-- Why bytes hold no document. -/
inductive FileError where
  /-- There is nothing to read. -/
  | unreadable
  /-- The compressed data is broken. -/
  | corrupt
  /-- The bytes are no text. -/
  | notText
  | document (e : DocumentError)
deriving DecidableEq, Repr

/-- The text of a failure. -/
def FileError.message : FileError → String
  | unreadable => "the file cannot be read"
  | corrupt => "the compressed data is broken"
  | notText => "the input is not UTF-8"
  | document e => e.message

/-- The text of some bytes, compressed or not. -/
def textOf (isCompressed : Bool) (bytes : List UInt8) : Except FileError String := do
  let bytes ← if isCompressed then ofOption .corrupt (Gzip.decompress? bytes) else pure bytes
  ofOption .notText (String.fromUTF8? ⟨bytes.toArray⟩)
where
  /-- Something that must be there. -/
  ofOption {α : Type} (e : FileError) : Option α → Except FileError α
    | some a => pure a
    | none => throw e

/-- Says that a document cannot be read as the failure of its file. -/
def inFile {α : Type} (m : ExceptT DocumentError StoreM α) : ExceptT FileError StoreM α :=
  m.adapt .document

/-- The value in a file with a name, and its format. -/
def load (path : String) (bytes : List UInt8) : ExceptT FileError StoreM (Value × Format) := do
  let text ← ExceptT.mk (pure (textOf (isCompressedName path) bytes))
  let format := Format.ofPath path
  pure (← inFile (format.parse text), format)

/-- The value in input without a name, and its format. -/
def loadUnnamed (bytes : List UInt8) : ExceptT FileError StoreM (Value × Format) := do
  let text ← ExceptT.mk (pure (textOf (Gzip.hasMagic bytes) bytes))
  inFile (Format.sniff text)

/-- The bytes of a file with a name that holds a value in a format. -/
def save (path : String) (format : Format) (indent : Nat) (s : Store) (v : Value) : List UInt8 :=
  let bytes := Text.utf8Bytes (format.render indent s v)
  if isCompressedName path then Gzip.compress bytes else bytes

/-- The path of a file beside another one: its extension is replaced, or added if there is none. -/
def pathAside (path : String) : String :=
  let kept :=
    match (fileName? path).bind extension? with
    | some ending => withoutEnding ('.' :: ending.toList) path.toList
    | none => path.toList
  String.ofList kept ++ ".tmp"

end DottedPath.Document
