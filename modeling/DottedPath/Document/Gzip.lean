import DottedPath.Document.Deflate

/-!
Compressed files: a header, compressed data, and a checksum with the size of what it holds. Only the
first of several files in a row is read.
-/

namespace DottedPath.Document.Gzip

/-! ### Checksums -/

/-- The remainder after one more bit. -/
def remainderStep (c : UInt32) : UInt32 :=
  if c &&& 1 == 1 then (c >>> 1) ^^^ 0xEDB88320 else c >>> 1

/-- The remainder after one more byte. -/
def remainderAfter (c : UInt32) (b : UInt8) : UInt32 :=
  Nat.repeat remainderStep 8 (c ^^^ b.toUInt32)

/-- The checksum of bytes: the remainder of their polynomial. -/
def checksum (bytes : List UInt8) : UInt32 :=
  ~~~(bytes.foldl remainderAfter 0xFFFFFFFF)

/-! ### Files -/

/-- The two bytes that every compressed file begins with. -/
def magic : List UInt8 := [0x1F, 0x8B]

/-- Bytes are a compressed file, by how they begin. -/
def hasMagic (bytes : List UInt8) : Bool :=
  magic.isPrefixOf bytes

/-- The bytes after the zero that ends a text. -/
def afterZero? (bytes : List UInt8) : Option (List UInt8) :=
  match bytes.dropWhile (· != 0) with
  | _ :: rest => some rest
  | [] => none

/-- All but some bytes, which must be there. -/
def after? (count : Nat) (bytes : List UInt8) : Option (List UInt8) :=
  if bytes.length < count then none else some (bytes.drop count)

/-- The bytes after an extra field with its size. -/
def afterExtra? : List UInt8 → Option (List UInt8)
  | low :: high :: rest => after? (low.toNat + 256 * high.toNat) rest
  | _ => none

/-- The bytes after a part of the header that a flag announces. -/
def afterPart? (flags : UInt8) (flag : Nat) (part? : List UInt8 → Option (List UInt8))
    (bytes : List UInt8) : Option (List UInt8) :=
  if flags.toNat.testBit flag then part? bytes else some bytes

/-- The compressed data after the header. -/
def afterHeader? : List UInt8 → Option (List UInt8)
  | 0x1F :: 0x8B :: 8 :: flags :: rest =>
    if 0x20 ≤ flags then none
    else do
      let rest ← after? 6 rest
      let rest ← afterPart? flags 2 afterExtra? rest
      let rest ← afterPart? flags 3 afterZero? rest
      let rest ← afterPart? flags 4 afterZero? rest
      afterPart? flags 1 (after? 2) rest
  | _ => none

/-- What a compressed file holds. Fails if the checksum or the size does not fit. -/
def decompress? (bytes : List UInt8) : Option (List UInt8) := do
  let (content, rest) ← Deflate.decompress? (← afterHeader? bytes)
  let trailer := Deflate.littleEndian 4 (checksum content).toNat ++
    Deflate.littleEndian 4 content.length
  if trailer.isPrefixOf rest then some content else none

/-- The compressed file of some bytes, without name and time. -/
def compress (bytes : List UInt8) : List UInt8 :=
  magic ++ [8, 0, 0, 0, 0, 0, 0, 0xFF] ++ Deflate.compress bytes ++
    Deflate.littleEndian 4 (checksum bytes).toNat ++ Deflate.littleEndian 4 bytes.length

end DottedPath.Document.Gzip
