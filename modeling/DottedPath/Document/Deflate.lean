/-!
Compressed data as a sequence of blocks. A block is stored as it is, or is a sequence of symbols in
a prefix code, which stand for bytes and for copies of what came before. Writing only stores;
reading knows all kinds of blocks.
-/

namespace DottedPath.Document.Deflate

/-! ### Bits -/

/-- Data as bits: those left of the byte that is being read, and the bytes after it. Bits come from
the low end of a byte. -/
structure Bits where
  held : List Bool
  bytes : List UInt8

/-- A reader of bits. -/
abbrev BitScan := StateT Bits Option

/-- The number of bits left. -/
def Bits.size (b : Bits) : Nat :=
  b.held.length + 8 * b.bytes.length

/-- The bits of a byte. -/
def bitsOf (byte : UInt8) : List Bool :=
  (List.range 8).map byte.toNat.testBit

/-- The next bit. -/
def bit : BitScan Bool := do
  match ← get with
  | ⟨b :: held, bytes⟩ => do
    set (Bits.mk held bytes)
    pure b
  | ⟨[], byte :: bytes⟩ =>
    match bitsOf byte with
    | b :: held => do
      set (Bits.mk held bytes)
      pure b
    | [] => failure
  | ⟨[], []⟩ => failure

/-- A number of some bits, the low one first. -/
def number : (width : Nat) → BitScan Nat
  | 0 => pure 0
  | n + 1 => do
    let low ← bit
    pure (low.toNat + 2 * (← number n))

/-- The next whole byte. What is left of the byte that is being read is dropped. -/
def byte : BitScan UInt8 := do
  match (← get).bytes with
  | b :: bytes => do
    set (Bits.mk [] bytes)
    pure b
  | [] => failure

/-! ### Prefix codes -/

/-- A prefix code: symbols at the leaves, a bit of the code for each step down. -/
inductive Code where
  | unused
  | symbol (s : Nat)
  | fork (zero one : Code)

/-- Adds a symbol at the end of a way down. Fails where another symbol is on the way or below. -/
def Code.insert? (s : Nat) : List Bool → Code → Option Code
  | [], .unused => some (.symbol s)
  | [], _ => none
  | b :: bs, .unused =>
    (insert? s bs .unused).map fun c => if b then .fork .unused c else .fork c .unused
  | _ :: _, .symbol _ => none
  | b :: bs, .fork zero one =>
    if b then (insert? s bs one).map (.fork zero ·) else (insert? s bs zero).map (.fork · one)

/-- A number as a code word: its bits, the high one first. -/
def codeWord (length n : Nat) : List Bool :=
  ((List.range length).map n.testBit).reverse

/-- The symbols with code words of a length. -/
def symbolsOf (lengths : List Nat) (length : Nat) : List Nat :=
  (lengths.zipIdx.filter (·.1 == length)).map (·.2)

/-- The code whose words have the given lengths; none for a symbol of length zero. Shorter words
come before longer ones, and words of one length stand in the order of their symbols. -/
def Code.ofLengths? (lengths : List Nat) : Option Code := do
  let (code, _) ← (List.range 15).foldlM (fun (code, next) i => do
    let length := i + 1
    (symbolsOf lengths length).foldlM (fun (code, next) s => do
      pure (← Code.insert? s (codeWord length next) code, next + 1)) (code, 2 * next))
    (Code.unused, 0)
  pure code

/-- The next symbol. -/
def Code.read : Code → BitScan Nat
  | unused => failure
  | symbol s => pure s
  | fork zero one => do
    if ← bit then one.read else zero.read

/-! ### Symbols -/

/-- A number that a symbol stands for, with the bits that follow it. -/
def spread (base width : Nat) : BitScan Nat := do
  pure (base + (← number width))

/-- How many bytes a copy has. -/
def copyLength (s : Nat) : BitScan Nat :=
  let i := s - 257
  if i < 8 then pure (3 + i)
  else if i < 28 then spread (3 + (4 + i % 4) * 2 ^ (i / 4 - 1)) (i / 4 - 1)
  else if i == 28 then pure 258
  else failure

/-- How far back a copy begins. -/
def copyDistance (s : Nat) : BitScan Nat :=
  if s < 4 then pure (1 + s)
  else if s < 30 then spread (1 + (2 + s % 2) * 2 ^ (s / 2 - 1)) (s / 2 - 1)
  else failure

/-- Repeats bytes from a distance back, one at a time: a copy may run into what it has written. -/
def copyFrom (distance : Nat) : Nat → Array UInt8 → Option (Array UInt8)
  | 0, out => some out
  | n + 1, out =>
    if out.size < distance then none
    else
      match out[out.size - distance]? with
      | some b => copyFrom distance n (out.push b)
      | none => none

/-- The symbols of a block up to the one that ends it. Each of them takes at least a bit. -/
def symbols (lengths distances : Code) : Nat → Array UInt8 → BitScan (Array UInt8)
  | 0, _ => failure
  | n + 1, out => do
    let s ← lengths.read
    if s < 256 then symbols lengths distances n (out.push (UInt8.ofNat s))
    else if s == 256 then pure out
    else
      let count ← copyLength s
      let distance ← copyDistance (← distances.read)
      match copyFrom distance count out with
      | some out => symbols lengths distances n out
      | none => failure

/-! ### Blocks -/

/-- The lengths of the code words when a block does not give them. -/
def fixedLengths : List Nat :=
  List.replicate 144 8 ++ List.replicate 112 9 ++ List.replicate 24 7 ++ List.replicate 8 8

/-- The order in which the lengths of the words for lengths are given. -/
def lengthOrder : List Nat :=
  [16, 17, 18, 0, 8, 7, 9, 6, 10, 5, 11, 4, 12, 3, 13, 2, 14, 1, 15]

/-- A number of lengths, where repetitions have symbols of their own. -/
def lengthsWithin (code : Code) : Nat → (wanted : Nat) → List Nat → BitScan (List Nat)
  | 0, _, _ => failure
  | n + 1, wanted, before => do
    if before.length == wanted then pure before.reverse
    else if wanted < before.length then failure
    else
      let s ← code.read
      if s < 16 then lengthsWithin code n wanted (s :: before)
      else if s == 16 then
        let count ← spread 3 2
        match before with
        | last :: _ => lengthsWithin code n wanted (List.replicate count last ++ before)
        | [] => failure
      else
        let count ← if s == 17 then spread 3 3 else spread 11 7
        lengthsWithin code n wanted (List.replicate count 0 ++ before)

/-- A code that has to be one. -/
def codeOf (lengths : List Nat) : BitScan Code :=
  match Code.ofLengths? lengths with
  | some c => pure c
  | none => failure

/-- The codes that a block gives. -/
def givenCodes : BitScan (Code × Code) := do
  let lengthCount ← spread 257 5
  let distanceCount ← spread 1 5
  let given ← (List.range (← spread 4 4)).mapM fun _ => number 3
  let placed := lengthOrder.zip given
  let code ← codeOf ((List.range 19).map fun s => (placed.lookup s).getD 0)
  let lengths ← lengthsWithin code 320 (lengthCount + distanceCount) []
  pure (← codeOf (lengths.take lengthCount), ← codeOf (lengths.drop lengthCount))

/-- A number of two bytes, the low one first. -/
def short : BitScan Nat := do
  let low ← byte
  let high ← byte
  pure (low.toNat + 256 * high.toNat)

/-- The bytes of a stored block. -/
def stored (out : Array UInt8) : BitScan (Array UInt8) := do
  let count ← short
  let check ← short
  let bytes := (← get).bytes
  if count + check != 0xFFFF || bytes.length < count then failure
  else
    set (Bits.mk [] (bytes.drop count))
    pure (out ++ (bytes.take count).toArray)

/-- One block; answers whether it is the last one. -/
def block (out : Array UInt8) : BitScan (Bool × Array UInt8) := do
  let isLast ← bit
  let kind ← number 2
  let fuel := (← get).size + 1
  let out ← match kind with
    | 0 => stored out
    | 1 => do symbols (← codeOf fixedLengths) (← codeOf (List.replicate 30 5)) fuel out
    | 2 => do
      let (lengths, distances) ← givenCodes
      symbols lengths distances fuel out
    | _ => failure
  pure (isLast, out)

/-- Blocks up to the last one. Each of them takes at least a bit. -/
def blocks : Nat → Array UInt8 → BitScan (Array UInt8)
  | 0, _ => failure
  | n + 1, out => do
    let (isLast, out) ← block out
    if isLast then pure out else blocks n out

/-- Reads compressed data; answers the bytes and what is left after the data. -/
def decompress? (bytes : List UInt8) : Option (List UInt8 × List UInt8) :=
  ((blocks (8 * bytes.length + 1) #[]).run ⟨[], bytes⟩).map fun (out, rest) =>
    (out.toList, rest.bytes)

/-! ### Writing -/

/-- The most bytes that a stored block can hold. -/
def greatestStored : Nat := 0xFFFF

/-- A number in bytes, the low one first. -/
def littleEndian : (count : Nat) → Nat → List UInt8
  | 0, _ => []
  | k + 1, n => UInt8.ofNat (n % 256) :: littleEndian k (n / 256)

/-- A stored block. -/
def storedBlock (isLast : Bool) (bytes : List UInt8) : List UInt8 :=
  (if isLast then 1 else 0) :: littleEndian 2 bytes.length ++
    littleEndian 2 (greatestStored - bytes.length) ++ bytes

/-- Bytes in stored blocks, all of them full but the last. -/
def storedBlocks : Nat → List UInt8 → List UInt8
  | 0, bytes => storedBlock true bytes
  | n + 1, bytes =>
    storedBlock false (bytes.take greatestStored) ++ storedBlocks n (bytes.drop greatestStored)

/-- Writes bytes as data that reads back to them. -/
def compress (bytes : List UInt8) : List UInt8 :=
  storedBlocks ((bytes.length - 1) / greatestStored) bytes

end DottedPath.Document.Deflate
