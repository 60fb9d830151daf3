/-!
Byte texts: the UTF-8 form of a text, and the reading of bytes that need not be well formed.
Reading replaces each maximal piece of a broken sequence by one replacement character.
-/

namespace DottedPath.Text

/-- The UTF-8 bytes of a text. -/
def utf8Bytes (s : String) : List UInt8 :=
  s.toUTF8.toList

/-- Stands for bytes that encode no character. -/
def replacementChar : Char := '\ufffd'

/-- The bounds of the second byte and the number of bytes after the first one, for a first byte
that opens a sequence of several bytes. Bounds tighter than 0x80 to 0xBF exclude overlong forms,
surrogates and numbers past the last code point. -/
def sequenceShape (b : UInt8) : Option (Nat × UInt8 × UInt8) :=
  if 0xC2 ≤ b && b ≤ 0xDF then some (1, 0x80, 0xBF)
  else if b == 0xE0 then some (2, 0xA0, 0xBF)
  else if b == 0xED then some (2, 0x80, 0x9F)
  else if 0xE1 ≤ b && b ≤ 0xEF then some (2, 0x80, 0xBF)
  else if b == 0xF0 then some (3, 0x90, 0xBF)
  else if b == 0xF4 then some (3, 0x80, 0x8F)
  else if 0xF1 ≤ b && b ≤ 0xF3 then some (3, 0x80, 0xBF)
  else none

/-- The payload of a first byte with `count` bytes after it. -/
def leadPayload (b : UInt8) : Nat → Nat
  | 1 => b.toNat % 32
  | 2 => b.toNat % 16
  | _ => b.toNat % 8

/-- Reads up to `count` continuation bytes, the first one within its own bounds; answers the code
point, if all are there, and the bytes that follow the piece read. -/
def continueSequence (payload : Nat) :
    (count : Nat) → (lo hi : UInt8) → List UInt8 → Option Nat × List UInt8
  | 0, _, _, rest => (some payload, rest)
  | _ + 1, _, _, [] => (none, [])
  | n + 1, lo, hi, b :: rest =>
    if lo ≤ b && b ≤ hi then
      continueSequence (payload * 64 + b.toNat % 64) n 0x80 0xBF rest
    else (none, b :: rest)

theorem length_continueSequence_le (payload count : Nat) (lo hi : UInt8) (bs : List UInt8) :
    (continueSequence payload count lo hi bs).2.length ≤ bs.length := by
  induction count generalizing payload lo hi bs with
  | zero => simp [continueSequence]
  | succ n ih =>
    cases bs with
    | nil => simp [continueSequence]
    | cons b rest =>
      simp only [continueSequence]
      split
      · exact Nat.le_trans (ih _ _ _ _) (Nat.le_succ _)
      · exact Nat.le_refl _

/-- The next character of a byte text and the bytes after it. -/
def decodeStep (b : UInt8) (rest : List UInt8) : Char × List UInt8 :=
  if b < 0x80 then (Char.ofNat b.toNat, rest)
  else match sequenceShape b with
    | none => (replacementChar, rest)
    | some (count, lo, hi) =>
      match continueSequence (leadPayload b count) count lo hi rest with
      | (some n, rest) => (Char.ofNat n, rest)
      | (none, rest) => (replacementChar, rest)

theorem length_decodeStep_le (b : UInt8) (rest : List UInt8) :
    (decodeStep b rest).2.length ≤ rest.length := by
  unfold decodeStep
  split
  · exact Nat.le_refl _
  · split
    · exact Nat.le_refl _
    · next count lo hi _ =>
      have h := length_continueSequence_le (leadPayload b count) count lo hi rest
      split <;> simp_all

/-- The characters of a byte text, broken pieces replaced. -/
def decodeLossy : List UInt8 → List Char
  | [] => []
  | b :: rest =>
    have := length_decodeStep_le b rest
    (decodeStep b rest).1 :: decodeLossy (decodeStep b rest).2
termination_by bs => bs.length

/-- The text of bytes, broken pieces replaced. -/
def ofBytesLossy (bs : List UInt8) : String :=
  String.ofList (decodeLossy bs)

end DottedPath.Text
