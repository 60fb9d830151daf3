import DottedPath.Decimal.Reader
import DottedPath.Decimal.Rounded
import DottedPath.Value.View

/-!
Formats of a single value: text with one directive such as `%05.2f` in it, and `%%` for the sign
itself.
-/

namespace DottedPath.Percent

/-- A directive between its sign and its letter. -/
structure Spec where
  flags : List Char
  width : Option Nat
  precision : Option Nat

/-- May stand between the sign and the letter. -/
def isSpecChar (c : Char) : Bool :=
  c.isDigit || c == '.' || c == '-' || c == '+' || c == ' '

/-- A count: digits, with a plus sign allowed, within the range of memory sizes. -/
def readCount? (cs : List Char) : Option Nat :=
  let digits := match cs with
    | '+' :: ds => ds
    | ds => ds
  (Decimal.readNat? 10 digits).filter (· < 2 ^ 64)

/-- Flags, then a width, then a precision after a point. A precision that is no count is zero. -/
def Spec.read (cs : List Char) : Spec :=
  let isFlag := fun (c : Char) => c == '-' || c == '+' || c == ' ' || c == '0'
  let rest := cs.dropWhile isFlag
  { flags := cs.takeWhile isFlag
    width := readCount? (rest.takeWhile (· != '.'))
    precision := match rest.dropWhile (· != '.') with
      | [] => none
      | _ :: p => some ((readCount? p).getD 0) }

/-- Fills a text up to the width: with blanks after it, with zeros after its minus sign, or with
blanks before it. -/
def Spec.pad (spec : Spec) (body : List Char) : List Char :=
  let fill := spec.width.getD 0 - body.length
  if fill == 0 then body
  else if spec.flags.contains '-' then body ++ List.replicate fill ' '
  else if spec.flags.contains '0' then
    match body with
    | '-' :: digits => '-' :: List.replicate fill '0' ++ digits
    | digits => List.replicate fill '0' ++ digits
  else List.replicate fill ' ' ++ body

/-- Digits of a number in a base up to sixteen; a negative one is taken modulo `2 ^ 64`. -/
def inBase (base : Nat) (i : Int) : List Char :=
  Nat.toDigits base (i % 2 ^ 64).toNat

/-- A double with a given number of places. -/
def fixed (f : Float) (places : Nat) : List Char :=
  match Decimal.Reading.ofFloat f with
  | .nan => "NaN".toList
  | .infinite negative => (if negative then "-inf" else "inf").toList
  | .finite b => (if b.negative then ['-'] else []) ++ b.fixed places

/-- A double as a digit, a given number of places, and an exponent. -/
def scientific (f : Float) (places : Nat) : List Char :=
  match Decimal.Reading.ofFloat f with
  | .nan => "NaN".toList
  | .infinite negative => (if negative then "-inf" else "inf").toList
  | .finite b =>
    let (digits, exponent) := b.scientific places
    (if b.negative then ['-'] else []) ++ digits ++ 'e' :: (Decimal.intText exponent).toList

/-- The double of a number. -/
def number (s : Store) (v : Value) : Except String Float :=
  match v with
  | .scalar x =>
    match x.toFloat? with
    | some f => .ok f
    | none => .error ("a number is required, not " ++ x.kind.name)
  | v => .error ("a number is required, not " ++ (s.kind v).name)

/-- The integer of a number that is no double. -/
def integer (s : Store) (v : Value) : Except String Int :=
  match v with
  | .scalar x =>
    match x.toInt? with
    | some i => .ok i
    | none => .error ("an integer is required, not " ++ x.kind.name)
  | v => .error ("an integer is required, not " ++ (s.kind v).name)

/-- A number without its fractional part. -/
def wholeText (s : Store) (v : Value) : Except String (List Char) :=
  match integer s v with
  | .ok i => .ok (Decimal.intText i).toList
  | .error _ => (number s v).map fun f => (Decimal.intText (Word.ofFloat f)).toList

/-- What a directive prints, before it is filled up. -/
def body (s : Store) (v : Value) (spec : Spec) (letter : Char) : Except String (List Char) :=
  let cut := fun (cs : List Char) =>
    match spec.precision with
    | some p => cs.take p
    | none => cs
  let places := spec.precision.getD 6
  match letter with
  | 's' => .ok (cut (s.text v).toList)
  | 'r' => .ok (cut (s.repr v).toList)
  | 'd' | 'i' => wholeText s v
  | 'x' => (integer s v).map (inBase 16)
  | 'X' => (integer s v).map fun i => (inBase 16 i).map Char.toUpper
  | 'o' => (integer s v).map (inBase 8)
  | 'f' | 'F' => (number s v).map (fixed · places)
  | 'e' => (number s v).map (scientific · places)
  | 'g' => (number s v).map fun f => (Decimal.Layout.plain.text f).toList
  | c => .error ("unsupported format character '" ++ String.ofList [c] ++ "'")

/-- Formats from a place in the format on. `used` says that the value was printed before, `spec`
holds what was read of a directive, the last first. -/
def formatFrom (s : Store) (v : Value) (used : Bool) (spec : Option (List Char)) :
    List Char → Except String (List Char)
  | [] =>
    if spec.isSome then .error "incomplete format"
    else if used then .ok []
    else .error "not all arguments converted during string formatting"
  | c :: cs =>
    match spec with
    | none =>
      if c == '%' then formatFrom s v used (some []) cs
      else (formatFrom s v used none cs).map (c :: ·)
    | some read =>
      if isSpecChar c then formatFrom s v used (some (c :: read)) cs
      else if c == '%' then (formatFrom s v used none cs).map ('%' :: ·)
      else if used then .error "not enough arguments for format string"
      else
        let spec := Spec.read read.reverse
        match body s v spec c with
        | .error e => .error e
        | .ok text => (formatFrom s v true none cs).map (spec.pad text ++ ·)

/-- Formats a value. -/
def format (s : Store) (template : String) (v : Value) : Except String String :=
  (formatFrom s v false none template.toList).map String.ofList

end DottedPath.Percent
