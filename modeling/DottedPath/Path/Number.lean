import DottedPath.Decimal.Reader
import DottedPath.Path.Literal
import DottedPath.Text.Blank

/-!
Number tokens: integers in base ten, sixteen, eight and two, with underscores between digits, and
whole numbers with an exponent. A forced number is any text that reads as an integer or a double.
-/

namespace DottedPath.Number

/-- Digits of a base, at least one. -/
def isDigits (base : Nat) (cs : List Char) : Bool :=
  !cs.isEmpty && cs.all fun c => (Decimal.digitValue? base c).isSome

/-- Groups of digits with single underscores between them. -/
def isGrouped (cs : List Char) : Bool :=
  !cs.isEmpty && cs.head? != some '_' && cs.getLast? != some '_' &&
    cs.all (fun c => c.isDigit || c == '_') &&
    !(cs.zip cs.tail).any fun (a, b) => a == '_' && b == '_'

/-- Digits and underscores from a digit on, an exponent sign, and an exponent. -/
def isExponential (cs : List Char) : Bool :=
  let isBody := fun (c : Char) => c.isDigit || c == '_'
  match cs with
  | d :: _ =>
    d.isDigit &&
      match cs.dropWhile isBody with
      | e :: x :: rest =>
        (e == 'e' || e == 'E') && isDigits 10 (if x == '+' || x == '-' then rest else x :: rest)
      | _ => false
  | [] => false

/-- The base that a marker after a leading zero names. -/
def markedBase? : List Char → Option Nat
  | '0' :: 'x' :: _ => some 16
  | '0' :: 'X' :: _ => some 16
  | '0' :: 'o' :: _ => some 8
  | '0' :: 'O' :: _ => some 8
  | '0' :: 'b' :: _ => some 2
  | '0' :: 'B' :: _ => some 2
  | _ => none

/-- The text without a leading minus sign. -/
def unsigned : List Char → List Char
  | '-' :: cs => cs
  | cs => cs

/-- A bare word that reads as a number: `7`, `-3`, `0x1F`, `1e5`, `1_000`. -/
def isToken (word : List Char) : Bool :=
  let body := unsigned word
  isGrouped body || isExponential body ||
    match markedBase? body with
    | some base => isDigits base (body.drop 2)
    | none => false

/-- An integer or a double. In another base the digits may have a sign of their own. A whole double
of moderate size that is written without a point is an integer. -/
def read? (raw : List Char) : Option Literal :=
  let text := (Text.trim raw).filter (· != '_')
  let body := unsigned text
  match markedBase? body with
  | some base =>
    (Decimal.readInt? base (body.drop 2)).map fun i =>
      .int (if text.head? == some '-' then Word.wrap (-i) else i)
  | none =>
    match Decimal.readInt? 10 text with
    | some i => some (.int i)
    | none =>
      (Decimal.readFloat? text).map fun f =>
        match Scalar.integerKey? f with
        | some i => if text.contains '.' then .float f else .int i
        | none => .float f

end DottedPath.Number
