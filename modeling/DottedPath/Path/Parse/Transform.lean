import DottedPath.Path.Parse.Token
import DottedPath.Text.Alphanumeric

/-!
Reading chains of transforms: names after bars, each with arguments after colons. Inside a guard or
a filter an argument ends where the comparison may begin.
-/

namespace DottedPath.Parse

/-- Where a chain stands: at the end of a path, or before a comparison. -/
inductive ChainPlace where
  | trailing
  | guard
deriving DecidableEq

/-- An argument ends before these characters. -/
def endsArgument (place : ChainPlace) (cs : List Char) : Bool :=
  match place, cs with
  | _, [] => true
  | .trailing, c :: _ => c == ':' || c == '|'
  | .guard, c :: cs =>
    ":|=<>)],&".toList.contains c || (c == '!' && cs.head? == some '=')

/-- The characters of an argument without quotes: a backslash takes the next one as it is. -/
def argumentFrom (place : ChainPlace) (taken : List Char) : List Char → List Char × List Char
  | [] => (taken.reverse, [])
  | c :: cs =>
    if endsArgument place (c :: cs) then (taken.reverse, c :: cs)
    else if c == '\\' then
      match cs with
      | [] => (taken.reverse, [])
      | e :: cs => argumentFrom place (e :: taken) cs
    else argumentFrom place (c :: taken) cs

/-- A text that can only be a literal: a keyword, a quoted text, or something with a digit that
reads as a number. -/
def strictLiteral? (raw : List Char) : Option Literal :=
  match String.ofList raw with
  | "True" => some (.bool true)
  | "False" => some (.bool false)
  | "None" => some .null
  | _ =>
    match raw with
    | q :: rest =>
      if isQuote q && rest.getLast? == some q then
        some (.str (String.ofList rest.dropLast))
      else if raw.any Char.isDigit then Number.read? raw
      else none
    | [] => none

/-- An argument as a literal; an empty one is null. -/
def argumentLiteral (raw : List Char) : Literal :=
  if raw.isEmpty then .null
  else (strictLiteral? raw).getD (.str (String.ofList raw))

/-- A name that an argument may be given by. -/
def isArgumentName (name : List Char) : Bool :=
  name.head?.any (fun c => c.isAlpha || c == '_') && name.all fun c => c.isAlphanum || c == '_'

/-- A name and a literal with an equals sign between them. -/
def namedArgument? (raw : List Char) : Option (List Char × Literal) :=
  let name := raw.takeWhile (· != '=')
  match raw.dropWhile (· != '=') with
  | [] => none
  | _ :: value =>
    if isArgumentName name then (strictLiteral? value).map fun lit => (name, lit) else none

/-- The call with one more argument, given by its text. `raises` is no argument, but says that
failures are errors. -/
def addArgument (place : ChainPlace) (raw : List Char) (call : TransformCall) : TransformCall :=
  if raw == "raises".toList then { call with raises := true }
  else
    match (if place == .trailing then namedArgument? raw else none) with
    | some (name, lit) =>
      if name == "raises".toList then
        { call with raises := lit == .bool true }
      else { call with named := call.named ++ [(String.ofList name, lit)] }
    | none => { call with args := call.args ++ [argumentLiteral raw] }

/-- The argument after a colon. Before an equals sign only a literal is one: anything else would
leave open where the comparison begins. -/
def argument (place : ChainPlace) (call : TransformCall) : Parse TransformCall := do
  if ← quoteAt 0 then
    let text ← quotedText
    pure { call with args := call.args ++ [.str text] }
  else
    let (raw, rest) := argumentFrom place [] (← get)
    set rest
    if place == .guard && rest.head? == some '=' && !raw.isEmpty &&
        (strictLiteral? raw).isNone then
      fail "ambiguous transform argument"
    else pure (addArgument place raw call)

/-- Arguments, each after a colon, at most a number of them. -/
def argumentsWithin (place : ChainPlace) : Nat → TransformCall → Parse TransformCall
  | 0, call => pure call
  | n + 1, call => do
    if ← eat ':' then argumentsWithin place n (← argument place call)
    else pure call

/-- A call after a bar. -/
def transformCall (place : ChainPlace) : Parse (Option TransformCall) := do
  if ← eat '|' then
    let name ← takeWhile fun c => Text.isAlphanumeric c || c == '_' || c == '.'
    if name.isEmpty then fail "expected a transform name"
    let call : TransformCall := ⟨String.ofList name, [], [], false⟩
    pure (some (← argumentsWithin place ((← get).length + 1) call))
  else pure none

/-- A chain of transforms. -/
def transforms (place : ChainPlace) : Parse (List TransformCall) :=
  many (transformCall place)

end DottedPath.Parse
