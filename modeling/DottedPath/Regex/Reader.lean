import DottedPath.Regex.Pattern
import DottedPath.Regex.Property
import DottedPath.Text.Blank
import DottedPath.Text.Utf8

/-!
The text of regular expressions. Flags hold from where they are set to the end of the group. Neither
look-around nor references back to a group exist; a text that uses them is refused, like any other
that is not well formed.
-/

namespace DottedPath.Regex

open Text

/-- What the units of the searched text are. -/
inductive Mode where
  | text
  | bytes
deriving DecidableEq

/-- How the text that follows is read. -/
structure Flags where
  ignoreCase : Bool := false
  multiLine : Bool := false
  dotNewline : Bool := false
  swapGreed : Bool := false
  unicode : Bool := true
  verbose : Bool := false
  crlf : Bool := false

/-- A character class item or an escape, before it is placed. -/
inductive Atom where
  /-- A character; `exact` if it is written as two hexadecimal digits and may stand for a byte. -/
  | char (n : Nat) (exact : Bool)
  | set (s : UnitSet)
  | look (l : Look)

/-- Without the verbose flag nothing is skipped; with it blanks and comments are. -/
def skipVerbose (verbose : Bool) (cs : List Char) : List Char :=
  if verbose then skip false cs else cs
where
  skip (inComment : Bool) : List Char → List Char
    | [] => []
    | c :: cs =>
      if inComment then skip (c != '\n') cs
      else if isBlank c then skip false cs
      else if c == '#' then skip true cs
      else c :: cs

theorem length_skip_le (inComment : Bool) (cs : List Char) :
    (skipVerbose.skip inComment cs).length ≤ cs.length := by
  induction cs generalizing inComment with
  | nil => simp [skipVerbose.skip]
  | cons c cs ih =>
    simp only [skipVerbose.skip]
    split
    · exact Nat.le_succ_of_le (ih _)
    · split
      · exact Nat.le_succ_of_le (ih _)
      · split
        · exact Nat.le_succ_of_le (ih _)
        · exact Nat.le_refl _

/-- A hexadecimal code point. -/
def readCodePoint? (digits : List Char) : Option Nat :=
  if digits.isEmpty || digits.any (fun c => !(c.isDigit || ('a' ≤ c.toLower && c.toLower ≤ 'f')))
  then none
  else
    let n := readHex (digits.map Char.toUpper)
    if n < 0xD800 || (0xDFFF < n && n ≤ 0x10FFFF) then some n else none

/-- The code point after `\x`, `\u` or `\U`: a fixed number of digits, or digits in braces. -/
def readHexEscape? (width : Nat) (cs : List Char) : Option (Atom × List Char) :=
  match cs with
  | '\x7b' :: cs =>
    match cs.dropWhile (· != '\x7d') with
    | _ :: rest => (readCodePoint? (cs.takeWhile (· != '\x7d'))).map fun n => (.char n false, rest)
    | [] => none
  | cs =>
    if cs.length < width then none
    else (readCodePoint? (cs.take width)).map fun n => (.char n (width == 2), cs.drop width)

/-- The set of a property escape, its complement for `\P` or a `^` in the braces. -/
def readProperty? (negated : Bool) (cs : List Char) : Option (UnitSet × List Char) :=
  match cs with
  | '\x7b' :: cs =>
    match cs.dropWhile (· != '\x7d') with
    | [] => none
    | _ :: rest =>
      let body := cs.takeWhile (· != '\x7d')
      let (inner, body) := match body with
        | '^' :: b => (true, b)
        | b => (false, b)
      let isMark := fun c => c == '=' || c == ':'
      let (unequal, found) :=
        match body.dropWhile (fun c => !isMark c) with
        | [] => (false, property? body none)
        | _ :: value =>
          let name := body.takeWhile (fun c => !isMark c)
          if name.getLast? == some '!' then (true, property? name.dropLast (some value))
          else (false, property? name (some value))
      found.map fun s => (if (negated != inner) != unequal then .compl s else s, rest)
  | c :: rest => (property? [c] none).map fun s => (if negated then .compl s else s, rest)
  | [] => none

/-- A class given by a letter. -/
def letterClass (unicode : Bool) (c : Char) : Option UnitSet :=
  match c with
  | 'd' => some (if unicode then .digit else .asciiDigit)
  | 's' => some (if unicode then .space else .asciiSpace)
  | 'w' => some (if unicode then .word else .asciiWord)
  | 'D' => some (.compl (if unicode then .digit else .asciiDigit))
  | 'S' => some (.compl (if unicode then .space else .asciiSpace))
  | 'W' => some (.compl (if unicode then .word else .asciiWord))
  | _ => none

/-- Closes a set under case if the flags say so. -/
def foldSet (flags : Flags) (s : UnitSet) : UnitSet :=
  if !flags.ignoreCase then s else if flags.unicode then .foldCase s else .foldAscii s

/-- The names of word boundaries in braces after `\b`. -/
def readBoundary? (unicode : Bool) (cs : List Char) : Option (Look × List Char) :=
  let named := fun (word : String) (l : Look) =>
    if word.toList.isPrefixOf cs then some (l, cs.drop word.length) else none
  (named "\x7bstart\x7d" (.wordStart unicode)).or
    ((named "\x7bend\x7d" (.wordEnd unicode)).or
      ((named "\x7bstart-half\x7d" (.wordStartHalf unicode)).or
        (named "\x7bend-half\x7d" (.wordEndHalf unicode))))

/-- What follows a backslash. -/
def readEscape? (flags : Flags) : List Char → Option (Atom × List Char)
  | [] => none
  | c :: cs =>
    match c with
    | 'x' => readHexEscape? 2 cs
    | 'u' => readHexEscape? 4 cs
    | 'U' => readHexEscape? 8 cs
    | 'p' | 'P' =>
      if flags.unicode then
        (readProperty? (c == 'P') cs).map fun (s, rest) => (.set (foldProperty flags s), rest)
      else none
    | 'a' => some (.char 7 false, cs)
    | 'f' => some (.char 12 false, cs)
    | 't' => some (.char 9 false, cs)
    | 'n' => some (.char 10 false, cs)
    | 'r' => some (.char 13 false, cs)
    | 'v' => some (.char 11 false, cs)
    | 'A' => some (.look .textStart, cs)
    | 'z' => some (.look .textEnd, cs)
    | 'b' =>
      match readBoundary? flags.unicode cs with
      | some (l, rest) => some (.look l, rest)
      | none => some (.look (.wordBoundary flags.unicode), cs)
    | 'B' => some (.look (.notWordBoundary flags.unicode), cs)
    | '<' => some (.look (.wordStart flags.unicode), cs)
    | '>' => some (.look (.wordEnd flags.unicode), cs)
    | _ =>
      match letterClass flags.unicode c with
      | some s => some (.set s, cs)
      | none =>
        if c.toNat < 128 && !c.isAlphanum then some (.char c.toNat false, cs) else none
where
  /-- Case is closed before the complement is taken. -/
  foldProperty (flags : Flags) : UnitSet → UnitSet
    | .compl s => .compl (foldSet flags s)
    | s => foldSet flags s

/-- The classes with a name between colons. -/
def namedClass? : String → Option UnitSet
  | "alnum" => some (.ranges [(48, 57), (65, 90), (97, 122)])
  | "alpha" => some (.ranges [(65, 90), (97, 122)])
  | "ascii" => some (.ranges [(0, 127)])
  | "blank" => some (.ranges [(9, 9), (32, 32)])
  | "cntrl" => some (.ranges [(0, 31), (127, 127)])
  | "digit" => some .asciiDigit
  | "graph" => some (.ranges [(33, 126)])
  | "lower" => some (.ranges [(97, 122)])
  | "print" => some (.ranges [(32, 126)])
  | "punct" => some (.ranges [(33, 47), (58, 64), (91, 96), (123, 126)])
  | "space" => some .asciiSpace
  | "upper" => some (.ranges [(65, 90)])
  | "word" => some .asciiWord
  | "xdigit" => some (.ranges [(48, 57), (65, 70), (97, 102)])
  | _ => none

/-- A named class, the opening bracket already read. -/
def readNamedClass? (cs : List Char) : Option (UnitSet × List Char) :=
  match cs with
  | ':' :: cs =>
    let (negated, cs) := match cs with
      | '^' :: r => (true, r)
      | r => (false, r)
    let name := cs.takeWhile (· != ':')
    match cs.dropWhile (· != ':') with
    | ':' :: ']' :: rest =>
      (namedClass? (String.ofList name)).map fun s => (if negated then .compl s else s, rest)
    | _ => none
  | _ => none

/-- An item of a class: an escape or a character. -/
def readClassAtom? (flags : Flags) : List Char → Option (Atom × List Char)
  | [] => none
  | '\\' :: cs => readEscape? flags cs
  | c :: cs => some (.char c.toNat false, cs)

/-- A character of a class. Without the Unicode flag a class holds bytes: ASCII, or a byte written
as such. -/
def classUnit? (flags : Flags) : Atom → Option Nat
  | .char n exact => if flags.unicode || n < 128 || (exact && n < 256) then some n else none
  | _ => none

/-- An item or a range of items. -/
def readClassRange? (flags : Flags) (cs : List Char) : Option (UnitSet × List Char) := do
  let skip := skipVerbose flags.verbose
  let (first, rest) ← readClassAtom? flags cs
  let rest := skip rest
  let alone : Option (UnitSet × List Char) :=
    match first with
    | .set s => some (s, rest)
    | .look _ => none
    | first => (classUnit? flags first).map fun n => (.single n, rest)
  match rest with
  | [] => none
  | '-' :: after =>
    match skip after with
    | [] => none
    | ']' :: _ => alone
    | '-' :: _ => alone
    | after =>
      let (last, rest) ← readClassAtom? flags after
      let lo ← classUnit? flags first
      let hi ← classUnit? flags last
      if lo ≤ hi then some (.ranges [(lo, hi)], rest) else none
  | _ => alone

/-- The operators between the parts of a class. -/
def classOperator? : List Char → Option ((UnitSet → UnitSet → UnitSet) × List Char)
  | '&' :: '&' :: cs => some (.inter, cs)
  | '-' :: '-' :: cs => some (.minus, cs)
  | '~' :: '~' :: cs => some (.symmDiff, cs)
  | _ => none

/-- Leading hyphens, which stand for themselves. -/
def readHyphens (verbose : Bool) : UnitSet → List Char → UnitSet × List Char
  | s, '-' :: cs => readHyphens verbose (.union s (.single 45)) (skipVerbose verbose cs)
  | s, cs => (s, cs)
termination_by _ cs => cs.length
decreasing_by
  simp only [skipVerbose]
  split
  · exact Nat.lt_succ_of_le (length_skip_le false _)
  · exact Nat.lt_succ_self _

/-- The start of a class: a complement sign, hyphens, and a bracket that stands for itself if it
comes first. -/
def openClass (verbose : Bool) (cs : List Char) : Bool × UnitSet × List Char :=
  let skip := skipVerbose verbose
  let (negated, cs) := match skip cs with
    | '^' :: r => (true, skip r)
    | r => (false, r)
  match cs with
  | ']' :: r => (negated, .single 93, skip r)
  | cs =>
    let (s, r) := readHyphens verbose .none cs
    (negated, s, r)

/-- The rest of a class, the opening bracket read. `left` is what stands before the last operator,
`here` what was collected since. The budget is the number of characters. -/
def readClass? (flags : Flags) : (budget : Nat) → (negated : Bool) →
    (left : Option (UnitSet × (UnitSet → UnitSet → UnitSet))) → (here : UnitSet) →
    List Char → Option (UnitSet × List Char)
  | 0, _, _, _, _ => none
  | n + 1, negated, left, here, cs =>
    match skipVerbose flags.verbose cs with
    | [] => none
    | ']' :: rest =>
      let s := foldSet flags (join left here)
      some (if negated then .compl s else s, rest)
    | '[' :: rest =>
      match readNamedClass? rest with
      | some (s, rest) => readClass? flags n negated left (.union here s) rest
      | none => do
        let (innerNegated, start, rest) := openClass flags.verbose rest
        let (s, rest) ← readClass? flags n innerNegated none start rest
        readClass? flags n negated left (.union here s) rest
    | cs =>
      match classOperator? cs with
      | some (op, rest) => readClass? flags n negated (some (join left here, op)) .none rest
      | none => do
        let (s, rest) ← readClassRange? flags cs
        readClass? flags n negated left (.union here s) rest
where
  /-- Applies the last operator. -/
  join (left : Option (UnitSet × (UnitSet → UnitSet → UnitSet))) (here : UnitSet) : UnitSet :=
    match left with
    | none => here
    | some (a, op) => op (foldSet flags a) (foldSet flags here)

/-- Decimal digits between blanks, within thirty-two bits. -/
def readCount? (cs : List Char) : Option (Nat × List Char) :=
  let cs := cs.dropWhile isBlank
  let digits := cs.takeWhile Char.isDigit
  let rest := (cs.dropWhile Char.isDigit).dropWhile isBlank
  if digits.isEmpty then none
  else
    let n := digits.foldl (fun n c => 10 * n + (c.toNat - 48)) 0
    if n < 2 ^ 32 then some (n, rest) else none

/-- A repetition count, the opening brace read. -/
def readRepetition? (verbose : Bool) (cs : List Char) :
    Option (Nat × Option Nat × List Char) := do
  let skip := skipVerbose verbose
  let (min, rest) ← readCount? (skip cs)
  match rest with
  | '\x7d' :: rest => some (min, some min, rest)
  | ',' :: rest =>
    match skip rest with
    | '\x7d' :: rest => some (min, none, rest)
    | rest =>
      let (max, rest) ← readCount? rest
      match rest with
      | '\x7d' :: rest => if min ≤ max then some (min, some max, rest) else none
      | _ => none
  | _ => none

/-- Flags of a group, up to the colon or the closing parenthesis, which is answered too. -/
def readFlags? (flags : Flags) (cs : List Char) : Option (Flags × Char × Bool × List Char) :=
  go cs flags true [] false false
where
  go : List Char → Flags → Bool → List Char → Bool → Bool →
      Option (Flags × Char × Bool × List Char)
    | [], _, _, _, _, _ => none
    | c :: cs, flags, on, seen, negated, dangling =>
      if c == ':' || c == ')' then
        if dangling then none else some (flags, c, seen.isEmpty, cs)
      else if c == '-' then
        if negated then none else go cs flags false seen true true
      else if seen.contains c then none
      else
        match setFlag? flags c on with
        | some flags => go cs flags on (c :: seen) negated false
        | none => none
  setFlag? (flags : Flags) (c : Char) (on : Bool) : Option Flags :=
    match c with
    | 'i' => some { flags with ignoreCase := on }
    | 'm' => some { flags with multiLine := on }
    | 's' => some { flags with dotNewline := on }
    | 'U' => some { flags with swapGreed := on }
    | 'u' => some { flags with unicode := on }
    | 'x' => some { flags with verbose := on }
    | 'R' => some { flags with crlf := on }
    | _ => none

/-- A set as an expression. In a text a set without the Unicode flag must keep to ASCII. -/
def setPattern? (mode : Mode) (flags : Flags) (s : UnitSet) : Option Pattern :=
  if mode == .text && !flags.unicode && !s.isAscii then none else some (.unit s)

/-- A character by itself: in bytes the sequence of its bytes. -/
def charUnits (mode : Mode) (n : Nat) : Pattern :=
  match mode with
  | .text => .unit (.single n)
  | .bytes =>
    match utf8Bytes (String.ofList [Char.ofNat n]) with
    | [] => .empty
    | b :: bs =>
      bs.foldl (fun p b => .seq p (.unit (.single b.toNat))) (.unit (.single b.toNat))

/-- A character as an expression, with its variants if case is ignored. -/
def charPattern? (mode : Mode) (flags : Flags) (n : Nat) (exact : Bool) : Option Pattern :=
  if !flags.unicode && exact && 128 ≤ n then
    if mode == .bytes then some (.unit (.single n)) else none
  else if !flags.ignoreCase then some (charUnits mode n)
  else
    let variants := if flags.unicode then caseVariants n else asciiVariants n
    match variants with
    | [] => some (charUnits mode n)
    | v :: vs =>
      some (vs.foldl (fun p v => .alt p (charUnits mode v)) (charUnits mode v))

/-- An escape or a character as an expression. -/
def atomPattern? (mode : Mode) (flags : Flags) : Atom → Option Pattern
  | .char n exact => charPattern? mode flags n exact
  | .set s => setPattern? mode flags s
  | .look l => some (.look l)

/-- A name of a group: a letter or an underscore first, then also digits, dots and brackets. -/
def isGroupName (name : List Char) : Bool :=
  match name with
  | [] => false
  | c :: cs =>
    (c == '_' || isAlphabetic c) &&
      cs.all fun c => c == '_' || c == '.' || c == '[' || c == ']' || isAlphanumeric c

/-- The parts of a sequence, the last first; `none` is a place that cannot be repeated. -/
def sequenceOf (parts : List (Option Pattern)) : Pattern :=
  (parts.filterMap id).foldl (fun after p => .seq p after) .empty

/-- The alternatives of a group, the last first. -/
def alternativesOf : List Pattern → Pattern
  | [] => .empty
  | p :: ps => ps.foldl (fun after q => .alt q after) p

/-- How a group opens: flags that hold from here on, or a group with its own flags. -/
inductive Opening where
  | flags (f : Flags)
  | group (f : Flags) (name : Option (List Char))

/-- What follows an opening parenthesis. -/
def readOpening? (flags : Flags) (cs : List Char) : Option (Opening × List Char) :=
  let named := fun (cs : List Char) =>
    let name := cs.takeWhile (· != '>')
    match cs.dropWhile (· != '>') with
    | _ :: rest => if isGroupName name then some (.group flags (some name), rest) else none
    | [] => none
  match skipVerbose flags.verbose cs with
  | '?' :: '=' :: _ => none
  | '?' :: '!' :: _ => none
  | '?' :: '<' :: '=' :: _ => none
  | '?' :: '<' :: '!' :: _ => none
  | '?' :: 'P' :: '<' :: rest => named rest
  | '?' :: '<' :: rest => named rest
  | '?' :: rest =>
    match readFlags? flags rest with
    | some (f, ')', unset, rest) => if unset then none else some (.flags f, rest)
    | some (f, _, _, rest) => some (.group f none, rest)
    | none => none
  | cs => some (.group flags none, cs)

/-- Groups nested deeper than this are refused. -/
def nestingLimit : Nat := 250

/-- Reads alternatives up to a closing parenthesis or the end. `alts` holds the finished
alternatives and `parts` the sequence being read, each with the last first; `names` are the names of
groups so far. Every step takes at least one character, so the number of characters is budget
enough. -/
def readAlternatives? (mode : Mode) : (budget : Nat) → (depth : Nat) → Flags →
    (names : List (List Char)) → (alts : List Pattern) → (parts : List (Option Pattern)) →
    List Char → Option (Pattern × List (List Char) × List Char)
  | 0, _, _, _, _, _, _ => none
  | n + 1, depth, flags, names, alts, parts, cs =>
    let skip := skipVerbose flags.verbose
    let push := fun (p : Pattern) (rest : List Char) =>
      readAlternatives? mode n depth flags names alts (some p :: parts) rest
    let finish := fun (rest : List Char) =>
      some (alternativesOf (sequenceOf parts :: alts), names, rest)
    let lazily := fun (rest : List Char) =>
      match skip rest with
      | '?' :: rest => rest
      | rest => rest
    let again := fun (min : Nat) (max : Option Nat) (rest : List Char) =>
      match parts with
      | some p :: parts =>
        readAlternatives? mode n depth flags names alts
          (some (.repeated p min max) :: parts) (lazily rest)
      | _ => none
    match skip cs with
    | [] => finish []
    | ')' :: rest => finish (')' :: rest)
    | '|' :: rest =>
      readAlternatives? mode n depth flags names (sequenceOf parts :: alts) [] rest
    | '(' :: rest =>
      if nestingLimit < depth then none
      else
        match readOpening? flags rest with
        | none => none
        | some (.flags f, rest) =>
          readAlternatives? mode n depth f names alts (none :: parts) rest
        | some (.group f name, rest) =>
          if name.any names.contains then none
          else
            match readAlternatives? mode n (depth + 1) f (name.toList ++ names) [] [] rest with
            | some (p, names, ')' :: rest) =>
              readAlternatives? mode n depth flags names alts (some p :: parts) rest
            | _ => none
    | '[' :: rest =>
      let (negated, start, rest) := openClass flags.verbose rest
      match readClass? flags (rest.length + 1) negated none start rest with
      | some (s, rest) => (setPattern? mode flags s).bind fun p => push p rest
      | none => none
    | '?' :: rest => again 0 (some 1) rest
    | '*' :: rest => again 0 none rest
    | '+' :: rest => again 1 none rest
    | '\x7b' :: rest =>
      match readRepetition? flags.verbose rest with
      | some (min, max, rest) => again min max rest
      | none => none
    | '\\' :: rest =>
      match readEscape? flags rest with
      | some (a, rest) => (atomPattern? mode flags a).bind fun p => push p rest
      | none => none
    | '.' :: rest =>
      if mode == .text && !flags.unicode then none
      else
        let dot : UnitSet :=
          if flags.dotNewline then .all
          else if flags.crlf then .minus .notNewline (.single 13)
          else .notNewline
        push (.unit dot) rest
    | '^' :: rest => push (.look (if flags.multiLine then .lineStart else .textStart)) rest
    | '$' :: rest => push (.look (if flags.multiLine then .lineEnd else .textEnd)) rest
    | c :: rest => (charPattern? mode flags c.toNat false).bind fun p => push p rest

/-- Reads a whole regular expression. -/
def read? (mode : Mode) (source : List Char) : Option Pattern :=
  match readAlternatives? mode (2 * source.length + 2) 0 { unicode := mode == .text } [] [] []
      source with
  | some (p, _, []) => if p.cost ≤ costLimit then some p else none
  | _ => none

end DottedPath.Regex
