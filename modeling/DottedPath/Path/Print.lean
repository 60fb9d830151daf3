import DottedPath.Path.Expression
import DottedPath.Path.Quote
import DottedPath.Text.Quoted
import DottedPath.Text.Utf8

/-!
The canonical text of path expressions. Only the first segment of a path is written without the
separator that its kind has elsewhere; an invert marker does not count as one.
-/

namespace DottedPath

/-- Texts in a row with a separator between them. -/
def joined (separator : String) (texts : List String) : String :=
  separator.intercalate texts

/-- A sign that is written or not. -/
def sign (text : String) (written : Bool) : String :=
  if written then text else ""

/-- A literal in the place of a value: texts are always quoted. -/
def Literal.text : Literal → String
  | .str s => Text.quoted s
  | l => l.repr

/-- An argument of a transform: a text is quoted only if it would be read differently. -/
def Literal.argumentText : Literal → String
  | .null => ""
  | .str s =>
    if s.toList.any (fun c => c == ':' || c == '|' || c == Text.quoteChar || c == '"') ||
        s == "raises" then Text.quoted s
    else s
  | l => l.text

/-- A call after its bar. -/
def TransformCall.text (c : TransformCall) : String :=
  "|" ++ c.name ++ joined "" (c.args.map fun a => ":" ++ a.argumentText) ++
    joined "" (c.named.map fun (name, v) => ":" ++ name ++ "=" ++ v.text) ++
    sign ":raises" c.raises

/-- A chain of transforms. -/
def chainText (calls : List TransformCall) : String :=
  joined "" (calls.map TransformCall.text)

/-- The letter before the bracket of a sequence pattern. -/
def SequenceKind.letter : SequenceKind → String
  | any => ""
  | list => "l"
  | tuple => "t"

/-- The letters before the brace of a set pattern. Empty braces are a dict, so an empty pattern for
any set is written as one for sets. -/
def SetKind.letters (empty : Bool) : SetKind → String
  | any => sign "s" empty
  | set => "s"
  | frozenset => "fs"

/-- The bounds of a glob after its dots. -/
def Glob.boundsText (lo : Nat) (hi : Option Nat) : String :=
  match lo, hi with
  | 0, none => ""
  | 0, some hi => Decimal.natText hi
  | lo, none => Decimal.natText lo ++ ":"
  | lo, some hi => Decimal.natText lo ++ ":" ++ Decimal.natText hi

mutual

/-- The text of a value pattern. -/
def ValuePattern.text : ValuePattern → String
  | .literal l => l.text
  | .wildcard => "*"
  | .regex re => re.text
  | .textGlob parts _ => GlobPart.shownAll parts
  | .bytesGlob parts _ => GlobPart.shownAll parts
  | .sequence kind es => kind.letter ++ "[" ++ joined ", " (Element.texts es) ++ "]"
  | .set kind es => kind.letters es.isEmpty ++ "\x7b" ++ joined ", " (Element.texts es) ++ "\x7d"
  | .dict marked es =>
    sign "d" (marked || es.isEmpty) ++ "\x7b" ++ joined ", " (Entry.texts es) ++ "\x7d"
  | .group ps => "(" ++ joined ", " (ValuePattern.texts ps) ++ ")"

def ValuePattern.texts : List ValuePattern → List String
  | [] => []
  | p :: ps => p.text :: ValuePattern.texts ps

def ValuePattern.innerText : Option ValuePattern → String
  | none => ""
  | some p => p.text

/-- The text of a glob: its dots, its inner pattern and its bounds. -/
def Glob.text : Glob → String
  | ⟨p, lo, hi⟩ => "..." ++ ValuePattern.innerText p ++ Glob.boundsText lo hi

/-- The text of a fragment. -/
def GlobPart.shown : GlobPart → String
  | .text s => Text.quoted s
  | .bytes bs => "b" ++ Text.quoted (Text.ofBytesLossy bs)
  | .glob g => g.text

/-- The text of a sequence of fragments. -/
def GlobPart.shownAll : List GlobPart → String
  | [] => ""
  | p :: ps => p.shown ++ GlobPart.shownAll ps

def Element.text : Element → String
  | .value p => p.text
  | .glob g => g.text

def Element.texts : List Element → List String
  | [] => []
  | e :: es => e.text :: Element.texts es

def Entry.text : Entry → String
  | .pair k v => k.text ++ ": " ++ v.text
  | .glob g (some v) => g.text ++ ": " ++ v.text
  | .glob g none => g.text

def Entry.texts : List Entry → List String
  | [] => []
  | e :: es => e.text :: Entry.texts es

end

/-- A test as it stands after a segment. -/
def ValueTest.text (t : ValueTest) : String :=
  chainText t.transforms ++ t.comparison.symbol ++ t.pattern.text

/-- A restriction with its colon. -/
def KindRestriction.text (r : KindRestriction) : String :=
  ":" ++ sign "!" r.negated ++
    match r.kinds with
    | [k] => k.name
    | ks => "(" ++ joined ", " (ks.map Kind.name) ++ ")"

/-- A slice bound. -/
def Bound.text : Option Bound → String
  | none => ""
  | some .length => "+"
  | some (.index i) => Decimal.intText i

/-- An integer that may be left out. -/
def optionalText : Option Int → String
  | none => ""
  | some i => Decimal.intText i

/-- A slice between its brackets. -/
def SliceRange.text (r : SliceRange) : String :=
  Bound.text r.start ++ ":" ++ Bound.text r.stop ++
    match r.step with
    | none => ""
    | some n => ":" ++ Decimal.intText n

/-- A depth window with its colons. -/
def DepthRange.text (d : DepthRange) : String :=
  if d == .unbounded then ""
  else
    ":" ++ optionalText d.start ++
      (if d.stop.isSome || d.step.isSome then ":" ++ optionalText d.stop else "") ++
      match d.step with
      | none => ""
      | some n => ":" ++ Decimal.intText n

/-- The mark of a cut. -/
def Cut.text : Cut → String
  | none => ""
  | hard => "#"
  | soft => "##"

/-- What an access selects. -/
def KeyPattern.text (asKey : Bool) : KeyPattern → String
  | literal l => l.normalize asKey
  | wildcard => "*"
  | regex re => re.text

/-- An access before its suffixes; the filter is given by its text. A first-match mark stands after
a pattern, but after the filter of a literal. -/
def accessText (asKey : Bool) (key : KeyPattern) (filter : Option String) (first : Bool) : String :=
  key.text asKey ++ sign "?" (first && key.isPattern) ++
    match filter with
    | none => ""
    | some f => "&" ++ f ++ sign "?" (first && !key.isPattern)

/-- The brackets of a slot around a body, with the mark of what is not written. -/
def bracketed (nop : Bool) (body : String) : String :=
  "[" ++ sign "~" nop ++ body ++ "]"

mutual

/-- The text of a segment. `top` says that it is the first of its path, `nop` that it is marked as
not written. -/
def Segment.textIn (top nop : Bool) : Segment → String
  | .root => ""
  | .invert => "-"
  | .access .key key filter first =>
    sign "." (!top) ++ sign "~" nop ++ accessText true key (Filter.textOption filter) first
  | .access .attr key filter first =>
    sign "~" (nop && top) ++ "@" ++ sign "~" (nop && !top) ++
      accessText true key (Filter.textOption filter) first
  | .access .slot key filter first =>
    bracketed nop (accessText false key (Filter.textOption filter) first)
  | .append unique => bracketed nop (if unique then "+?" else "+")
  | .slice range =>
    if range == .full then sign "~" nop ++ "[]" else bracketed nop range.text
  | .sliceFilter filter first => bracketed nop (Filter.text filter ++ sign "?" first)
  | .recursive key branches depth filter first =>
    sign "." (!top) ++ sign "~" nop ++
      (match branches with
        | [] =>
          match key with
          | .wildcard => "**"
          | key => "*" ++ key.text true
        | branches => "*(" ++ joined ", " (Branch.texts true branches) ++ ")") ++
      sign "?" first ++ depth.text ++
      match Filter.textOption filter with
      | none => ""
      | some f => "&" ++ f
  | .group kind branches first =>
    sign "~" nop ++
      (match kind with
        | .or => "(" ++ joined "," (Branch.texts top branches) ++ ")"
        | .and => joined "&" (Branch.bareTexts top branches)
        | .not => "!" ++ joined "" (Branch.bareTexts top branches)) ++
      sign "?" first
  | .nop inner => Segment.textIn top true inner
  | .guard inner test => Segment.textIn top nop inner ++ test.text
  | .restrict inner kinds => Segment.textIn top nop inner ++ kinds.text

/-- The texts of segments in a row. -/
def Segment.textsIn (top : Bool) : List Segment → String
  | [] => ""
  | s :: ss =>
    let isInvert := match s with
      | .invert => true
      | _ => false
    Segment.textIn top false s ++ Segment.textsIn (top && isInvert) ss

/-- The texts of branches with their cuts. -/
def Branch.texts (top : Bool) : List Branch → List String
  | [] => []
  | .mk segments cut :: bs => (Segment.textsIn top segments ++ cut.text) :: Branch.texts top bs

/-- The texts of branches that have no cuts. -/
def Branch.bareTexts (top : Bool) : List Branch → List String
  | [] => []
  | .mk segments _ :: bs => Segment.textsIn top segments :: Branch.bareTexts top bs

/-- The text of a filter. -/
def Filter.text : Filter → String
  | .compare key test => Segment.textsIn true key ++ test.text
  | .and items => joined "&" (Filter.conjuncts items)
  | .or items => joined "," (Filter.texts items)
  | .not inner =>
    match inner with
    | .compare key test => "!" ++ (Segment.textsIn true key ++ test.text)
    | .and items => "!(" ++ joined "&" (Filter.conjuncts items) ++ ")"
    | .or items => "!(" ++ joined "," (Filter.texts items) ++ ")"
    | .not inner => "!" ++ Filter.text (.not inner)

/-- The texts of filters. -/
def Filter.texts : List Filter → List String
  | [] => []
  | f :: fs => f.text :: Filter.texts fs

/-- The texts of filters in a conjunction: a disjunction is put in parentheses. -/
def Filter.conjuncts : List Filter → List String
  | [] => []
  | f :: fs =>
    let bare := Filter.text f
    let text := match f with
      | .or _ => "(" ++ bare ++ ")"
      | _ => bare
    text :: Filter.conjuncts fs

/-- The text of a filter that may be left out. -/
def Filter.textOption : Option Filter → Option String
  | none => none
  | some f => some f.text

end

/-- The text of segments as a path of their own. -/
def pathText (segments : List Segment) : String :=
  Segment.textsIn true segments

/-- The text of a segment as a path of its own. -/
def Segment.text (s : Segment) : String :=
  Segment.textIn true false s

/-- The canonical text of an expression. -/
def PathExpression.text (e : PathExpression) : String :=
  pathText e.segments ++ chainText e.transforms

end DottedPath
