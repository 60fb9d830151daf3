import DottedPath.Document.YamlScan

/-!
Reading YAML documents: block and flow collections, scalars of every style, anchors and aliases. A
mapping in which a key is repeated is no document, nor is a text with two documents.
-/

namespace DottedPath.Document

namespace YamlScan

/-- The name of an anchor, an alias or a tag. -/
def propertyName : YamlScan (List Char) :=
  takeWhile fun c => !isBlank c && c != '\n' && !isFlowMark c

/-- The node that an alias stands for. -/
def aliased : YamlScan Yaml := do
  let name ← propertyName
  match (← get).anchors.lookup name with
  | some y => pure y
  | none => failure

/-- Gives a node a name. -/
def bindAnchor (name : List Char) (y : Yaml) : YamlScan Unit :=
  modify fun c => { c with anchors := (name, y) :: c.anchors }

/-- What a tag makes of a plain word: the tag of texts keeps it as it is written. -/
def taggedWord? (tag : String) (word : String) : Option Yaml :=
  if tag == "!str" then some (.str word) else Yaml.ofPlain? word

/-- A mapping, in which no key may be repeated. -/
def mappingOf? (entries : List (Yaml × Yaml)) : Option Yaml :=
  let distinct := entries.foldl (fun es (k, v) => Yaml.putEntry es k v) []
  if distinct.length == entries.length then some (.mapping entries) else none

/-- Answers what there is, or fails. -/
def ofOption {α : Type} (x : Option α) : YamlScan α :=
  match x with
  | some a => pure a
  | none => failure

/-! ### Flow style -/

mutual

/-- A node inside brackets. -/
def flowNode : Nat → YamlScan Yaml
  | 0 => failure
  | n + 1 => do
    discard (skipGap true)
    match ← remaining with
    | '[' :: _ => do
      advance 1
      pure (.sequence (← flowItems n))
    | '\x7b' :: _ => do
      advance 1
      ofOption (mappingOf? (← flowEntries n))
    | '*' :: _ => do
      advance 1
      aliased
    | '&' :: _ => do
      advance 1
      let name ← propertyName
      let y ← flowNode n
      bindAnchor name y
      pure y
    | '!' :: _ => do
      advance 1
      let tag ← propertyName
      pure (.tagged (String.ofList ('!' :: tag)) (← flowNode n))
    | ',' :: _ => pure .null
    | ']' :: _ => pure .null
    | '\x7d' :: _ => pure .null
    | ':' :: cs =>
      if gapNext cs || cs.head?.any isFlowMark then pure .null
      else ofOption (Yaml.ofPlain? (← plainWord true (-1)))
    | _ => do
      match ← quotedWord? with
      | some t => pure (.str t)
      | none => ofOption (Yaml.ofPlain? (← plainWord true (-1)))

/-- The content of an entry after its key, if there is any. -/
def flowContent : Nat → YamlScan (Option Yaml)
  | 0 => failure
  | n + 1 => do
    discard (skipGap true)
    if ← eat ':' then some <$> flowNode n else pure none

/-- The items of a sequence up to its bracket. An item with a colon is a mapping of one entry. -/
def flowItems : Nat → YamlScan (List Yaml)
  | 0 => failure
  | n + 1 => do
    discard (skipGap true)
    if ← eat ']' then pure []
    else
      let x ← flowNode n
      let x ← match ← flowContent n with
        | some y => pure (Yaml.mapping [(x, y)])
        | none => pure x
      discard (skipGap true)
      if ← eat ',' then
        let xs ← flowItems n
        pure (x :: xs)
      else if ← eat ']' then pure [x]
      else failure

/-- The entries of a mapping up to its brace. -/
def flowEntries : Nat → YamlScan (List (Yaml × Yaml))
  | 0 => failure
  | n + 1 => do
    discard (skipGap true)
    if ← eat '\x7d' then pure []
    else
      let k ← flowNode n
      let x := (← flowContent n).getD .null
      discard (skipGap true)
      if ← eat ',' then
        let es ← flowEntries n
        pure ((k, x) :: es)
      else if ← eat '\x7d' then pure [(k, x)]
      else failure

end

/-! ### Block style -/

/-- A key on one line with its colon; `none` if none comes next. -/
def lineKey? (fuel : Nat) : YamlScan (Option Yaml) :=
  attempt do
    let start ← get
    let key ← match start.rest with
      | '[' :: _ => flowNode fuel
      | '\x7b' :: _ => flowNode fuel
      | '*' :: _ => do
        advance 1
        aliased
      | _ => do
        match ← quotedWord? with
        | some t => pure (Yaml.str t)
        | none => ofOption (Yaml.ofPlain? (← plainLineWord false))
    let length := start.rest.length - (← remaining).length
    if (start.rest.take length).any (· == '\n') then failure
    discard (takeWhile isBlank)
    if (← eat ':') && gapNext (← remaining) then pure key else failure

/-- An indicator with a gap after it comes next. -/
def indicatorNext (c : Char) : YamlScan Bool := do
  match ← remaining with
  | d :: cs => pure (d == c && gapNext cs)
  | [] => pure false

/-- An entry of a mapping comes next. -/
def entryNext (fuel : Nat) : YamlScan Bool := do
  let start ← get
  let marked ← indicatorNext '?'
  let key ← lineKey? fuel
  set start
  pure (marked || key.isSome)

mutual

/-- A node that belongs to what stands at column `parent`; block collections may begin only where
they are allowed. -/
def blockNode : Nat → Int → Bool → YamlScan Yaml
  | 0, _, _ => failure
  | n + 1, parent, inBlock => do
    let column := (← get).column
    match ← remaining with
    | '&' :: _ => do
      advance 1
      let name ← propertyName
      let y ← afterProperty n parent inBlock
      bindAnchor name y
      pure y
    | '!' :: _ => do
      advance 1
      let tag := String.ofList (← propertyName)
      if tag == "!str" then
        discard (takeWhile isBlank)
        match ← quotedWord? with
        | some t => pure (.str t)
        | none => ofOption (taggedWord? tag (← plainWord false parent))
      else pure (.tagged tag (← afterProperty n parent inBlock))
    | '|' :: _ => do
      advance 1
      pure (.str (← blockScalar false parent))
    | '>' :: _ => do
      advance 1
      pure (.str (← blockScalar true parent))
    | _ => do
      if inBlock && (← indicatorNext '-') then pure (.sequence (← blockItems n column))
      else if inBlock && (← entryNext n) then ofOption (mappingOf? (← blockEntries n column))
      else scalarNode n parent

/-- A node after its anchor or tag: on the same line, or indented deeper on a later one. -/
def afterProperty : Nat → Int → Bool → YamlScan Yaml
  | 0, _, _ => failure
  | n + 1, parent, inBlock => do
    let crossed ← skipGap false
    if (← atEnd) || (crossed && ((← get).column : Int) ≤ parent) then pure .null
    else blockNode n parent (inBlock || crossed)

/-- A node that is neither a block collection nor a block of lines. -/
def scalarNode : Nat → Int → YamlScan Yaml
  | 0, _ => failure
  | n + 1, parent => do
    match ← remaining with
    | '[' :: _ => flowNode n
    | '\x7b' :: _ => flowNode n
    | '*' :: _ => do
      advance 1
      aliased
    | _ => do
      match ← quotedWord? with
      | some t => pure (.str t)
      | none => ofOption (Yaml.ofPlain? (← plainWord false parent))

/-- The items of a sequence whose dashes stand at a column. -/
def blockItems : Nat → Nat → YamlScan (List Yaml)
  | 0, _ => failure
  | n + 1, column => do
    advance 1
    let crossed ← skipGap false
    let x ← if (← atEnd) || (crossed && (← get).column ≤ column) then pure .null
      else blockNode n column true
    discard (skipGap false)
    let c ← get
    if (← atEnd) || c.column < column then pure [x]
    else if c.column == column then
      if ← indicatorNext '-' then
        let xs ← blockItems n column
        pure (x :: xs)
      else pure [x]
    else failure

/-- The entries of a mapping whose keys stand at a column. -/
def blockEntries : Nat → Nat → YamlScan (List (Yaml × Yaml))
  | 0, _ => failure
  | n + 1, column => do
    let (k, x) ← blockEntry n column
    discard (skipGap false)
    let c ← get
    if (← atEnd) || c.column < column then pure [(k, x)]
    else if c.column == column then
      let es ← blockEntries n column
      pure ((k, x) :: es)
    else failure

/-- One entry of a mapping. -/
def blockEntry : Nat → Nat → YamlScan (Yaml × Yaml)
  | 0, _ => failure
  | n + 1, column => do
    if ← indicatorNext '?' then
      advance 1
      let k ← blockContent n column
      discard (skipGap false)
      if (← get).column == column && (← indicatorNext ':') then
        advance 1
        pure (k, ← blockContent n column)
      else pure (k, .null)
    else
      match ← lineKey? n with
      | some k => do pure (k, ← lineContent n column)
      | none => failure

/-- The content of an entry whose key or colon stands alone in front of it. -/
def blockContent : Nat → Nat → YamlScan Yaml
  | 0, _ => failure
  | n + 1, column => do
    let crossed ← skipGap false
    if (← atEnd) || (crossed && (← get).column ≤ column) then pure .null
    else blockNode n column true

/-- The content of an entry after a key on the same line. A sequence may stand at the column of the
key. -/
def lineContent : Nat → Nat → YamlScan Yaml
  | 0, _ => failure
  | n + 1, column => do
    let crossed ← skipGap false
    let c ← get
    if ← atEnd then pure .null
    else if !crossed then blockNode n column false
    else if column < c.column then blockNode n column true
    else if c.column == column && (← indicatorNext '-') then
      pure (.sequence (← blockItems n column))
    else pure .null

end

/-! ### Documents -/

/-- A line of a directive. -/
def skipDirectives : Nat → YamlScan Unit
  | 0 => pure ()
  | n + 1 => do
    discard (skipGap false)
    if (← peek) == some '%' then
      discard (takeWhile (· != '\n'))
      skipDirectives n

/-- The only document of a text. The bound is on the number of calls; each takes a character at
least within a few of them. -/
def document : YamlScan Yaml := do
  let length := (← remaining).length
  skipDirectives length
  if "---".toList.isPrefixOf (← remaining) && (← atEnd) then
    advance 3
    discard (skipGap false)
  let y ← if ← atEnd then pure .null else blockNode (8 * length + 8) (-1) true
  discard (skipGap false)
  if "...".toList.isPrefixOf (← remaining) && (← atEnd) then
    advance 3
    discard (skipGap false)
  if (← remaining).isEmpty then pure y else failure

/-- May stand in a document. -/
def isReadable (c : Char) : Bool :=
  let n := c.toNat
  n == 0x09 || n == 0x0A || n == 0x0D || (0x20 ≤ n && n ≤ 0x7E) || n == 0x85 ||
    (0xA0 ≤ n && n != 0xFEFF && n != 0xFFFE && n != 0xFFFF)

/-- The characters of a text with line feeds for all line breaks. -/
def normalized : List Char → List Char
  | '\r' :: '\n' :: cs => '\n' :: normalized cs
  | '\r' :: cs => '\n' :: normalized cs
  | c :: cs => c :: normalized cs
  | [] => []

end YamlScan

/-- Reads a YAML text. A mark of the byte order may stand in front. -/
def Yaml.parse? (text : String) : Option Yaml :=
  let cs := match text.toList with
    | '\ufeff' :: cs => cs
    | cs => cs
  if cs.all YamlScan.isReadable then
    (YamlScan.document.run ⟨YamlScan.normalized cs, 0, []⟩).map Prod.fst
  else none

end DottedPath.Document
