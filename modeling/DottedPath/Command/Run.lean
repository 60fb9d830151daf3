import DottedPath.Command.Config
import DottedPath.Command.Options
import DottedPath.Document.File
import DottedPath.Query.Flat
import DottedPath.Transform.Builtin

/-!
Running a command on a document: from the bytes of its input to what it prints, what it writes back,
and the status that it ends with.
-/

namespace DottedPath.Command

open Document (DocumentError FileError Format Json)

/-- Why a command fails. -/
inductive RunError where
  | unknownFormat (name : String)
  | input (e : FileError)
  | path (e : Error)
  | nothingToWriteBack
deriving DecidableEq, Repr

/-- The text of a failure. -/
def RunError.message : RunError → String
  | unknownFormat name => "Unknown output format: " ++ name
  | input e => e.message
  | path e => e.message
  | nothingToWriteBack => "--in-place requires --file"

/-- What an action answers. -/
inductive Answer where
  | value (v : Value)
  | truth (b : Bool)

/-- What a run leaves behind. -/
inductive Outcome where
  | printed (text : String)
  /-- A yes or no, which the status says too. -/
  | decided (yes : Bool)
  | written (path : String) (bytes : List UInt8)
  | failed (e : RunError)

namespace Outcome

/-- What is printed. -/
def output : Outcome → String
  | printed text => text
  | decided yes => if yes then "true\n" else "false\n"
  | _ => ""

/-- The status that says how the run went. -/
def status : Outcome → Nat
  | decided false => 1
  | failed _ => 1
  | _ => 0

end Outcome

/-- The value of a word of the command line: a JSON text stands for what it says, any other text for
itself. -/
def valueOfWord (word : String) : StoreM Value :=
  match Json.parse? word with
  | some j => j.toValue
  | none => pure (.str word)

/-- The dict of some paths and values. -/
def dictOfPaths (pairs : List (String × Value)) : StoreM Value := do
  alloc (.dict ((← get).dictOf (pairs.map fun (path, v) => (.str path, v))))

/-- Does an action on a document. -/
def Action.run (ctx : Context) (doc : Value) : Action → Eval Answer
  | get paths => do
    match ← paths.mapM (ctx.get doc) with
    | [v] => pure (.value v)
    | vs => .value <$> (alloc (.list vs) : StoreM Value)
  | has path => .truth <$> ctx.has doc path
  | expand paths => do
    let found ← ctx.expandMulti doc paths
    .value <$> (alloc (.list (found.map fun t => .str t)) : StoreM Value)
  | pluck paths => do
    let pairs ← ctx.pluckMulti doc paths
    .value <$> (dictOfPaths pairs : StoreM Value)
  | update path word => do
    let v ← (valueOfWord word : StoreM Value)
    .value <$> ctx.updatePath (.value doc) path (.value v)
  | remove path none => .value <$> ctx.removePath (.value doc) path .any
  | remove path (some word) => do
    let v ← (valueOfWord word : StoreM Value)
    .value <$> ctx.removePath (.value doc) path (.value v)
  | unpack => do
    let pairs := (← store).unpack doc
    .value <$> (dictOfPaths pairs : StoreM Value)
  | pack => do
    let s ← store
    .value <$> ctx.pack ((s.entries doc).map fun (k, v) => (s.text k, v))

namespace Invocation

/-- What settings say about evaluation. -/
def context (config : Config) : Context := ⟨Registry.builtin, config.transformsRaise⟩

/-- The format of what is printed. -/
def outputFormat (config : Config) (i : Invocation) : Except RunError Format :=
  let name := i.output.getD config.outputFormat
  match Format.ofName? name with
  | some format => pure format
  | none => throw (.unknownFormat name)

/-- The document in the input, and its format. -/
def document (i : Invocation) (input : Option (List UInt8)) :
    ExceptT RunError StoreM (Value × Format) :=
  match i.file, input with
  | some path, some bytes => (Document.load path bytes).adapt .input
  | none, some bytes => (Document.loadUnnamed bytes).adapt .input
  | _, none => throw (.input .unreadable)

/-- What an answer leaves behind, written back or printed. -/
def conclude (config : Config) (i : Invocation) (source target : Format) :
    Answer → ExceptT RunError StoreM Outcome
  | .truth b => pure (.decided b)
  | .value v => do
    let s ← getThe Store
    if i.inPlace then
      match i.file with
      | some path => pure (.written path (Document.save path source config.indent s v))
      | none => throw .nothingToWriteBack
    else pure (.printed (target.render config.indent s v))

/-- Runs a command line on its input; without input there is nothing to read. -/
def run (config : Config) (i : Invocation) (input : Option (List UInt8)) : Outcome :=
  let steps : ExceptT RunError StoreM Outcome := do
    let target ← ExceptT.mk (pure (i.outputFormat config))
    let (doc, source) ← i.document input
    let answer ← (i.action.run (context config) doc).adapt .path
    i.conclude config source target answer
  match (steps.run Store.empty).1 with
  | .ok outcome => outcome
  | .error e => .failed e

end Invocation

end DottedPath.Command
