import DottedPath.Command.Config
import DottedPath.Command.Help
import DottedPath.Command.Options
import DottedPath.Command.Run
import DottedPath.Decimal.Binary
import DottedPath.Decimal.Digits
import DottedPath.Decimal.Layout
import DottedPath.Decimal.Reader
import DottedPath.Decimal.Rounded
import DottedPath.Decimal.Shortest
import DottedPath.Decimal.Word
import DottedPath.Document.Deflate
import DottedPath.Document.File
import DottedPath.Document.Format
import DottedPath.Document.Gzip
import DottedPath.Document.Json
import DottedPath.Document.JsonText
import DottedPath.Document.Scan
import DottedPath.Document.Toml
import DottedPath.Document.Yaml
import DottedPath.Document.YamlRead
import DottedPath.Document.YamlScan
import DottedPath.Document.YamlText
import DottedPath.Error
import DottedPath.Evaluate.Child
import DottedPath.Evaluate.Default
import DottedPath.Evaluate.Edit
import DottedPath.Evaluate.Filter
import DottedPath.Evaluate.Items
import DottedPath.Evaluate.Location
import DottedPath.Evaluate.Recursion
import DottedPath.Evaluate.Replace
import DottedPath.Evaluate.Walk
import DottedPath.Matching.Distribution
import DottedPath.Matching.ValuePattern
import DottedPath.Path.Depth
import DottedPath.Path.Expression
import DottedPath.Path.Glob
import DottedPath.Path.Literal
import DottedPath.Path.Number
import DottedPath.Path.Parse.Basic
import DottedPath.Path.Parse.Expression
import DottedPath.Path.Parse.Segment
import DottedPath.Path.Parse.Token
import DottedPath.Path.Parse.Transform
import DottedPath.Path.Parse.ValuePattern
import DottedPath.Path.Print
import DottedPath.Path.Quote
import DottedPath.Path.Slice
import DottedPath.Query.Cache
import DottedPath.Query.Flat
import DottedPath.Query.PathText
import DottedPath.Query.Read
import DottedPath.Query.Write
import DottedPath.Regex.Compiled
import DottedPath.Regex.Pattern
import DottedPath.Regex.Property
import DottedPath.Regex.Reader
import DottedPath.Regex.UnitSet
import DottedPath.Text.Alphanumeric
import DottedPath.Text.Blank
import DottedPath.Text.Case
import DottedPath.Text.CaseTable
import DottedPath.Text.Category
import DottedPath.Text.Quoted
import DottedPath.Text.Range
import DottedPath.Text.Script
import DottedPath.Text.Utf8
import DottedPath.Transform.Builtin
import DottedPath.Transform.Percent
import DottedPath.Transform.Registry
import DottedPath.Value.Copy
import DottedPath.Value.Comparison
import DottedPath.Value.Kind
import DottedPath.Value.Scalar
import DottedPath.Value.Store
import DottedPath.Value.Text
import DottedPath.Value.View
import DottedPath.Main
import DottedPath.Proofs.Path.KeyToken
import DottedPath.Proofs.Path.PathText
import DottedPath.Proofs.Evaluate.Run
import DottedPath.Proofs.Query.KeyTree
import DottedPath.Proofs.Query.Unpack
import DottedPath.Proofs.Evaluate.KeyAccess
import DottedPath.Proofs.Query.Pack
import DottedPath.Proofs.Query.TreeLeaves
import DottedPath.Proofs.Query.PackOrder
import DottedPath.Proofs.Evaluate.Yields
import DottedPath.Proofs.Evaluate.Alike
import DottedPath.Proofs.Evaluate.Retake
import DottedPath.Proofs.Evaluate.Graph
import DottedPath.Proofs.Evaluate.Descent
import DottedPath.Proofs.Evaluate.Reported
import DottedPath.Proofs.Transform.Builtin
import DottedPath.Proofs.Value.Copies
import DottedPath.Proofs.Evaluate.CopyEquality
import DottedPath.Proofs.Evaluate.KeptGraph
import DottedPath.Proofs.Evaluate.WriteBack
import DottedPath.Proofs.Evaluate.Fits
import DottedPath.Proofs.Evaluate.Projection
import DottedPath.Proofs.Path.IntegerToken
import DottedPath.Proofs.Path.AccessText
import DottedPath.Proofs.Path.BracketText
import DottedPath.Proofs.Path.Parenthesized
import DottedPath.Proofs.Evaluate.GroupUpdate
import DottedPath.Proofs.Evaluate.SlotGroup
import DottedPath.Proofs.Evaluate.SlotRemoval
import DottedPath.Proofs.Value.Form
import DottedPath.Proofs.Value.Tree
import DottedPath.Proofs.Evaluate.Slots
import DottedPath.Proofs.Value.Places
import DottedPath.Proofs.Evaluate.TreeDescent
import DottedPath.Proofs.Evaluate.TreeReplace
import DottedPath.Proofs.Value.Ways
import DottedPath.Proofs.Evaluate.WayWrite
import DottedPath.Proofs.Evaluate.ReadOnly
import DottedPath.Proofs.Query.Apply
import DottedPath.Proofs.Value.Reach
import DottedPath.Proofs.Value.SimpleWays
import DottedPath.Proofs.Evaluate.FullDescent
import DottedPath.Proofs.Evaluate.PlainRead
import DottedPath.Proofs.Query.Expansion
import DottedPath.Proofs.Value.Collections
import DottedPath.Proofs.Evaluate.Fence
import DottedPath.Proofs.Evaluate.FencedTests
import DottedPath.Proofs.Evaluate.FencedRead
import DottedPath.Proofs.Evaluate.FencedChild
import DottedPath.Proofs.Evaluate.FencedBuild
import DottedPath.Proofs.Evaluate.FencedEdit
import DottedPath.Proofs.Evaluate.FencedCopy
import DottedPath.Proofs.Transform.FencedBuiltin
import DottedPath.Proofs.Query.FencedWrite
import DottedPath.Proofs.Query.RootWrite
import DottedPath.Proofs.Value.Unfolding
import DottedPath.Proofs.Evaluate.Mirror
import DottedPath.Proofs.Evaluate.GraphCopy
import DottedPath.Proofs.Query.RecentPaths
import DottedPath.Value.Digest
import DottedPath.Proofs.Value.Meaning
import DottedPath.Proofs.Value.HashedLookup
import DottedPath.Proofs.Evaluate.KeyDescent
import DottedPath.Proofs.Query.KeyInsertion
import DottedPath.Proofs.Evaluate.ChosenSlots
import DottedPath.Proofs.Evaluate.TreeWrite
import DottedPath.Proofs.Query.FindUpdated
import DottedPath.Proofs.Query.GroupCreation
import DottedPath.Proofs.Path.NumberToken
import DottedPath.Proofs.Path.NormalizedKey
import DottedPath.Proofs.Query.SoftCut
import DottedPath.Proofs.Evaluate.SelectedSlots
import DottedPath.Proofs.Evaluate.SlotPops
import DottedPath.Proofs.Evaluate.SelectedPlaces
import DottedPath.Proofs.Value.KeptEquality
import DottedPath.Proofs.Query.Removal
import DottedPath.Proofs.Evaluate.SilentEnd
import DottedPath.Proofs.Query.DefaultPath
import DottedPath.Proofs.Evaluate.Complement
import DottedPath.Proofs.Query.BuildKeeps
import DottedPath.Proofs.Matching.Splitting
import DottedPath.Proofs.Path.SlicePositions
import DottedPath.Proofs.Evaluate.SliceRead
import DottedPath.Proofs.Evaluate.SliceWrite
import DottedPath.Proofs.Query.SinglePlace
import DottedPath.Proofs.Query.Probe
import DottedPath.Proofs.Evaluate.FirstMatch
import DottedPath.Proofs.Matching.MemberOrder
import DottedPath.Proofs.Value.Ordering
import DottedPath.Proofs.Path.WordRange
import DottedPath.Proofs.Regex.Matching
import DottedPath.Proofs.Matching.TextGlob
import DottedPath.Proofs.Query.LeafCover
import DottedPath.Proofs.Evaluate.SliceLength
import DottedPath.Proofs.Path.Unbounded.Basic
import DottedPath.Proofs.Path.Unbounded.Pattern
import DottedPath.Proofs.Path.Unbounded.Segment
import DottedPath.Proofs.Path.Unbounded.Expression
