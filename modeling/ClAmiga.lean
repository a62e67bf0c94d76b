import ClAmiga.Radix.Limbs
import ClAmiga.Radix.Knuth
import ClAmiga.Bignum.Magnitude
import ClAmiga.Bignum.MagnitudeSpec
import ClAmiga.Bignum.Divide
import ClAmiga.Bignum.DivideSpec
import ClAmiga.Number.Integer
import ClAmiga.Number.IntegerSpec
import ClAmiga.Number.Arithmetic
import ClAmiga.Number.Division
import ClAmiga.Number.Ratio
import ClAmiga.Number.RatioSpec
import ClAmiga.Number.Rounding
import ClAmiga.Number.RoundingSpec
import ClAmiga.Number.RoundingExact
import ClAmiga.Float.Big
import ClAmiga.Float.BigSpec
import ClAmiga.Float.Dragon
import ClAmiga.Float.DragonSpec
import ClAmiga.Radix.Nearest
import ClAmiga.Float.Parse
import ClAmiga.Float.ParseSpec
import ClAmiga.Float.Layout
import ClAmiga.Float.RoundTrip
import ClAmiga.Float.Shortest
import ClAmiga.Thread.StopTheWorld
import ClAmiga.Thread.Lock
import ClAmiga.Thread.LockSpec
import ClAmiga.Chain.Buckets
import ClAmiga.Package.Registry
import ClAmiga.Package.Externality
import ClAmiga.Package.Interning
import ClAmiga.BindTab.Pack
import ClAmiga.Search.PartitionPoint
import ClAmiga.BindTab.Read
import ClAmiga.BindTab.Layout
import ClAmiga.BindTab.RoundTrip
import ClAmiga.BindTab.Accepted
import ClAmiga.BindTab.ProbeSpec
import ClAmiga.Arrays.Bounds
import ClAmiga.Call.Binding
import ClAmiga.Call.Frame
import ClAmiga.Call.LambdaList
import ClAmiga.HashTable.Keys
import ClAmiga.HashTable.Settled
import ClAmiga.HashTable.Refinement
import ClAmiga.HashTable.Agreement
import ClAmiga.HashTable.EqualHash
import ClAmiga.HashTable.Interleaving
import ClAmiga.HashTable.InterleavingSpec
import ClAmiga.Bignum.DivideChecked
import ClAmiga.Condition.HandlerSearch
import ClAmiga.Peephole.Decode
import ClAmiga.Peephole.Encode
import ClAmiga.Peephole.DecodeSpec
import ClAmiga.Peephole.Edits
import ClAmiga.Peephole.Sound
import ClAmiga.Peephole.Fusion
import ClAmiga.Peephole.Settled
import ClAmiga.Peephole.EncodeSpec
import ClAmiga.Peephole.FailSafe
import ClAmiga.Peephole.LineMap
import ClAmiga.Peephole.SourceLines
import ClAmiga.Clos.Finalize
import ClAmiga.Clos.Links
import ClAmiga.Clos.Redefine
import ClAmiga.Clos.Installation
import ClAmiga.Clos.Consistency
import ClAmiga.Clos.Dispatch
import ClAmiga.Bignum.MultiplyChecked
import ClAmiga.Number.MultiplyPaths
import ClAmiga.Number.Negation
import ClAmiga.Number.Shift
import ClAmiga.Number.Bitwise
import ClAmiga.Number.BitwiseSpec
import ClAmiga.Number.Isqrt
import ClAmiga.Number.Expt
import ClAmiga.Number.Lcm
import ClAmiga.Number.ByteField
import ClAmiga.Number.IntegerText
import ClAmiga.Number.IntegerTextSpec
import ClAmiga.Float.BigRuns
import ClAmiga.Float.Compare
import ClAmiga.Float.CompareSpec
import ClAmiga.Float.ParseExact
import ClAmiga.ReadPrint.Utf8
import ClAmiga.Radix.BitCount
import ClAmiga.Gc.Forward
import ClAmiga.Gc.Bitmap
import ClAmiga.Gc.PinGaps
import ClAmiga.Gc.ForwardSpec
import ClAmiga.Gc.ForwardAgreement
import ClAmiga.Gc.RootWalk
import ClAmiga.Gc.Mark
import ClAmiga.Gc.RootUpdateSpec
import ClAmiga.Gc.RegisteredRoots
import ClAmiga.Graph.Worklist
import ClAmiga.Gc.MarkSpec
import ClAmiga.Fasl.Stream
import ClAmiga.Fasl.Deps
import ClAmiga.Fasl.DepsWrite
import ClAmiga.Fasl.DepsCheck
import ClAmiga.Fasl.DepsAgreement
import ClAmiga.Labels.Read
import ClAmiga.Labels.Patch
import ClAmiga.Labels.Graph
import ClAmiga.Labels.Growth
import ClAmiga.Labels.ReadSpec
import ClAmiga.Labels.Close
import ClAmiga.Labels.ReadSteps
import ClAmiga.Labels.ReadDenotes
import ClAmiga.Strings.Buffer
import ClAmiga.Strings.Scalar
import ClAmiga.Strings.Decode
import ClAmiga.Strings.Encode
import ClAmiga.Alloc.Slow
import ClAmiga.Alloc.Headerless
import ClAmiga.Probe.Table
import ClAmiga.Gc.FreeGap
import ClAmiga.Table.Rehome
import ClAmiga.Gc.SrcLoc
import ClAmiga.Condition.TypeMatch
import ClAmiga.Condition.Slots
import ClAmiga.Vm.MultipleValues
import ClAmiga.Clos.InlineCache
import ClAmiga.Fasl.SharingSpec
import ClAmiga.Probe.Update
import ClAmiga.Struct.Registry
import ClAmiga.Struct.RegistrySpec
import ClAmiga.Tlv.Table
import ClAmiga.Tlv.Bindings
import ClAmiga.Tlv.Meaning
import ClAmiga.Tlv.Refinement
import ClAmiga.Tlv.Restore
import ClAmiga.Keyed.Leftmost
import ClAmiga.Removing.Limited
import ClAmiga.Sorting.StableOrder
import ClAmiga.Cells.Linked
import ClAmiga.Sequence.Keywords
import ClAmiga.Sequence.LeftmostRule
import ClAmiga.Sequence.Sort
import ClAmiga.Sequence.ListSort
import ClAmiga.Sequence.InsertionSort
import ClAmiga.Sequence.SortSpec
import ClAmiga.Sequence.Remove
import ClAmiga.Sequence.RemoveLoops
import ClAmiga.Sequence.RemoveSpec
import ClAmiga.Circle.WalkSpec
import ClAmiga.Circle.Print
import ClAmiga.Circle.Visits
import ClAmiga.Circle.Follow
import ClAmiga.Circle.Termination
import ClAmiga.Circle.Text
import ClAmiga.Circle.Written
import ClAmiga.Circle.PrintDescribes
import ClAmiga.Circle.Isomorphism
import ClAmiga.Types.IntegerSpecifier
import ClAmiga.Types.IntegerRange
import ClAmiga.Types.ArraySpecifier
import ClAmiga.Types.ArrayCheck
import ClAmiga.Clos.MergeSpec
import ClAmiga.Signals.Outcome
import ClAmiga.Clos.Failure
import ClAmiga.Clos.FailureSpec
import ClAmiga.Removing.Duplicates
import ClAmiga.Sequence.RemoveDuplicates
import ClAmiga.Sequence.Match
import ClAmiga.Sequence.MatchSpec
import ClAmiga.Stores.Assign
import ClAmiga.Sequence.Storage
import ClAmiga.Sequence.Replace
import ClAmiga.Sequence.Places
import ClAmiga.Sequence.ReplaceSpec
import ClAmiga.Sequence.MapInto
import ClAmiga.Sequence.MapIntoSpec
import ClAmiga.Sequence.Substitute
import ClAmiga.Sequence.Narrowing
import ClAmiga.Sequence.StringStores
import ClAmiga.Fasl.Sharing
