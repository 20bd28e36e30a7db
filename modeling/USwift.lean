import USwift.Library.SipHash
import USwift.Runtime.RefCount
import USwift.Integer.Division
import USwift.Integer.Comparison
import USwift.Integer.Conversion
import USwift.Integer.Words
import USwift.Integer.Types
import USwift.Library.Packing
import USwift.Hashing.State
import USwift.Hashing.TailBuffer
import USwift.Hashing.Core
import USwift.Hashing.Hasher
import USwift.Library.Segmentation
import USwift.Library.Utf8
import USwift.Integer.Shift
import USwift.Unicode.UIntBuffer
import USwift.Unicode.Parser
import USwift.Unicode.ValidUTF8Buffer
import USwift.Unicode.UTF8Forward
import USwift.Unicode.UTF8Segments
import USwift.Library.BitFields
import USwift.Library.EncodingForms
import USwift.Unicode.Coding
import USwift.Unicode.WideParsers
import USwift.Unicode.Encodings
import USwift.Unicode.Transcode
import USwift.Unicode.Configurations
import USwift.Library.Utf8Backwards
import USwift.Unicode.UTF8Reverse
import USwift.Unicode.UTF8Directions
import USwift.Collections.ArrayBuffer
import USwift.Collections.ArraySlice
import USwift.Hashing.OneShot
import USwift.Unicode.TranscodedLength
import USwift.Collections.OptionSet
import USwift.Collections.Stride
import USwift.Collections.Ranges
import USwift.Collections.Span
import USwift.Library.Loops
import USwift.Library.RingBuffers
import USwift.Collections.ArrayStorage
import USwift.Collections.SequenceAlgorithms
import USwift.Collections.Memory
import USwift.Collections.ArrayBuilder
import USwift.Collections.ValueSemantics
import USwift.Integer.Exactly
import USwift.Integer.MaskingShift
import USwift.Library.DoubleWidth
import USwift.Integer.FullWidth
import USwift.Integer.Distance
import USwift.Integer.Random
import USwift.Collections.StrideContains
import USwift.Collections.IndexLimits
import USwift.Unicode.ValidUTF8Indices
import USwift.Library.Splices
import USwift.Library.Swaps
import USwift.Collections.Listed
import USwift.Collections.RangeReplaceable
import USwift.Collections.Partition
import USwift.Collections.Slices
import USwift.Collections.Shuffle
import USwift.Library.Copying
import USwift.Collections.Pointers
import USwift.Collections.ReplaceSubrange
import USwift.Unicode.UIntBufferRuns
import USwift.Collections.BufferPointers
import USwift.Collections.BufferUpdates
import USwift.Collections.ContentsUpdates
import USwift.Collections.CopyContents
import USwift.Collections.Traversal
import USwift.Library.Blocks
import USwift.Collections.Flatten
import USwift.Collections.Filter
import USwift.Collections.Reverse
import USwift.Collections.Repeating
import USwift.Collections.DropLast
import USwift.Library.Streams
import USwift.Collections.Subsequences
import USwift.Library.Lexicographic
import USwift.Collections.SequenceComparison
import USwift.Runtime.RefCountChecks
import USwift.Collections.SpanIndices
import USwift.Library.Transfers
import USwift.Collections.WriteBack
import USwift.Collections.BufferCollections
import USwift.Collections.SliceAssignment
import USwift.Library.Interleaving
import USwift.Runtime.RefCountThreads
import USwift.Runtime.RefCountInterleavings
import USwift.Library.BinaryFormats
import USwift.FloatingPoint.Formats
import USwift.FloatingPoint.Extend
import USwift.FloatingPoint.Truncate
import USwift.Integer.BitCounts
import USwift.FloatingPoint.Members
import USwift.FloatingPoint.Components
import USwift.FloatingPoint.FromInteger
import USwift.FloatingPoint.Comparison
import USwift.FloatingPoint.ToInteger
import USwift.FloatingPoint.FloatCasts
import USwift.FloatingPoint.WordConversions
import USwift.Collections.Bitset
