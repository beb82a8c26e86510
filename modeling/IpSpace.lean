import IpSpace.Main
import IpSpace.WriteOnce
import IpSpace.Proofs.Digits
import IpSpace.Proofs.Values
import IpSpace.Proofs.AlignedBlocks
import IpSpace.Proofs.Networks
import IpSpace.Proofs.PrefixBlocks
import IpSpace.Proofs.Coalesce
import IpSpace.Proofs.Difference
import IpSpace.Proofs.Enumeration
import IpSpace.Proofs.Sequential
import IpSpace.Proofs.SequentialSpans
import IpSpace.Proofs.Merge
import IpSpace.Proofs.RangeAlgebra
import IpSpace.Proofs.FreeSpace
import IpSpace.Proofs.Conflict
import IpSpace.Proofs.Counter
import IpSpace.Proofs.SectionSpans
import IpSpace.Proofs.AddressText
import IpSpace.Proofs.BlockLists
import IpSpace.Proofs.Outcomes
import IpSpace.Proofs.RunOutput
import IpSpace.Proofs.Masking
import IpSpace.Proofs.Building
import IpSpace.Proofs.NetworkTuples
import IpSpace.Proofs.Walks
import IpSpace.Proofs.Obtainable
import IpSpace.Proofs.MaskedWords
import IpSpace.Proofs.Keys
import IpSpace.Proofs.Cursor
import IpSpace.Proofs.EntryLines
import IpSpace.Proofs.HostConversion
import IpSpace.Proofs.HostTests
import IpSpace.Proofs.NetworkBlocks
import IpSpace.Proofs.PrefixWalks
import IpSpace.Proofs.FixedSegments
import IpSpace.Proofs.AddressWalks
import IpSpace.Proofs.BlockLengths
import IpSpace.Proofs.NetworkTests
import IpSpace.Proofs.NetworkHull
import IpSpace.Proofs.HostEnds
import IpSpace.Proofs.MaskedSections
import IpSpace.Proofs.PieceLengths
import IpSpace.Proofs.MaskLengths
import IpSpace.Proofs.Covers
import IpSpace.Proofs.IntervalAlgebra
import IpSpace.Proofs.Comparison
import IpSpace.Proofs.Reversal
import IpSpace.Proofs.MaskedBytes
import IpSpace.Proofs.LineByLine
import IpSpace.Proofs.KeyOrder
import IpSpace.Proofs.SectionText
import IpSpace.Proofs.TableRows
import IpSpace.Proofs.SingleAddresses
import IpSpace.Proofs.BlockCounts
import IpSpace.Proofs.Layouts
import IpSpace.Proofs.Documents
import IpSpace.Proofs.Machine.Words
import IpSpace.Proofs.Machine.Masks
import IpSpace.Proofs.Machine.Segments
import IpSpace.Proofs.Machine.Sections
import IpSpace.Proofs.Machine.Lengths
import IpSpace.Proofs.Machine.Building
import IpSpace.Proofs.Machine.Conversions
import IpSpace.Proofs.Machine.Combinations
import IpSpace.Proofs.Machine.Odometers
import IpSpace.Proofs.Machine.Ranges
import IpSpace.Proofs.Machine.Layouts
import IpSpace.Proofs.Machine.Walks
import IpSpace.Proofs.Machine.BlockSpans
import IpSpace.Proofs.Machine.BlockRounds
import IpSpace.Proofs.Machine.RunSpans
import IpSpace.Proofs.Machine.Spans
import IpSpace.Proofs.Machine.Calls
