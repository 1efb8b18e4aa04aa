import ArtRuntime.FixedWidth
import ArtRuntime.DexInstruction
import ArtRuntime.FillArrayData
import ArtRuntime.HashSet
import ArtRuntime.HashSetSaturation
import ArtRuntime.Lattice.CappedSet
import ArtRuntime.OptionLoop
import ArtRuntime.ProfileCompilationInfo
import ArtRuntime.ProfileContent
import ArtRuntime.ProfileMerge
import ArtRuntime.ProfileMergeSucceeds
import ArtRuntime.Graph.Dominance
import ArtRuntime.Dominators
import ArtRuntime.DominatorsCommon
import ArtRuntime.DominatorsBackEdges
import ArtRuntime.DominatorsOrder
import ArtRuntime.DominatorsFixPoint
import ArtRuntime.DominatorsExact
import ArtRuntime.Bits.LittleEndian
import ArtRuntime.BitMemoryRegion
import ArtRuntime.Bits.Runs
import ArtRuntime.BitMemoryRegionCompare
import ArtRuntime.BitMemoryStream
import ArtRuntime.BitTable
import ArtRuntime.BitTableDedup
import ArtRuntime.Search.BinarySearch
import ArtRuntime.Utf
import ArtRuntime.UtfConversion
import ArtRuntime.UtfCompare
import ArtRuntime.DescriptorsNames
import ArtRuntime.DexFile
import ArtRuntime.DexFileVerifier
import ArtRuntime.DexStringData
import ArtRuntime.Bits.Base128
import ArtRuntime.Leb128
import ArtRuntime.Search.PartitionPoint
import ArtRuntime.StackMap
import ArtRuntime.Bits.TwosComplement
import ArtRuntime.NodesCompute
import ArtRuntime.InstructionSimplifier
import ArtRuntime.BoundsCheckElimination
import ArtRuntime.DescriptorConversions
import ArtRuntime.CompactOffsetTable
import ArtRuntime.ProfileMergeFailure
import ArtRuntime.IndirectReferenceTable
import ArtRuntime.TypeLookupTable
import ArtRuntime.SwitchDispatch
import ArtRuntime.Search.FirstFit
import ArtRuntime.RegionSpace
import ArtRuntime.Bits.ByteWords
import ArtRuntime.VerifierDeps
import ArtRuntime.VerifierDepsRoundTrip
import ArtRuntime.Search.LinearProbing
import ArtRuntime.HashSetProbing
import ArtRuntime.Graph.Linearization
import ArtRuntime.LinearOrder
import ArtRuntime.LinearOrderKahn
import ArtRuntime.LinearOrderLoops
import ArtRuntime.Calls.Refinement
import ArtRuntime.Queue.RingBuffer
import ArtRuntime.BoundedFifo
