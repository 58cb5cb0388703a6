import LibZenit.ArenaSession
import LibZenit.LinkedChain
import LibZenit.ArenaLayout
import LibZenit.ArenaSurgery
import LibZenit.ArenaInvariant
import LibZenit.ArenaRuns
import LibZenit.HashCommon
import LibZenit.HashTableInvariant
import LibZenit.HashTableSteps
import LibZenit.MapEnumeration
import LibZenit.JsonBounds
import LibZenit.JsonNumbers
import LibZenit.JsonObject
import LibZenit.JsonRoundTrip
import LibZenit.JsonSlices
import LibZenit.LruIndex
import LibZenit.LruOperations
import LibZenit.LruRefinement
import LibZenit.LruLifecycle
import LibZenit.BlockLedger
import LibZenit.JsonHeap
import LibZenit.JsonHeapInvariant
import LibZenit.JsonHeapParser
import LibZenit.JsonHeapSafety
import LibZenit.JsonDomRuns
import LibZenit.JsonPrinting
import LibZenit.JsonFiles
import LibZenit.GraphEdgeCount
import LibZenit.GraphIdentity
import LibZenit.DequeRefinement
import LibZenit.GrowthTermination
import LibZenit.HeapRefinement
import LibZenit.SemverOrder
import LibZenit.SemverRoundTrip
import LibZenit.CsvRoundTrip
import LibZenit.PathMeaning
import LibZenit.RingRefinement
import LibZenit.SpscCreate
import LibZenit.SpscObservers
import LibZenit.ThreadPoolSafety
import LibZenit.ThreadPoolProgress
import LibZenit.PoolInvariant
import LibZenit.ArenaBlockMap
import LibZenit.SetMapLockstep
import LibZenit.TrieClear
import LibZenit.TriePrefixes
import LibZenit.BitsetRefinement
import LibZenit.Base64Acceptance
import LibZenit.StrInverse
import LibZenit.BloomFilter
import LibZenit.ListRefinement
import LibZenit.VectorRefinement
import LibZenit.QueueRefinement
import LibZenit.StringInvariant
import LibZenit.GraphGrowth
import LibZenit.CsvDiscipline
import LibZenit.UriRoundTrip
import LibZenit.HexRoundTrip
import LibZenit.JsonNumberSyntax
import LibZenit.JsonStringDecoding
import LibZenit.JsonScratch
import LibZenit.SizeArithmetic
import LibZenit.ReallocTransparency
import LibZenit.JsonBlocksSound
import LibZenit.CsvBounds
import LibZenit.SemverFailure
import LibZenit.SemverPrecedence
import LibZenit.Quicksort
import LibZenit.MergeSort
import LibZenit.BinarySearch
import LibZenit.TraversalOrder
import LibZenit.GraphAtomicity
import LibZenit.ArenaRequests
import LibZenit.ArenaAcquire
import LibZenit.ArenaContents
import LibZenit.BitsetGrowth
import LibZenit.GlobLanguage
import LibZenit.ProbeSequence
import LibZenit.UuidText
import LibZenit.LineReading
import LibZenit.FileReading
import LibZenit.DirCreation
import LibZenit.DirContents
import LibZenit.StateMachineRuns
import LibZenit.FileTransfers
import LibZenit.SetIteration
import LibZenit.StackRefinement
