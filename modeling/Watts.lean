import Watts.BlockOrder
import Watts.BoxSound
import Watts.Interferences
import Watts.PermCache
import Watts.CombinationCoverage
import Watts.StaleInterfs
import Watts.StableStores
import Watts.PhiNodes
import Watts.WrapAround
import Watts.Comparisons
import Watts.TruthValues
import Watts.ReorderRules
import Watts.ConstraintFacts
import Watts.FenceOrder
import Watts.RecordedStores
import Watts.Library.Queue
import Watts.ThreadDiscovery
import Watts.GrowingEntries
import Watts.Concurrency
import Watts.Histories
import Watts.MustHappenBefore
import Watts.PruningSound
import Watts.Schedules
import Watts.Enumeration
import Watts.Library.Numbering
import Watts.ValueIds
import Watts.ExcludedStores
import Watts.InThreadOrder
import Watts.Library.Reaching
import Watts.ReachingPaths
import Watts.SelfReads
import Watts.Differences
import Watts.LoadModes
import Watts.AtomicAdds
import Watts.InterferenceFixpoint
import Watts.ThreadModular
import Watts.SliceDecisions
import Watts.Library.PartialInverse
import Watts.ValToStrDB
import Watts.EmptyInterferences
import Watts.LoadKinds
import Watts.SolverAnswers
import Watts.MemoryModels
import Watts.PrunedPermutations
import Watts.Environment
import Watts.IdMetadata
import Watts.SupportedPrograms
import Watts.PassStops
import Watts.BottomFacts
import Watts.ErrorReports
import Watts.SingleThread
import Watts.PermutationJoin
