import Kremlin.Library.Run
import Kremlin.Runtime.ProfileNode
import Kremlin.Runtime.StatsPage
import Kremlin.Runtime.CRegion
import Kremlin.Library.JumpStack
import Kremlin.Runtime.RegionTreeShape
import Kremlin.Library.ByteCodec
import Kremlin.Library.WorkQueue
import Kremlin.Planner.CRegionManager
import Kremlin.Planner.LinkRegions
import Kremlin.Planner.RecursionWeight
import Kremlin.Planner.WeightOrder
import Kremlin.Planner.RoundTrip
import Kremlin.Planner.NoNestPlanner
import Kremlin.Planner.PageSavings
import Kremlin.Planner.ParallelTimes
import Kremlin.Planner.GreedyPlanner
import Kremlin.Planner.Coverage
import Kremlin.Library.LevelTimes
import Kremlin.Library.VersionedMap
import Kremlin.Runtime.CriticalPath
import Kremlin.Runtime.DepthOrder
import Kremlin.Runtime.ControlDependences
import Kremlin.Runtime.LevelArrays
import Kremlin.Library.NestedPaths
import Kremlin.Runtime.UpdateCosts
import Kremlin.Runtime.ExitBounds
import Kremlin.Runtime.ArgumentRounds
import Kremlin.Runtime.NaryHandlers
import Kremlin.Runtime.LoadHandlers
import Kremlin.Runtime.SharedLevels
import Kremlin.Instrument.LoadHandler
import Kremlin.Instrument.TimestampPlacer
import Kremlin.Shadow.PooledWrites
import Kremlin.Shadow.CompressionBuffer
import Kremlin.Shadow.SkaduCacheRuns
import Kremlin.Shadow.MShadowSTV
import Kremlin.Shadow.MShadowBaseRuns
import Kremlin.Planner.PlanPrinter
import Kremlin.Instrument.IsPredecessor
import Kremlin.Instrument.PlacementOrder
import Kremlin.Planner.SRegion
import Kremlin.Shadow.SingleVersion
import Kremlin.Shadow.AddressSlots
import Kremlin.Shadow.TablePrefix
import Kremlin.Common.KremlinDeque
import Kremlin.Common.HashMap
import Kremlin.Common.HashMapChains
import Kremlin.Common.HashMapRehash
import Kremlin.Common.HashMapIterator
import Kremlin.Shadow.CacheHalves
import Kremlin.Library.DelimitedText
import Kremlin.Planner.SRegionReader
import Kremlin.Instrument.Region
import Kremlin.Planner.RegionSymbols
import Kremlin.Library.KeyedMaxima
import Kremlin.Instrument.TimestampAnalysis
import Kremlin.Library.GetoptLong
import Kremlin.Runtime.Arguments
import Kremlin.Instrument.LoopSplitting
import Kremlin.Instrument.ArgumentPassing
import Kremlin.Instrument.ChainDiscovery
import Kremlin.Instrument.ChainDepth
import Kremlin.Runtime.ShadowedRuns
import Kremlin.Runtime.WorkConservation
import Kremlin.Planner.ProfileFile
