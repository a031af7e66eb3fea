import Lorica.Lib.Action
import Lorica.Lib.Runs
import Lorica.Lib.IndexPool
import Lorica.RMVByMapped
import Lorica.Allocator
import Lorica.Lib.LittleEndian
import Lorica.MappedObjectId
import Lorica.ProxyMapper
import Lorica.RegistryMoves
import Lorica.RegistryRuns
import Lorica.Resolution
import Lorica.ProxyServant
import Lorica.ReferenceMapper
import Lorica.SecureAccess
import Lorica.Collector
import Lorica.Lib.SteeredTree
import Lorica.OperationTable
import Lorica.AddInterface
import Lorica.GenericEvaluator
import Lorica.InterfaceLookup
import Lorica.Lib.Sweep
import Lorica.EvaluatorPlan
import Lorica.Firewall
import Lorica.ProxyReplyHandler
import Lorica.Facing
import Lorica.ConfigSyntax
import Lorica.Endpoint
import Lorica.Config
import Lorica.ConfigRuns
import Lorica.Lib.LinkedChain
import Lorica.MapperChain
import Lorica.Retrace
import Lorica.Ownership
import Lorica.IorNames
import Lorica.Lib.LockFile
import Lorica.PidFile
import Lorica.EvaluatorBase
import Lorica.TableSoundness
import Lorica.InstanceIsolation
import Lorica.FreeStack
import Lorica.MapperShutdown
import Lorica.Lib.EagerSearch
import Lorica.TypeSearch
import Lorica.UnknownOperations
import Lorica.ValueRewrite
import Lorica.KindNarrowing
import Lorica.EntryNames
import Lorica.ExactRemoval
import Lorica.FailedMapping
import Lorica.ArgumentAlignment
import Lorica.TableRefinement
import Lorica.EndpointSyntax
import Lorica.Lib.Pieces
import Lorica.InterfaceRetry
import Lorica.ProxyConfigure
import Lorica.EndpointPorts
import Lorica.MapperRemoval
import Lorica.ClientCounts
import Lorica.CollectionPass
import Lorica.Lib.SearchTree
import Lorica.SortedTable
import Lorica.ObjectIdCodec
import Lorica.IndexCapacity
import Lorica.ListReferences
import Lorica.ListBalance
import Lorica.Lib.Interference
import Lorica.SharedTable
import Lorica.LostOperations
import Lorica.Lib.Evolution
import Lorica.ValueWalk
import Lorica.MappingRuns
import Lorica.Echo
import Lorica.FrameWalk
import Lorica.Confinement
import Lorica.PassCoverage
import Lorica.Lib.Tracking
import Lorica.TableFlags
import Lorica.CollectorShutdown
import Lorica.FlagMemo
import Lorica.Lib.Release
import Lorica.TableDestruction
import Lorica.SpaceBound
