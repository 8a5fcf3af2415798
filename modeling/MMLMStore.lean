import MMLMStore.HexText
import MMLMStore.LMStoreDecode
import MMLMStore.DescriptorFormat
import MMLMStore.StepRuns
import MMLMStore.LMStoreTables
import MMLMStore.LMStoreSpace
import MMLMStore.LMStoreBounds
import MMLMStore.LMStoreFrame
import MMLMStore.FirstFit
import MMLMStore.KeyedTable
import MMLMStore.ModuleIR
import MMLMStore.LMRefMapping
import MMLMStore.LMRefColouring
import MMLMStore.LMStorePass
import MMLMStore.PassSteps
import MMLMStore.KeptFunctions
import MMLMStore.LMRefConflicts
import MMLMStore.LinkScript
import MMLMStore.RecordedNames
import MMLMStore.StorageBudget
import MMLMStore.OperandRewriting
import MMLMStore.LocalRelocation
import MMLMStore.GlobalRelocation
import MMLMStore.CodeShape
import MMLMStore.CreatedGlobals
import MMLMStore.CreatedTargets
import MMLMStore.RebuiltVariables
import MMLMStore.SectionContents
import MMLMStore.AlignedPlacement
import MMLMStore.MarkerAddresses
import MMLMStore.AccessExtents
import MMLMStore.IRExecution
import MMLMStore.SectionLifetime
import MMLMStore.ActivationStorage
import MMLMStore.LMStoreEvents
import MMLMStore.LMStoreOrder
import MMLMStore.LMStoreTurns
import MMLMStore.LMStoreWriteback
import MMLMStore.LMStoreWitness
import MMLMStore.LMStoreHits
import MMLMStore.LMStoreAllocation
import MMLMStore.LMStoreStats
import MMLMStore.MmuTranslation
import MMLMStore.MmuDiversion
import MMLMStore.BlockRequests
import MMLMStore.ReadRequestErrors
import MMLMStore.AccessList
import MMLMStore.AccessWaits
import MMLMStore.AccessContainers
import MMLMStore.CoalescedAccesses
import MMLMStore.CoalescedStores
import MMLMStore.LockLog
import MMLMStore.CacheChains
import MMLMStore.EntryLocks
import MMLMStore.StoreWitness
import MMLMStore.DirectoryEntries
import MMLMStore.CacheReplacement
import MMLMStore.RecencyOrder
import MMLMStore.ChunkedAccess
import MMLMStore.PagedMemory
import MMLMStore.HashChains
import MMLMStore.OrderedMaps
import MMLMStore.PageSpace
import MMLMStore.IntervalTiling
import MMLMStore.MemoryManager
import MMLMStore.AllocationHistory
import MMLMStore.ModulePorts
import MMLMStore.AccessFigures
import MMLMStore.SpeculativeMemory
import MMLMStore.AlignedBlocks
import MMLMStore.SharerDirectory
import MMLMStore.InvalidateCoverage
import MMLMStore.WriteRequestOwner
import MMLMStore.ReadRequestOwner
import MMLMStore.ClearOwnerMessage
import MMLMStore.BlockLookup
import MMLMStore.RejectedFrees
import MMLMStore.AlignedAllocation
import MMLMStore.FoundSpace
import MMLMStore.PageRanges
import MMLMStore.NextPages
import MMLMStore.PageCopies
import MMLMStore.FailedAccesses
import MMLMStore.ValidAddresses
import MMLMStore.LongestPaths
import MMLMStore.ModuleLevels
import MMLMStore.WaitingLocks
import MMLMStore.DirectoryLocks
import MMLMStore.ExecutionPreserved
import MMLMStore.HierarchyDirectories
import MMLMStore.UndisturbedChains
import MMLMStore.ServedAccesses
import MMLMStore.ResidentBlocks
